import StorageFlow.Proofs.Rewriting.Meaning
import Mathlib.Algebra.Ring.Int.Defs
import Mathlib.Algebra.Group.Nat.Defs

/-!
# StorageFlow.Proofs.Rewriting.Folding

Constant folding is exact, and done wherever a literal can stand for the result.

* `Instruction.foldArity?` — on how many numbers an instruction is folded, if on any.
* `Instruction.integer?` — the result of an instruction on numbers, in no fixed width.
* `Instruction.fold?_iff_integer?` — a number that a literal can stand for is a fold if and only if
  it is the exact result.
* `Rule.constantFolding_eq_some_iff` — what the rule makes of an operation.
* `Rule.constantFolding_exact` — when it folds, and that it does so as the words would.
-/

namespace StorageFlow

/-- The number of operands with which an instruction is folded, if it is folded at all. -/
def Instruction.foldArity? : Instruction → Option Nat
  | .iszero => some 1
  | .add | .sub | .mul | .div | .mod | .eq | .lt | .gt | .and | .or | .xor => some 2
  | _ => none

/-- The result of an instruction on numbers as a whole number of any size. The quotient and the
remainder of a division by zero are zero. -/
def Instruction.integer? : Instruction → List Nat → Option Int
  | .iszero, [a] => some (if a = 0 then 1 else 0)
  | .add, [a, b] => some (a + b)
  | .sub, [a, b] => some (a - b)
  | .mul, [a, b] => some (a * b)
  | .div, [a, b] => some (if b = 0 then 0 else a / b)
  | .mod, [a, b] => some (if b = 0 then 0 else a % b)
  | .eq, [a, b] => some (if a = b then 1 else 0)
  | .lt, [a, b] => some (if a < b then 1 else 0)
  | .gt, [a, b] => some (if b < a then 1 else 0)
  | .and, [a, b] => some ↑(a &&& b)
  | .or, [a, b] => some ↑(a ||| b)
  | .xor, [a, b] => some ↑(a ^^^ b)
  | _, _ => none

namespace Instruction

variable {operator : Instruction} {numbers : List Nat}

/-- Instructions with an exact result are those that are folded, on the right number of operands. -/
theorem isSome_integer?_iff :
    (operator.integer? numbers).isSome = true ↔ operator.foldArity? = some numbers.length := by
  match numbers with
  | [] => cases operator <;> simp [integer?, foldArity?]
  | [_] => cases operator <;> simp [integer?, foldArity?]
  | [_, _] => cases operator <;> simp [integer?, foldArity?]
  | _ :: _ :: _ :: _ => cases operator <;> simp [integer?, foldArity?]

theorem truthNumber_eq_iff (p : Bool) (n : Nat) :
    truthNumber p = n ↔ (if p = true then 1 else 0 : Int) = n := by
  cases p <;> simp [truthNumber] <;> omega

/-- A number that a literal can stand for is a fold if and only if it is the exact result. -/
theorem fold?_iff_integer? {n : Nat} (hn : n < numericLimit) :
    operator.fold? numbers = some n ↔ operator.integer? numbers = some (n : Int) := by
  match numbers with
  | [] => cases operator <;> simp [fold?, integer?]
  | [a] =>
      cases operator with
      | iszero => simp [fold?, integer?, truthNumber_eq_iff]
      | _ => simp [fold?, integer?]
  | [a, b] =>
      cases operator with
      | add =>
          simp only [fold?, integer?, representable?, Option.ite_none_right_eq_some,
            Option.some.injEq]
          omega
      | sub =>
          simp only [fold?, integer?, Option.ite_none_right_eq_some, Option.some.injEq]
          omega
      | mul =>
          simp only [fold?, integer?, representable?, Option.ite_none_right_eq_some,
            Option.some.injEq]
          rw [← Int.natCast_mul, Int.natCast_inj]
          omega
      | div =>
          simp only [fold?, integer?, Option.some.injEq]
          split
          next hzero =>
            rw [hzero, Nat.div_zero]
            omega
          next => rw [← Int.natCast_ediv, Int.natCast_inj]
      | mod =>
          simp only [fold?, integer?, Option.some.injEq]
          split <;> omega
      | eq | lt | gt => simp [fold?, integer?, truthNumber_eq_iff]
      | and | or | xor =>
          simp only [fold?, integer?, Option.some.injEq]
          exact Int.natCast_inj.symm
      | _ => simp [fold?, integer?]
  | _ :: _ :: _ :: _ => cases operator <;> simp [fold?, integer?]

end Instruction

theorem Expr.mapM_toNat?_eq_some_iff {es : List Expr} {numbers : List Nat} :
    es.mapM Expr.toNat? = some numbers ↔ es.map Expr.toNat? = numbers.map some := by
  induction es generalizing numbers with
  | nil => cases numbers <;> simp
  | cons e es ih =>
      simp only [List.mapM_cons, List.map_cons, bind, Option.bind_eq_some_iff, pure,
        Option.some.injEq]
      constructor
      · rintro ⟨n, hn, rest, hrest, rfl⟩
        rw [hn, ih.1 hrest, List.map_cons]
      · intro h
        match numbers, h with
        | n :: rest, h =>
            obtain ⟨hn, hrest⟩ := List.cons.inj h
            exact ⟨n, hn, rest, ih.2 hrest, rfl⟩

/-- Numbers that arguments are written as are below the limit. -/
theorem Expr.lt_of_map_toNat? {es : List Expr} {numbers : List Nat}
    (h : es.map Expr.toNat? = numbers.map some) : ∀ n ∈ numbers, n < numericLimit := by
  intro n hn
  have hmem : some n ∈ es.map Expr.toNat? := h ▸ List.mem_map_of_mem hn
  obtain ⟨e, _, he⟩ := List.mem_map.1 hmem
  exact e.lt_of_toNat? he

namespace Rule

variable {dialect : Dialect} {operator : Instruction} {arguments : List Expr}

/-- Constant folding makes of an operation on numbers the number that is its exact result, if a
literal can stand for it. -/
theorem constantFolding_eq_some_iff {e : Expr} :
    constantFolding.apply dialect operator arguments = .ok (some e) ↔
      ∃ (numbers : List Nat) (n : Nat), arguments.map Expr.toNat? = numbers.map some ∧
        operator.integer? numbers = some (n : Int) ∧ n < numericLimit ∧ e = .number n := by
  constructor
  · intro h
    obtain ⟨numbers, n, hnumbers, hfold, rfl⟩ := constantFolding_eq_some h
    rw [Expr.mapM_toNat?_eq_some_iff] at hnumbers
    have hn := (Instruction.arithmetic?_of_fold? (Expr.lt_of_map_toNat? hnumbers) hfold).1
    exact ⟨numbers, n, hnumbers, (Instruction.fold?_iff_integer? hn).1 hfold, hn, rfl⟩
  · rintro ⟨numbers, n, hnumbers, hexact, hn, rfl⟩
    rw [← Expr.mapM_toNat?_eq_some_iff] at hnumbers
    have hfold := (Instruction.fold?_iff_integer? hn).2 hexact
    simp [constantFolding, hnumbers, hfold]

/-- Constant folding is exact, and it folds whenever it can. It never fails, and it finds a result
if and only if all operands are literals that stand for numbers, there are as many of them as the
instruction is folded with, and its exact result is neither negative nor too large for a literal.
The result is then a number, and as a word it is what the instruction makes of the words of the
operands, in whichever way they are written. -/
theorem constantFolding_exact (dialect : Dialect) (operator : Instruction)
    (arguments : List Expr) :
    ∃ result?, constantFolding.apply dialect operator arguments = .ok result? ∧
      (result?.isSome = true ↔
        ∃ (numbers : List Nat) (exact : Int), arguments.map Expr.toNat? = numbers.map some ∧
          operator.foldArity? = some arguments.length ∧
          operator.integer? numbers = some exact ∧ 0 ≤ exact ∧ exact < 2 ^ 128) ∧
      ∀ e ∈ result?, ∃ (numbers : List Nat) (word : Word) (literal : Literal),
        arguments.map Expr.toNat? = numbers.map some ∧
        operator.arithmetic? (numbers.map (BitVec.ofNat 256)) = some word ∧
        e = .literal literal ∧ literal.kind = .number ∧ literal.toNat? = some word.toNat := by
  obtain ⟨result?, happly⟩ : ∃ result?, constantFolding.apply dialect operator arguments =
      .ok result? := apply_standard_ok List.mem_cons_self operator arguments
  have hresult (e : Expr) : result? = some e ↔
      constantFolding.apply dialect operator arguments = .ok (some e) := by
    rw [happly, Except.ok.injEq]
  simp only [constantFolding_eq_some_iff] at hresult
  have hlimit : (numericLimit : Int) = 2 ^ 128 := rfl
  refine ⟨result?, happly, ?_, ?_⟩
  · rw [Option.isSome_iff_exists]
    constructor
    · rintro ⟨e, he⟩
      obtain ⟨numbers, n, hnumbers, hexact, hn, _⟩ := (hresult e).1 he
      have harity := Instruction.isSome_integer?_iff.1 (Option.isSome_of_eq_some hexact)
      have hlength : arguments.length = numbers.length := by
        simpa using congrArg List.length hnumbers
      exact ⟨numbers, n, hnumbers, hlength ▸ harity, hexact, Int.natCast_nonneg n, by omega⟩
    · rintro ⟨numbers, exact, hnumbers, _, hexact, hnonneg, hlt⟩
      obtain ⟨n, rfl⟩ := Int.eq_ofNat_of_zero_le hnonneg
      exact ⟨_, (hresult _).2 ⟨numbers, n, hnumbers, hexact, by omega, rfl⟩⟩
  · rintro e he
    obtain ⟨numbers, n, hnumbers, hexact, hn, rfl⟩ := (hresult e).1 he
    have hfold := (Instruction.fold?_iff_integer? hn).2 hexact
    have hword := (Instruction.arithmetic?_of_fold? (Expr.lt_of_map_toNat? hnumbers) hfold).2
    refine ⟨numbers, _, .number n, hnumbers, hword, rfl, rfl, ?_⟩
    rw [toNat_ofNat_of_lt hn, Literal.toNat?_number hn]

/-- Two numbers in different notation whose product is just below the limit. -/
def largeFactors : List Expr :=
  [.literal ⟨.number, "0x10000000000000000", .synthetic⟩, .number (2 ^ 64 - 1)]

theorem constantFolding_exact_largeProduct :
    ∃ literal, constantFolding.apply BuiltinTable.evm.toDialect .mul largeFactors =
        .ok (some (.literal literal)) ∧ literal.toNat? = some (2 ^ 128 - 2 ^ 64) := by
  obtain ⟨result?, happly, hfolds, hword⟩ :=
    constantFolding_exact BuiltinTable.evm.toDialect .mul largeFactors
  have hnumbers : largeFactors.map Expr.toNat? = [2 ^ 64, 2 ^ 64 - 1].map some := by
    decide +kernel
  have hresult := hfolds.2 ⟨_, 2 ^ 128 - 2 ^ 64, hnumbers, rfl, by decide, by decide, by decide⟩
  obtain ⟨e, he⟩ := Option.isSome_iff_exists.1 hresult
  obtain ⟨numbers, word, literal, hnumbers', hproduct, rfl, _, hliteral⟩ := hword e he
  obtain rfl : numbers = [2 ^ 64, 2 ^ 64 - 1] :=
    (List.map_inj_right fun _ _ => Option.some.inj).1 (hnumbers'.symm.trans hnumbers)
  cases hproduct
  exact ⟨literal, he ▸ happly, hliteral⟩

end Rule

end StorageFlow
