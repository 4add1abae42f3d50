import StorageFlow.Proofs.Rewriting.Failure
import StorageFlow.Proofs.Semantics.Interpretation

/-!
# StorageFlow.Proofs.Rewriting.Meaning

Simplification preserves meaning, effects included.

* `RuleTable.not_raises_of_standard` — standard rules never fail.
* `Instruction.arithmetic?_of_fold?` — exact results on numbers are the results on their words.
* `Rule.eval_apply_standard` — what a standard rule makes of an operation does the same.
* `Simplifier.LeavesHold` — the known literals and variables are the words of their variables.
* `Simplifier.simplify_preserves_meaning` — simplified expressions have the same word and the same
  effect.

The limits play no part: wherever a simplification stops, each step before was sound.
-/

namespace StorageFlow

variable {dialect : Dialect} {W : Type}

/-! ### Standard rules never fail -/

theorem Rule.apply_standard_ok {rule : Rule} (h : rule ∈ RuleTable.standard)
    (operator : Instruction) (arguments : List Expr) :
    ∃ result, rule.apply dialect operator arguments = .ok result := by
  simp only [RuleTable.standard, List.mem_cons, List.not_mem_nil, or_false] at h
  rcases h with rfl | rfl | rfl
  · exact ⟨_, rfl⟩
  · simp only [selfOperand]
    split <;> exact ⟨_, rfl⟩
  · simp only [neutralElement]
    split <;> exact ⟨_, rfl⟩

theorem RuleTable.not_raises_of_standard {rules : RuleTable} {error : Error}
    (h : ∀ rule ∈ rules, rule ∈ standard) : ¬ rules.Raises dialect error := by
  rintro ⟨rule, hrule, operator, arguments, herror⟩
  obtain ⟨result, hresult⟩ := Rule.apply_standard_ok (h rule hrule) operator arguments
  cases herror.symm.trans hresult

/-- A rule that matches first is one of the table. -/
theorem RuleTable.apply_of_firstMatch {operator : Instruction} {arguments : List Expr}
    {rules : RuleTable} {name : String} {e : Expr}
    (h : firstMatch dialect operator arguments rules = .ok (some (name, e))) :
    ∃ rule ∈ rules, rule.apply dialect operator arguments = .ok (some e) := by
  induction rules with
  | nil => cases h
  | cons rule rules ih =>
      unfold firstMatch at h
      split at h
      · cases h
      next happly =>
        cases h
        exact ⟨rule, List.mem_cons_self, happly⟩
      next =>
        obtain ⟨other, hother, happly⟩ := ih h
        exact ⟨other, List.mem_cons_of_mem _ hother, happly⟩

/-! ### Numbers and words -/

/-- Words hold all numbers that literals stand for. -/
theorem toNat_ofNat_of_lt {n : Nat} (h : n < numericLimit) : (BitVec.ofNat 256 n).toNat = n := by
  have hlimit : numericLimit ≤ 2 ^ 256 := by decide
  rw [BitVec.toNat_ofNat, Nat.mod_eq_of_lt (by omega)]

theorem ofNat_eq_iff {a b : Nat} (ha : a < numericLimit) (hb : b < numericLimit) :
    BitVec.ofNat 256 a = BitVec.ofNat 256 b ↔ a = b := by
  constructor
  · intro h
    rw [← toNat_ofNat_of_lt ha, h, toNat_ofNat_of_lt hb]
  · exact fun h => h ▸ rfl

theorem ofNat_ne_zero {n : Nat} (hlimit : n < numericLimit) (h : n ≠ 0) :
    BitVec.ofNat 256 n ≠ 0 := fun hzero =>
  h ((ofNat_eq_iff hlimit (by decide)).1 hzero)

theorem Expr.lt_of_toNat? {e : Expr} {n : Nat} (h : e.toNat? = some n) : n < numericLimit := by
  obtain ⟨_, _, hn⟩ := Option.bind_eq_some_iff.1 h
  exact Literal.lt_of_toNat? hn

theorem ofNat_div {a b : Nat} (ha : a < numericLimit) (hb : b < numericLimit) :
    BitVec.ofNat 256 a / BitVec.ofNat 256 b = BitVec.ofNat 256 (a / b) := by
  have hquotient : a / b < numericLimit := Nat.lt_of_le_of_lt (Nat.div_le_self a b) ha
  apply BitVec.eq_of_toNat_eq
  rw [BitVec.toNat_udiv, toNat_ofNat_of_lt ha, toNat_ofNat_of_lt hb, toNat_ofNat_of_lt hquotient]

theorem ofNat_mod {a b : Nat} (ha : a < numericLimit) (hb : b < numericLimit) :
    BitVec.ofNat 256 a % BitVec.ofNat 256 b = BitVec.ofNat 256 (a % b) := by
  have hremainder : a % b < numericLimit := Nat.lt_of_le_of_lt (Nat.mod_le a b) ha
  apply BitVec.eq_of_toNat_eq
  rw [BitVec.toNat_umod, toNat_ofNat_of_lt ha, toNat_ofNat_of_lt hb, toNat_ofNat_of_lt hremainder]

theorem ult_ofNat {a b : Nat} (ha : a < numericLimit) (hb : b < numericLimit) :
    (BitVec.ofNat 256 a).ult (BitVec.ofNat 256 b) = decide (a < b) := by
  rw [BitVec.ult_eq_decide, toNat_ofNat_of_lt ha, toNat_ofNat_of_lt hb]

theorem beq_ofNat {a b : Nat} (ha : a < numericLimit) (hb : b < numericLimit) :
    (BitVec.ofNat 256 a == BitVec.ofNat 256 b) = (a == b) := by
  rw [Bool.eq_iff_iff, beq_iff_eq, beq_iff_eq, ofNat_eq_iff ha hb]

theorem truthNumber_lt (p : Bool) : truthNumber p < numericLimit := by
  cases p <;> decide

theorem truthWord_eq (p : Bool) : truthWord p = BitVec.ofNat 256 (truthNumber p) := by
  cases p <;> rfl

/-- The exact result of an instruction on two numbers is the result on their words. -/
theorem Instruction.arithmetic?_pair_of_fold? {operator : Instruction} {a b n : Nat}
    (ha : a < numericLimit) (hb : b < numericLimit) (h : operator.fold? [a, b] = some n) :
    n < numericLimit ∧
      operator.arithmetic? [BitVec.ofNat 256 a, BitVec.ofNat 256 b] =
        some (BitVec.ofNat 256 n) := by
  have hwidth : numericLimit ≤ 2 ^ 256 := by decide
  cases operator with
  | add =>
      obtain ⟨hn, rfl⟩ : a + b < numericLimit ∧ a + b = n := by
        simpa [fold?, representable?] using h
      exact ⟨hn, congrArg some (BitVec.ofNat_add a b).symm⟩
  | sub =>
      obtain ⟨hle, rfl⟩ : b ≤ a ∧ a - b = n := by simpa [fold?] using h
      refine ⟨by omega, congrArg some ?_⟩
      exact BitVec.ofNat_sub_ofNat_of_le a b (by omega) hle
  | mul =>
      obtain ⟨hn, rfl⟩ : a * b < numericLimit ∧ a * b = n := by
        simpa [fold?, representable?] using h
      exact ⟨hn, congrArg some (BitVec.ofNat_mul a b).symm⟩
  | div =>
      obtain rfl : a / b = n := by simpa [fold?] using h
      exact ⟨Nat.lt_of_le_of_lt (Nat.div_le_self a b) ha, congrArg some (ofNat_div ha hb)⟩
  | mod =>
      obtain rfl : (if b = 0 then 0 else a % b) = n := by simpa [fold?] using h
      by_cases hzero : b = 0
      · subst hzero
        rw [if_pos rfl]
        exact ⟨by omega, rfl⟩
      · rw [if_neg hzero]
        refine ⟨Nat.lt_of_le_of_lt (Nat.mod_le a b) ha, congrArg some ?_⟩
        rw [if_neg (ofNat_ne_zero hb hzero)]
        exact ofNat_mod ha hb
  | eq =>
      obtain rfl : truthNumber (a == b) = n := by simpa [fold?] using h
      refine ⟨truthNumber_lt _, congrArg some ?_⟩
      rw [beq_ofNat ha hb, truthWord_eq]
  | lt =>
      obtain rfl : truthNumber (decide (a < b)) = n := by simpa [fold?] using h
      refine ⟨truthNumber_lt _, congrArg some ?_⟩
      rw [ult_ofNat ha hb, truthWord_eq]
  | gt =>
      obtain rfl : truthNumber (decide (b < a)) = n := by simpa [fold?] using h
      refine ⟨truthNumber_lt _, congrArg some ?_⟩
      rw [ult_ofNat hb ha, truthWord_eq]
  | and =>
      obtain rfl : a &&& b = n := by simpa [fold?] using h
      exact ⟨Nat.lt_of_le_of_lt Nat.and_le_left ha, congrArg some BitVec.ofNat_and.symm⟩
  | or =>
      obtain rfl : a ||| b = n := by simpa [fold?] using h
      have hbits : a ||| b < 2 ^ 128 := Nat.or_lt_two_pow ha hb
      exact ⟨hbits, congrArg some BitVec.ofNat_or.symm⟩
  | xor =>
      obtain rfl : a ^^^ b = n := by simpa [fold?] using h
      have hbits : a ^^^ b < 2 ^ 128 := Nat.xor_lt_two_pow ha hb
      exact ⟨hbits, congrArg some BitVec.ofNat_xor.symm⟩
  | _ => cases h

/-- Exact results on numbers are the results on their words. -/
theorem Instruction.arithmetic?_of_fold? {operator : Instruction} {numbers : List Nat} {n : Nat}
    (hnumbers : ∀ a ∈ numbers, a < numericLimit) (h : operator.fold? numbers = some n) :
    n < numericLimit ∧
      operator.arithmetic? (numbers.map (BitVec.ofNat 256)) = some (BitVec.ofNat 256 n) := by
  match numbers, hnumbers, h with
  | [], _, h => cases operator <;> cases h
  | [a], hnumbers, h =>
      have ha : a < numericLimit := hnumbers a (List.mem_singleton_self a)
      cases operator with
      | iszero =>
          obtain rfl : truthNumber (a == 0) = n := by simpa [fold?] using h
          refine ⟨truthNumber_lt _, congrArg some ?_⟩
          rw [← truthWord_eq, ← beq_ofNat ha (by decide)]
          rfl
      | _ => cases h
  | [a, b], hnumbers, h =>
      exact arithmetic?_pair_of_fold? (hnumbers a (by simp)) (hnumbers b (by simp)) h
  | _ :: _ :: _ :: _, _, h => cases operator <;> cases h

/-! ### Rules -/

theorem eq_ok_of_toOption {α : Type} {result : Except Error α} {a : α}
    (h : result.toOption = some a) : result = .ok a := by
  cases result with
  | error _ => cases h
  | ok _ =>
      cases h
      rfl

section Rules

variable {I : Interpretation dialect W} {env : Name → Word}

/-- Arguments that are all written as numbers have the words of these numbers. -/
theorem Interpretation.yieldsAll_of_toNat? {es : List Expr} {numbers : List Nat}
    (h : es.mapM Expr.toNat? = some numbers) :
    I.YieldsAll env es (numbers.map (BitVec.ofNat 256)) ∧ ∀ n ∈ numbers, n < numericLimit := by
  induction es generalizing numbers with
  | nil =>
      cases h
      exact ⟨yieldsAll_nil, by simp⟩
  | cons e es ih =>
      simp only [List.mapM_cons, bind, Option.bind_eq_some_iff, pure, Option.some.injEq] at h
      obtain ⟨n, hn, rest, hrest, rfl⟩ := h
      obtain ⟨hyields, hlimit⟩ := ih hrest
      refine ⟨(yields_of_toNat? hn).cons hyields, ?_⟩
      intro a ha
      rcases List.mem_cons.1 ha with rfl | ha
      · exact e.lt_of_toNat? hn
      · exact hlimit a ha

/-- The result of an instruction on an operand and itself. -/
theorem Instruction.arithmetic?_of_onItself? {operator : Instruction} {x e : Expr} {a : Word}
    (hx : I.Yields env x a) (h : operator.onItself? x = some e) :
    ∃ word, operator.arithmetic? [a, a] = some word ∧ I.Yields env e word := by
  have hzero : I.Yields env (.number 0) 0 := Interpretation.yields_number (by decide)
  have hone : I.Yields env (.number 1) 1 := Interpretation.yields_number (by decide)
  cases operator with
  | sub =>
      cases h
      exact ⟨0, congrArg some (BitVec.sub_self a), hzero⟩
  | xor =>
      cases h
      exact ⟨0, congrArg some BitVec.xor_self, hzero⟩
  | eq =>
      cases h
      exact ⟨1, congrArg some (by simp [truthWord]), hone⟩
  | lt | gt =>
      cases h
      exact ⟨0, congrArg some (by simp [truthWord, BitVec.ult]), hzero⟩
  | slt | sgt =>
      cases h
      exact ⟨0, congrArg some (by simp [truthWord, BitVec.slt]), hzero⟩
  | and =>
      cases h
      exact ⟨a, congrArg some BitVec.and_self, hx⟩
  | or =>
      cases h
      exact ⟨a, congrArg some BitVec.or_self, hx⟩
  | _ => cases h

/-- One operand of an instruction is neutral, and the other one is left. -/
theorem Instruction.neutral?_eq_some {operator : Instruction} {x y e : Expr}
    (h : operator.neutral? x y = some e) :
    (e = x ∧ ∃ n, y.toNat? = some n ∧
      ∀ a, operator.arithmetic? [a, BitVec.ofNat 256 n] = some a) ∨
    (e = y ∧ ∃ n, x.toNat? = some n ∧
      ∀ b, operator.arithmetic? [BitVec.ofNat 256 n, b] = some b) := by
  cases operator with
  | add | or | xor | mul =>
      simp only [neutral?] at h
      split at h
      next hy =>
        cases h
        exact .inl ⟨rfl, _, hy, fun a => by simp [arithmetic?, isArithmetic, value?]⟩
      next =>
        split at h
        next hx =>
          cases h
          exact .inr ⟨rfl, _, hx, fun b => by simp [arithmetic?, isArithmetic, value?]⟩
        next => cases h
  | sub | div =>
      simp only [neutral?] at h
      split at h
      next hy =>
        cases h
        exact .inl ⟨rfl, _, hy, fun a => by simp [arithmetic?, isArithmetic, value?]⟩
      next => cases h
  | _ => cases h

namespace Rule

theorem constantFolding_eq_some {operator : Instruction} {arguments : List Expr} {e : Expr}
    (h : constantFolding.apply dialect operator arguments = .ok (some e)) :
    ∃ numbers n, arguments.mapM Expr.toNat? = some numbers ∧ operator.fold? numbers = some n ∧
      e = .number n := by
  obtain ⟨n, hfold, rfl⟩ := Option.map_eq_some_iff.1 (Except.ok.inj h)
  obtain ⟨numbers, hnumbers, hfold⟩ := Option.bind_eq_some_iff.1 hfold
  exact ⟨numbers, n, hnumbers, hfold, rfl⟩

theorem selfOperand_eq_some {operator : Instruction} {arguments : List Expr} {e : Expr}
    (h : selfOperand.apply dialect operator arguments = .ok (some e)) :
    ∃ x y, arguments = [x, y] ∧ operator.onItself? x = some e ∧ x.sameSyntax y = true ∧
      dialect.isDiscardable x = true := by
  match arguments, h with
  | [x, y], h =>
      obtain ⟨hself, hsame⟩ := Option.filter_eq_some_iff.1 (Except.ok.inj h)
      obtain ⟨hsame, hdiscardable⟩ := Bool.and_eq_true_iff.1 hsame
      exact ⟨x, y, rfl, hself, hsame, hdiscardable⟩
  | [], h => cases h
  | [_], h => cases h
  | _ :: _ :: _ :: _, h => cases h

theorem neutralElement_eq_some {operator : Instruction} {arguments : List Expr} {e : Expr}
    (h : neutralElement.apply dialect operator arguments = .ok (some e)) :
    ∃ x y, arguments = [x, y] ∧ operator.neutral? x y = some e := by
  match arguments, h with
  | [x, y], h => exact ⟨x, y, rfl, Except.ok.inj h⟩
  | [], h => cases h
  | [_], h => cases h
  | _ :: _ :: _ :: _, h => cases h

/-- What a standard rule makes of an operation does the same. -/
theorem eval_apply_standard {rule : Rule} (h : rule ∈ RuleTable.standard) {e r : Expr}
    {operator : Instruction} {arguments : List Expr}
    (hoperation : dialect.operation? e = some (operator, arguments))
    (happly : rule.apply dialect operator arguments = .ok (some r)) :
    I.eval env r = I.eval env e := by
  obtain ⟨op, hroot, hspelt, rfl⟩ := Dialect.operation?_eq_some hoperation
  simp only [RuleTable.standard, List.mem_cons, List.not_mem_nil, or_false] at h
  rcases h with rfl | rfl | rfl
  · obtain ⟨numbers, n, hnumbers, hfold, rfl⟩ := constantFolding_eq_some happly
    obtain ⟨hwords, hlimit⟩ : I.YieldsAll env e.arguments (numbers.map (BitVec.ofNat 256)) ∧ _ :=
      Interpretation.yieldsAll_of_toNat? hnumbers
    obtain ⟨hn, hword⟩ := Instruction.arithmetic?_of_fold? hlimit hfold
    exact (Interpretation.yields_number hn).eval_eq (hwords.operation hroot hspelt hword)
  · obtain ⟨x, y, harguments, hself, hsame, hdiscardable⟩ := selfOperand_eq_some happly
    obtain ⟨a, hx⟩ : ∃ a, I.Yields env x a := Interpretation.yields_of_isDiscardable hdiscardable
    have hy : I.Yields env y a := fun m => by
      rw [← Interpretation.eval_eq_of_sameSyntax hsame, hx m]
    obtain ⟨word, hword, hr⟩ := Instruction.arithmetic?_of_onItself? hx hself
    have hwords : I.YieldsAll env e.arguments [a, a] := by
      rw [harguments]
      exact hx.cons (hy.cons Interpretation.yieldsAll_nil)
    exact hr.eval_eq (hwords.operation hroot hspelt hword)
  · obtain ⟨x, y, harguments, hneutral⟩ := neutralElement_eq_some happly
    rcases Instruction.neutral?_eq_some hneutral with
      ⟨rfl, n, hn, hneutral⟩ | ⟨rfl, n, hn, hneutral⟩
    · have hy : I.Yields env y (BitVec.ofNat 256 n) := Interpretation.yields_of_toNat? hn
      exact (hy.neutral_right hroot hspelt harguments hneutral).symm
    · have hx : I.Yields env x (BitVec.ofNat 256 n) := Interpretation.yields_of_toNat? hn
      exact (hx.neutral_left hroot hspelt harguments hneutral).symm

end Rule

end Rules

/-! ### Simplification -/

namespace Simplifier

variable {s : Simplifier} {I : Interpretation s.dialect W} {env : Name → Word}

/-- The literals and the variables that variables are known to equal are their words. Other known
values need not be. -/
structure LeavesHold (s : Simplifier) (literals : LiteralWords) (env : Name → Word) : Prop where
  literal : ∀ {x value}, s.known[x]? = some (.literal value) →
    env x = literals.word value.kind value.text
  identifier : ∀ {x y}, s.known[x]? = some (.identifier y) → env x = env y.name

/-- What an expression is rewritten to is made by a rule of the table. -/
theorem firstRewrite_eq_some {e r : Expr} (h : s.firstRewrite e = .ok (some r)) :
    ∃ operator arguments, s.dialect.operation? e = some (operator, arguments) ∧
      ∃ rule ∈ s.rules, rule.apply s.dialect operator arguments = .ok (some r) := by
  unfold firstRewrite at h
  split at h
  · cases h
  next operator arguments hoperation =>
    cases hmatch : s.rules.firstMatch s.dialect operator arguments with
    | error _ =>
        rw [hmatch] at h
        cases h
    | ok found =>
        rw [hmatch] at h
        obtain ⟨⟨name, r⟩, rfl, rfl⟩ := Option.map_eq_some_iff.1 (Except.ok.inj h)
        exact ⟨operator, arguments, hoperation, RuleTable.apply_of_firstMatch hmatch⟩

theorem eval_firstRewrite (hrules : ∀ rule ∈ s.rules, rule ∈ RuleTable.standard) {e r : Expr}
    (h : s.firstRewrite e = .ok (some r)) : I.eval env r = I.eval env e := by
  obtain ⟨operator, arguments, hoperation, rule, hrule, happly⟩ := firstRewrite_eq_some h
  exact Rule.eval_apply_standard (hrules rule hrule) hoperation happly

/-- Rewriting one argument after another keeps what they do, if each step does. -/
theorem evalAll_mapM {next : Expr → Rewriting Expr}
    (hnext : ∀ {e r count count'}, outcome (next e) count = (.ok r, count') →
      I.eval env r = I.eval env e) {es rs : List Expr} {count count' : Nat}
    (h : outcome (es.mapM next) count = (.ok rs, count')) :
    I.evalAll env rs = I.evalAll env es := by
  induction es generalizing rs count with
  | nil =>
      cases h
      rfl
  | cons e es ih =>
      rw [List.mapM_cons] at h
      obtain ⟨r, _, hr, h⟩ := outcome_bind_eq_ok h
      obtain ⟨rest, _, hrest, h⟩ := outcome_bind_eq_ok h
      cases h
      exact Interpretation.evalAll_cons_congr (hnext hr) (ih hrest)

/-- What a bounded simplification makes of an expression does the same. -/
theorem eval_rewriteWithin (hrules : ∀ rule ∈ s.rules, rule ∈ RuleTable.standard)
    (hknown : s.LeavesHold I.toLiteralWords env) (steps : Nat) {e r : Expr} {count count' : Nat}
    (h : outcome (s.rewriteWithin steps e) count = (.ok r, count')) :
    I.eval env r = I.eval env e := by
  induction steps generalizing e r count count' with
  | zero =>
      have h : r = e := by cases e <;> cases h <;> rfl
      rw [h]
  | succ steps ih =>
      cases hroot : e.root? with
      | none =>
          cases e with
          | literal value =>
              cases h
              rfl
          | identifier x =>
              unfold rewriteWithin at h
              split at h
              next value hvalue =>
                cases h
                funext m
                rw [Interpretation.eval, Interpretation.eval, hknown.literal hvalue]
              next y hvalue =>
                rw [ih h]
                funext m
                rw [Interpretation.eval, Interpretation.eval, hknown.identifier hvalue]
              next =>
                cases h
                rfl
          | call _ _ _ => cases hroot
          | instruction _ _ _ => cases hroot
      | some op =>
          rw [rewriteWithin_operation hroot] at h
          obtain ⟨arguments, count'', harguments, h⟩ := outcome_bind_eq_ok h
          have hinner : I.eval env (e.withArguments arguments) = I.eval env e :=
            Interpretation.eval_withArguments (evalAll_mapM ih harguments)
          rw [outcome, run_rewriteOnce] at h
          -- at the limit, and where no rule matches, the operation is left as it is
          split at h
          · cases h
            exact hinner
          · split at h
            · cases h
            · cases h
              exact hinner
            next result hfirst => rw [ih h, eval_firstRewrite hrules hfirst, hinner]

/-- Standard rules never fail, so simplification has a result. -/
theorem rewriteWithin_ok (hrules : ∀ rule ∈ s.rules, rule ∈ RuleTable.standard) (steps : Nat)
    (e : Expr) (count : Nat) :
    ∃ r count', outcome (s.rewriteWithin steps e) count = (.ok r, count') := by
  rcases h : outcome (s.rewriteWithin steps e) count with ⟨error | r, count'⟩
  · have hraises := rewriteWithin_error steps e count error (congrArg Prod.fst h)
    exact absurd hraises (RuleTable.not_raises_of_standard hrules)
  · exact ⟨r, count', rfl⟩

theorem simplify_ok (hrules : ∀ rule ∈ s.rules, rule ∈ RuleTable.standard) (e : Expr) :
    ∃ r, s.simplify e = .ok r := by
  obtain ⟨r, count', h⟩ := rewriteWithin_ok hrules (s.limits.depth + 1) e 0
  exact ⟨r, congrArg Prod.fst h⟩

theorem eval_simplify (hrules : ∀ rule ∈ s.rules, rule ∈ RuleTable.standard)
    (hknown : s.LeavesHold I.toLiteralWords env) {e r : Expr} (h : s.simplify e = .ok r) :
    I.eval env r = I.eval env e :=
  eval_rewriteWithin hrules hknown _ (Prod.ext h rfl)

/-- Simplification preserves meaning, effects included. With any table of standard rules, any limits
and any known values, cyclic ones included, an expression is simplified to one that has the same
word and leaves the same machine, from each machine and in each environment in which the known
literals and variables hold. -/
theorem simplify_preserves_meaning {s : Simplifier}
    (hrules : ∀ rule ∈ s.rules, rule ∈ RuleTable.standard) (e : Expr) :
    ∃ r, s.simplify e = .ok r ∧
      ∀ (W : Type) (I : Interpretation s.dialect W) (env : Name → Word),
        s.LeavesHold I.toLiteralWords env → ∀ m, I.eval env r m = I.eval env e m := by
  obtain ⟨r, hr⟩ := simplify_ok hrules e
  exact ⟨r, hr, fun W I env hknown m => congrFun (eval_simplify hrules hknown hr) m⟩

/-- A simplifier that knows two numbers, a copy of a variable, and two copies of each other. -/
def knowsCopies : Simplifier where
  dialect := BuiltinTable.evm.toDialect
  rules := .standard
  limits := {}
  known := (((((∅ : NameMap Expr).insert "one" (.number 1)).insert "two"
    (.literal ⟨.number, "0x02", .synthetic⟩)).insert "copy" (.ofName "x")).insert "p"
      (.ofName "q")).insert "q" (.ofName "p")

theorem getElem?_insert_eq_some {known : NameMap Expr} {name x : Name} {value e : Expr}
    (h : (known.insert name value)[x]? = some e) : (x = name ∧ e = value) ∨ known[x]? = some e := by
  rw [Std.ExtTreeMap.getElem?_insert] at h
  split at h
  next hname =>
    cases h
    exact .inl ⟨(Std.LawfulEqCmp.compare_eq_iff_eq.1 hname).symm, rfl⟩
  next => exact .inr h

theorem known_knowsCopies {x : Name} {e : Expr} (h : knowsCopies.known[x]? = some e) :
    (x = "q" ∧ e = .ofName "p") ∨ (x = "p" ∧ e = .ofName "q") ∨ (x = "copy" ∧ e = .ofName "x") ∨
      (x = "two" ∧ e = .literal ⟨.number, "0x02", .synthetic⟩) ∨ (x = "one" ∧ e = .number 1) := by
  refine (getElem?_insert_eq_some h).imp_right fun h => ?_
  refine (getElem?_insert_eq_some h).imp_right fun h => ?_
  refine (getElem?_insert_eq_some h).imp_right fun h => ?_
  refine (getElem?_insert_eq_some h).imp_right fun h => ?_
  refine (getElem?_insert_eq_some h).resolve_right fun h => ?_
  simp at h

/-- An environment in which the known numbers and copies hold. -/
def oneTwoThrees (x : Name) : Word :=
  if x = "one" then 1 else if x = "two" then 2 else 3

theorem leavesHold_knowsCopies : knowsCopies.LeavesHold .numeric oneTwoThrees := by
  constructor
  · intro x value hvalue
    rcases known_knowsCopies hvalue with ⟨_, he⟩ | ⟨_, he⟩ | ⟨_, he⟩ | ⟨rfl, he⟩ | ⟨rfl, he⟩
    · cases he
    · cases he
    · cases he
    · cases he
      decide +kernel
    · cases he
      decide +kernel
  · intro x y hvalue
    rcases known_knowsCopies hvalue with ⟨rfl, he⟩ | ⟨rfl, he⟩ | ⟨rfl, he⟩ | ⟨_, he⟩ | ⟨_, he⟩
    · cases he
      decide
    · cases he
      decide
    · cases he
      decide
    · cases he
    · cases he

/-- A call, with nothing added to its result. -/
def callPlusNothing : Expr :=
  .native .add [.callOf "f" [.ofName "copy"],
    .callOf "mul" [.native .sub [.ofName "p", .ofName "p"], .ofName "two"]]

/-- Every operation without a fixed meaning gives the next number. -/
def nextNumber : Interpretation knowsCopies.dialect Nat :=
  .ofEffect _ .numeric true fun _ _ m => .done (BitVec.ofNat 256 m.world) ⟨m.storage, m.world + 1⟩

/-- The call is made once, as before. -/
theorem simplify_preserves_meaning_call :
    knowsCopies.simplify callPlusNothing = .ok (.callOf "f" [.ofName "x"]) ∧
      nextNumber.eval oneTwoThrees (.callOf "f" [.ofName "x"]) ⟨fun _ => 0, 7⟩ =
        nextNumber.eval oneTwoThrees callPlusNothing ⟨fun _ => 0, 7⟩ := by
  have hsimplify : knowsCopies.simplify callPlusNothing = .ok (.callOf "f" [.ofName "x"]) :=
    eq_ok_of_toOption (by decide +kernel)
  obtain ⟨r, hr, hmeaning⟩ := simplify_preserves_meaning (s := knowsCopies) (fun _ h => h)
    callPlusNothing
  obtain rfl := Except.ok.inj (hr.symm.trans hsimplify)
  exact ⟨hsimplify, hmeaning Nat nextNumber oneTwoThrees leavesHold_knowsCopies _⟩

end Simplifier

end StorageFlow
