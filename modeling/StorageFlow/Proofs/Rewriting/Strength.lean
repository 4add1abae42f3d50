import StorageFlow.Proofs.Rewriting.Comparison
import StorageFlow.Proofs.Rewriting.Cost
import StorageFlow.Proofs.Syntax.Erasure
import StorageFlow.Proofs.Syntax.Literal

/-!
# StorageFlow.Proofs.Rewriting.Strength

What the proofs about two variables find out.

* `Simplifier.difference?`, `equality?` — what the difference and the equality of two leaves are
  simplified to (`Simplifier.comparison?_sub`, `Simplifier.comparison?_eq`).
* `DifferentNumbers`, `Agree` — two leaves that show that their words are different, or the same.
* `Simplifier.provablyDifferent_iff`, `Simplifier.provablyEqual_iff` — the proofs compare the leaves
  that are reached within the limit of steps. In one case they see more: a difference drops a zero
  on its right, and the chain of what is left is followed once more (`Simplifier.SeesBeyond`).
* `Simplifier.proofs_compare_ends` — if the limit of steps cuts no chain, just the ends of the
  chains are compared.
* `Simplifier.proofs_symmetric_iff` — the order of the variables matters only in that one case.
-/

namespace StorageFlow

/-! ### Leaves -/

/-- The leaves stand for two different numbers. -/
def DifferentNumbers (x y : Expr) : Prop :=
  ∃ m n, x.toNat? = some m ∧ y.toNat? = some n ∧ m ≠ n

/-- The leaves are the same variable, or literals that are written alike or stand for the same
number. -/
inductive Agree : Expr → Expr → Prop
  | names {x y : Identifier} (hname : x.name = y.name) : Agree (.identifier x) (.identifier y)
  | texts {v w : Literal} (hkind : v.kind = w.kind) (htext : v.text = w.text) :
      Agree (.literal v) (.literal w)
  | numbers {v w : Literal} {n : Nat} (hv : v.toNat? = some n) (hw : w.toNat? = some n) :
      Agree (.literal v) (.literal w)

theorem DifferentNumbers.symm {x y : Expr} (h : DifferentNumbers x y) : DifferentNumbers y x := by
  obtain ⟨m, n, hx, hy, hne⟩ := h
  exact ⟨n, m, hy, hx, hne.symm⟩

theorem differentNumbers_comm {x y : Expr} : DifferentNumbers x y ↔ DifferentNumbers y x :=
  ⟨.symm, .symm⟩

theorem Agree.symm {x y : Expr} (h : Agree x y) : Agree y x := by
  cases h with
  | names hname => exact .names hname.symm
  | texts hkind htext => exact .texts hkind.symm htext.symm
  | numbers hv hw => exact .numbers hw hv

theorem Agree.toNat?_eq {x y : Expr} (h : Agree x y) : x.toNat? = y.toNat? := by
  cases h with
  | names hname => rfl
  | @texts v w hkind htext =>
      show v.toNat? = w.toNat?
      rw [Literal.toNat?, Literal.toNat?, hkind, htext]
  | numbers hv hw => exact hv.trans hw.symm

theorem DifferentNumbers.not_agree {x y : Expr} (h : DifferentNumbers x y) : ¬ Agree x y := by
  obtain ⟨m, n, hx, hy, hne⟩ := h
  intro hagree
  exact hne (Option.some.inj (hx.symm.trans (hagree.toNat?_eq.trans hy)))

theorem agree_comm {x y : Expr} : Agree x y ↔ Agree y x :=
  ⟨.symm, .symm⟩

theorem Expr.toNat?_eq_of_sameSyntax {x y : Expr} (h : x.sameSyntax y = true) :
    x.toNat? = y.toNat? := by
  rw [← toNat?_withoutSpans, (sameSyntax_iff x y).1 h, toNat?_withoutSpans]

theorem Expr.sameSyntax_eq_false {x y : Expr} (h : x.toNat? ≠ y.toNat?) : x.sameSyntax y = false :=
  Bool.eq_false_iff.2 fun hsame => h (toNat?_eq_of_sameSyntax hsame)

theorem agree_iff {x y : Expr} (hx : x.root? = none) (hy : y.root? = none) :
    Agree x y ↔ x.sameSyntax y = true ∨ ∃ n, x.toNat? = some n ∧ y.toNat? = some n := by
  constructor
  · rintro (hname | ⟨hkind, htext⟩ | ⟨hv, hw⟩)
    · exact .inl (decide_eq_true hname)
    · exact .inl (Bool.and_eq_true_iff.2 ⟨decide_eq_true hkind, decide_eq_true htext⟩)
    · exact .inr ⟨_, hv, hw⟩
  · intro h
    cases x with
    | literal v =>
        cases y with
        | literal w =>
            rcases h with hsame | ⟨n, hv, hw⟩
            · obtain ⟨hkind, htext⟩ := Bool.and_eq_true_iff.1 hsame
              exact .texts (of_decide_eq_true hkind) (of_decide_eq_true htext)
            · exact .numbers hv hw
        | identifier _ => rcases h with hsame | ⟨n, _, hw⟩ <;> contradiction
        | call _ _ _ => cases hy
        | instruction _ _ _ => cases hy
    | identifier a =>
        cases y with
        | identifier b =>
            rcases h with hsame | ⟨n, hv, _⟩
            · exact .names (of_decide_eq_true hsame)
            · cases hv
        | literal _ => rcases h with hsame | ⟨n, hv, _⟩ <;> contradiction
        | call _ _ _ => cases hy
        | instruction _ _ _ => cases hy
    | call _ _ _ => cases hx
    | instruction _ _ _ => cases hx

theorem Dialect.isDiscardable_leaf (dialect : Dialect) {e : Expr} (h : e.root? = none) :
    dialect.isDiscardable e = true := by
  rw [Interpretation.isDiscardable_iff, Expr.operations_of_leaf h]
  simp [Interpretation.Discardable]

namespace Simplifier

variable {s : Simplifier}

/-! ### Comparisons -/

theorem mem_of_rules_eq {rules : RuleTable} (h : s.rules = rules) :
    ∀ rule ∈ s.rules, rule ∈ rules :=
  fun _ hrule => h ▸ hrule

/-- What the standard rules make of an instruction on two leaves. -/
theorem firstRewrite_leaves (hrules : s.rules = .standard) (operator : Instruction)
    (harity : operator.arity = 2) {x : Expr} (hx : x.root? = none) (y : Expr) :
    s.firstRewrite (.native operator [x, y]) = .ok
      (((([x, y].mapM Expr.toNat?).bind operator.fold?).map Expr.number).or
        (((operator.onItself? x).filter fun _ => x.sameSyntax y).or (operator.neutral? x y))) := by
  have hoperation : s.dialect.operation? (.native operator [x, y]) = some (operator, [x, y]) :=
    if_pos harity.symm
  rw [firstRewrite, hoperation, hrules]
  simp only [RuleTable.standard, RuleTable.firstMatch, Rule.constantFolding, Rule.selfOperand,
    Rule.neutralElement, s.dialect.isDiscardable_leaf hx, Bool.and_true]
  cases (([x, y].mapM Expr.toNat?).bind operator.fold?).map Expr.number with
  | some r => rfl
  | none =>
      cases (operator.onItself? x).filter fun _ => x.sameSyntax y with
      | some r => rfl
      | none => cases operator.neutral? x y <;> rfl

/-- The leaf that a variable is followed to within the limit of steps. -/
def leafOf (s : Simplifier) (x : Name) : Expr :=
  s.follow s.limits.depth (.ofName x)

theorem root?_leafOf (s : Simplifier) (x : Name) : (s.leafOf x).root? = none :=
  root?_follow rfl

/-- A comparison of two variables is one of their leaves. -/
theorem comparison?_eq_outcome (operator : Instruction) (a b : Name) :
    s.comparison? operator a b =
      (outcome (s.rewriteOnce (s.rewriteWithin s.limits.depth)
        (.native operator [s.leafOf a, s.leafOf b])) 0).1.map Expr.toNat? := by
  have hleaf (x : Name) :
      s.rewriteWithin s.limits.depth (.ofName x) = pure (s.leafOf x) := rewriteWithin_leaf rfl _
  have harguments : outcome ([.ofName a, .ofName b].mapM (s.rewriteWithin s.limits.depth)) 0 =
      (.ok [s.leafOf a, s.leafOf b], 0) := by
    rw [List.mapM_cons, List.mapM_cons, hleaf, hleaf]
    rfl
  rw [comparison?, simplify, rewrite, rewriteWithin_operation rfl]
  exact congrArg (·.1.map Expr.toNat?) (outcome_bind_ok harguments)

/-- Without any rewrites nothing is found out. -/
theorem comparison?_of_no_rewrites (h : s.limits.rewrites = 0) (operator : Instruction)
    (a b : Name) : s.comparison? operator a b = .ok none := by
  rw [comparison?_eq_outcome, outcome, run_rewriteOnce, if_pos (Nat.le_of_eq h)]
  rfl

/-- What a rule makes of the leaves is a leaf again, and followed once more. -/
theorem comparison?_of_firstRewrite (hrules : s.rules = .standard) (hlimit : 1 ≤ s.limits.rewrites)
    {operator : Instruction} {a b : Name} {r? : Option Expr}
    (h : s.firstRewrite (.native operator [s.leafOf a, s.leafOf b]) = .ok r?) :
    s.comparison? operator a b =
      .ok (r?.bind fun r => (s.follow s.limits.depth r).toNat?) := by
  rw [comparison?_eq_outcome, outcome_rewriteOnce_of_lt hlimit, h]
  cases r? with
  | none => rfl
  | some r =>
      have hr : r.root? = none := by
        rcases firstRewrite_standard (mem_of_rules_eq hrules) h with ⟨n, rfl⟩ | hmem
        · rfl
        · rcases List.mem_pair.1 hmem with rfl | rfl <;> exact s.root?_leafOf _
      simp only [rewriteWithin_leaf hr]
      rfl

/-- The number that a difference of two leaves is simplified to. A zero on the right is dropped, and
the left leaf is followed on. -/
def difference? (s : Simplifier) (x y : Expr) : Option Nat :=
  match x.toNat?, y.toNat? with
  | some m, some n => if n ≤ m then some (m - n) else none
  | none, some 0 => (s.follow s.limits.depth x).toNat?
  | none, none => if x.sameSyntax y then some 0 else none
  | _, _ => none

/-- The number that an equality of two leaves is simplified to. -/
def equality? (x y : Expr) : Option Nat :=
  match x.toNat?, y.toNat? with
  | some m, some n => some (truthNumber (m == n))
  | none, none => if x.sameSyntax y then some 1 else none
  | _, _ => none

theorem toNat?_follow_number {n : Nat} (h : n < numericLimit) (steps : Nat) :
    (s.follow steps (.number n)).toNat? = some n := by
  rw [Expr.number, follow_literal]
  exact Literal.toNat?_number h

section Standard

variable (hrules : s.rules = .standard) (hlimit : 1 ≤ s.limits.rewrites) (a b : Name)
include hrules hlimit

theorem comparison?_sub :
    s.comparison? .sub a b = .ok (s.difference? (s.leafOf a) (s.leafOf b)) := by
  have hfirst := firstRewrite_leaves hrules .sub rfl (s.root?_leafOf a) (s.leafOf b)
  rw [comparison?_of_firstRewrite hrules hlimit hfirst]
  generalize s.leafOf a = x
  generalize s.leafOf b = y
  have hzero : (s.follow s.limits.depth (.number 0)).toNat? = some 0 :=
    toNat?_follow_number (by decide) _
  unfold difference?
  rcases hx : x.toNat? with _ | m <;> rcases hy : y.toNat? with _ | n
  case none.none =>
    cases hsame : x.sameSyntax y with
    | true => simp [Instruction.onItself?, Option.filter, hx, hzero]
    | false => simp [Instruction.onItself?, Instruction.neutral?, hx, hy]
  case some.some =>
    by_cases hle : n ≤ m
    · have hlt : m - n < numericLimit := Nat.lt_of_le_of_lt (Nat.sub_le m n) (x.lt_of_toNat? hx)
      simp [Instruction.fold?, hx, hy, hle, toNat?_follow_number hlt]
    · -- the exact difference is no number, and no other rule matches
      have hne : m ≠ n := by omega
      have hn : n ≠ 0 := by omega
      simp [Instruction.fold?, Instruction.onItself?, Instruction.neutral?, hx, hy, hle, hne, hn,
        Expr.sameSyntax_eq_false]
  case none.some =>
    cases n <;>
      simp [Instruction.onItself?, Instruction.neutral?, hx, hy, Expr.sameSyntax_eq_false]
  case some.none =>
    simp [Instruction.onItself?, Instruction.neutral?, hx, hy, Expr.sameSyntax_eq_false]

theorem comparison?_eq :
    s.comparison? .eq a b = .ok (equality? (s.leafOf a) (s.leafOf b)) := by
  have hfirst := firstRewrite_leaves hrules .eq rfl (s.root?_leafOf a) (s.leafOf b)
  rw [comparison?_of_firstRewrite hrules hlimit hfirst]
  generalize s.leafOf a = x
  generalize s.leafOf b = y
  have hone : (s.follow s.limits.depth (.number 1)).toNat? = some 1 :=
    toNat?_follow_number (by decide) _
  unfold equality?
  rcases hx : x.toNat? with _ | m <;> rcases hy : y.toNat? with _ | n
  case none.none =>
    cases hsame : x.sameSyntax y with
    | true => simp [Instruction.onItself?, Option.filter, hx, hone]
    | false => simp [Instruction.onItself?, Instruction.neutral?, hx]
  case some.some =>
    simp [Instruction.fold?, hx, hy, toNat?_follow_number (truthNumber_lt _)]
  case none.some =>
    simp [Instruction.onItself?, Instruction.neutral?, hx, hy, Expr.sameSyntax_eq_false]
  case some.none =>
    simp [Instruction.onItself?, Instruction.neutral?, hx, hy, Expr.sameSyntax_eq_false]

end Standard

/-! ### What the proofs find out -/

/-- The right leaf is zero, and the left one leads to the number if it is followed on, beyond the
limit of steps. -/
@[mk_iff]
structure SeesBeyond (s : Simplifier) (x y : Expr) (n : Nat) : Prop where
  cut : x.toNat? = none
  /-- A difference drops the right leaf, as it is zero. -/
  dropped : y.toNat? = some 0
  /-- What is left of the difference is followed once more. -/
  beyond : (s.follow s.limits.depth x).toNat? = some n

theorem SeesBeyond.not_symm {x y : Expr} {m n : Nat} (h : s.SeesBeyond x y m) :
    ¬ s.SeesBeyond y x n := by
  intro h'
  cases h.cut.symm.trans h'.dropped

theorem SeesBeyond.not_differentNumbers {x y : Expr} {n : Nat} (h : s.SeesBeyond x y n) :
    ¬ DifferentNumbers x y := by
  rintro ⟨_, _, hx, _⟩
  cases h.cut.symm.trans hx

theorem SeesBeyond.not_agree {x y : Expr} {n : Nat} (h : s.SeesBeyond x y n) : ¬ Agree x y := by
  intro hagree
  cases h.cut.symm.trans (hagree.toNat?_eq.trans h.dropped)

/-- When the numbers of the two comparisons prove a difference. -/
theorem found_different_iff {x y : Expr} :
    ((s.difference? x y).any (· != 0) || equality? x y == some 0) = true ↔
      DifferentNumbers x y ∨ ∃ n, n ≠ 0 ∧ s.SeesBeyond x y n := by
  unfold difference? equality?
  rcases hx : x.toNat? with _ | m <;> rcases hy : y.toNat? with _ | n
  case none.none => cases hsame : x.sameSyntax y <;> simp [DifferentNumbers, seesBeyond_iff, hx, hy]
  case none.some =>
    cases n <;> simp [DifferentNumbers, seesBeyond_iff, hx, hy, Option.any_eq_true, and_comm]
  case some.none => simp [DifferentNumbers, seesBeyond_iff, hx, hy]
  case some.some =>
    by_cases hmn : m = n <;> simp [DifferentNumbers, seesBeyond_iff, hx, hy, hmn, truthNumber]

/-- When the numbers of the two comparisons prove an equality. -/
theorem found_equal_iff {x y : Expr} (hleafx : x.root? = none) (hleafy : y.root? = none) :
    (s.difference? x y == some 0 || (equality? x y).any (· != 0)) = true ↔
      Agree x y ∨ s.SeesBeyond x y 0 := by
  rw [agree_iff hleafx hleafy]
  unfold difference? equality?
  rcases hx : x.toNat? with _ | m <;> rcases hy : y.toNat? with _ | n
  case none.none => cases hsame : x.sameSyntax y <;> simp [seesBeyond_iff, hx, hy]
  case none.some => cases n <;> simp [seesBeyond_iff, hx, hy, Expr.sameSyntax_eq_false]
  case some.none => simp [seesBeyond_iff, hx, hy, Expr.sameSyntax_eq_false]
  case some.some =>
    by_cases hmn : m = n
    · simp [seesBeyond_iff, hx, hy, hmn, truthNumber]
    · have hdifference : ¬ (n ≤ m ∧ m - n = 0) := by omega
      simpa [seesBeyond_iff, hx, hy, hmn, eq_comm (a := n), truthNumber,
        Expr.sameSyntax_eq_false] using hdifference

/-- Variables are proved different if and only if the limit lets a rule be applied, and their leaves
are different numbers, or the difference is seen beyond them. -/
theorem provablyDifferent_iff (hrules : s.rules = .standard) (a b : Name) :
    s.provablyDifferent a b = .ok true ↔
      a ≠ b ∧ 1 ≤ s.limits.rewrites ∧
        (DifferentNumbers (s.leafOf a) (s.leafOf b) ∨
          ∃ n, n ≠ 0 ∧ s.SeesBeyond (s.leafOf a) (s.leafOf b) n) := by
  rcases Nat.eq_zero_or_pos s.limits.rewrites with hzero | (hlimit : 1 ≤ s.limits.rewrites)
  · have hnone (operator : Instruction) := comparison?_of_no_rewrites hzero operator a b
    rw [provablyDifferent_eq (hnone .sub) (hnone .eq)]
    simp [hzero]
  · rw [provablyDifferent_eq (comparison?_sub hrules hlimit a b) (comparison?_eq hrules hlimit a b),
      Except.ok.injEq, Bool.and_eq_true, bne_iff_ne, found_different_iff]
    simp only [hlimit, true_and]

/-- Variables are proved equal if and only if they are one, or the limit lets a rule be applied, and
their leaves agree, or the equality is seen beyond them. -/
theorem provablyEqual_iff (hrules : s.rules = .standard) (a b : Name) :
    s.provablyEqual a b = .ok true ↔
      a = b ∨ 1 ≤ s.limits.rewrites ∧
        (Agree (s.leafOf a) (s.leafOf b) ∨ s.SeesBeyond (s.leafOf a) (s.leafOf b) 0) := by
  rcases Nat.eq_zero_or_pos s.limits.rewrites with hzero | (hlimit : 1 ≤ s.limits.rewrites)
  · have hnone (operator : Instruction) := comparison?_of_no_rewrites hzero operator a b
    rw [provablyEqual_eq (hnone .sub) (hnone .eq)]
    simp [hzero]
  · rw [provablyEqual_eq (comparison?_sub hrules hlimit a b) (comparison?_eq hrules hlimit a b),
      Except.ok.injEq, Bool.or_eq_true, beq_iff_eq,
      found_equal_iff (s.root?_leafOf a) (s.root?_leafOf b)]
    simp only [hlimit, true_and]

/-! ### The ends of the chains -/

theorem Chain.leafOf_eq {n : Nat} {x : Name} {r : Expr} (h : s.Chain n (.ofName x) r)
    (hn : n ≤ s.limits.depth) : s.leafOf x = r :=
  follow_of_chain h hn

/-- Beyond the end of a chain there is nothing to see. -/
theorem Chain.not_seesBeyond {n k : Nat} {e r y : Expr} (h : s.Chain n e r) :
    ¬ s.SeesBeyond r y k := by
  intro hsees
  have hend : s.follow s.limits.depth r = r := follow_of_chain h.end_chain (Nat.zero_le _)
  cases hsees.cut.symm.trans (hend ▸ hsees.beyond)

/-- The proofs compare the ends of chains, neither more nor less. With the standard rules, any
limit of rewrites but zero, and any known values with which the chains of two variables end within
the limit of steps: the variables are proved equal if and only if they are one variable or the ends
of their chains agree, and they are proved different if and only if they are two variables and the
ends are different numbers. -/
theorem proofs_compare_ends {s : Simplifier} (hrules : s.rules = .standard)
    (hlimit : 1 ≤ s.limits.rewrites) {a b : Name} {na nb : Nat} {ra rb : Expr}
    (ha : s.Chain na (.ofName a) ra) (hna : na ≤ s.limits.depth)
    (hb : s.Chain nb (.ofName b) rb) (hnb : nb ≤ s.limits.depth) :
    (∃ answer, s.provablyEqual a b = .ok answer ∧ (answer = true ↔ a = b ∨ Agree ra rb)) ∧
    ∃ answer, s.provablyDifferent a b = .ok answer ∧
      (answer = true ↔ a ≠ b ∧ DifferentNumbers ra rb) := by
  have hstandard := mem_of_rules_eq hrules
  obtain ⟨equal, hequal⟩ := provablyEqual_ok hstandard a b
  obtain ⟨different, hdifferent⟩ := provablyDifferent_ok hstandard a b
  have hequal_iff := provablyEqual_iff hrules a b
  have hdifferent_iff := provablyDifferent_iff hrules a b
  rw [hequal, Except.ok.injEq, ha.leafOf_eq hna, hb.leafOf_eq hnb] at hequal_iff
  rw [hdifferent, Except.ok.injEq, ha.leafOf_eq hna, hb.leafOf_eq hnb] at hdifferent_iff
  refine ⟨⟨equal, hequal, ?_⟩, different, hdifferent, ?_⟩
  · simpa [hlimit, ha.not_seesBeyond] using hequal_iff
  · simpa [hlimit, ha.not_seesBeyond] using hdifferent_iff

/-- One, and two in hexadecimal digits. -/
theorem proofs_compare_ends_numbers :
    1 ≤ knowsCopies.limits.rewrites ∧ knowsCopies.Chain 1 (.ofName "one") (.number 1) ∧
    knowsCopies.Chain 1 (.ofName "two") (.literal ⟨.number, "0x02", .synthetic⟩) ∧
    1 ≤ knowsCopies.limits.depth ∧ knowsCopies.provablyEqual "one" "two" = .ok false ∧
    knowsCopies.provablyDifferent "one" "two" = .ok true := by
  have hlimit : 1 ≤ knowsCopies.limits.rewrites := by decide
  have hdepth : 1 ≤ knowsCopies.limits.depth := by decide
  have hone : knowsCopies.Chain 1 (.ofName "one") (.number 1) := .step rfl (.literal _)
  have htwo : knowsCopies.Chain 1 (.ofName "two") (.literal ⟨.number, "0x02", .synthetic⟩) :=
    .step rfl (.literal _)
  have hnumbers : DifferentNumbers (.number 1) (.literal ⟨.number, "0x02", .synthetic⟩) :=
    ⟨1, 2, by decide +kernel, by decide +kernel, by decide⟩
  obtain ⟨⟨equal, hequal, hequal_iff⟩, different, hdifferent, hdifferent_iff⟩ :=
    proofs_compare_ends rfl hlimit hone hdepth htwo hdepth
  obtain rfl : different = true := hdifferent_iff.2 ⟨by decide, hnumbers⟩
  obtain rfl : equal = false := by
    rw [← Bool.not_eq_true, hequal_iff]
    rintro (hname | hagree)
    · exact absurd hname (by decide)
    · exact hnumbers.not_agree hagree
  exact ⟨hlimit, hone, htwo, hdepth, hequal, hdifferent⟩

/-! ### The order of the variables -/

theorem eq_iff_of_ok {first second : Except Error Bool} (hfirst : ∃ answer, first = .ok answer)
    (hsecond : ∃ answer, second = .ok answer) :
    first = second ↔ (first = .ok true ↔ second = .ok true) := by
  obtain ⟨p, rfl⟩ := hfirst
  obtain ⟨q, rfl⟩ := hsecond
  rw [Except.ok.injEq, Except.ok.injEq, Except.ok.injEq, Bool.eq_iff_iff]

/-- What is seen in one order only is all that the orders differ in. -/
theorem or_iff_or_iff {same seen seen' : Prop} (h : seen → ¬ same) (h' : seen' → ¬ same)
    (hexclusive : seen → ¬ seen') : (same ∨ seen ↔ same ∨ seen') ↔ ¬ (seen ∨ seen') := by
  tauto

/-- The order of two variables matters only where more is seen than their leaves. With the standard
rules, any limits and any known values, cyclic ones included: the variables are proved different in
both orders or in none, unless a rule may be applied and a number other than zero is seen beyond the
leaf of one of them, the other being zero; then they are not. They are proved equal in both orders
or in none, unless a zero is seen so. -/
theorem proofs_symmetric_iff {s : Simplifier} (hrules : s.rules = .standard) (a b : Name) :
    (s.provablyDifferent a b = s.provablyDifferent b a ↔
      ¬ (1 ≤ s.limits.rewrites ∧ ∃ n, n ≠ 0 ∧
        (s.SeesBeyond (s.leafOf a) (s.leafOf b) n ∨ s.SeesBeyond (s.leafOf b) (s.leafOf a) n))) ∧
    (s.provablyEqual a b = s.provablyEqual b a ↔
      ¬ (1 ≤ s.limits.rewrites ∧
        (s.SeesBeyond (s.leafOf a) (s.leafOf b) 0 ∨
          s.SeesBeyond (s.leafOf b) (s.leafOf a) 0))) := by
  have hstandard := mem_of_rules_eq hrules
  rw [eq_iff_of_ok (provablyDifferent_ok hstandard a b) (provablyDifferent_ok hstandard b a),
    eq_iff_of_ok (provablyEqual_ok hstandard a b) (provablyEqual_ok hstandard b a),
    provablyDifferent_iff hrules, provablyDifferent_iff hrules, provablyEqual_iff hrules,
    provablyEqual_iff hrules]
  rcases eq_or_ne a b with rfl | hab
  · have hnone (n : Nat) : ¬ s.SeesBeyond (s.leafOf a) (s.leafOf a) n := fun h => h.not_symm h
    simp [hnone]
  generalize s.leafOf a = x
  generalize s.leafOf b = y
  rw [differentNumbers_comm (x := y), agree_comm (x := y)]
  by_cases hlimit : 1 ≤ s.limits.rewrites
  · simp only [hlimit, hab, hab.symm, ne_eq, not_false_eq_true, true_and, false_or, and_or_left,
      exists_or]
    constructor
    · refine or_iff_or_iff ?_ ?_ ?_
      · exact fun ⟨_, _, h⟩ => h.not_differentNumbers
      · rw [differentNumbers_comm]
        exact fun ⟨_, _, h⟩ => h.not_differentNumbers
      · exact fun ⟨_, _, h⟩ ⟨_, _, h'⟩ => h.not_symm h'
    · refine or_iff_or_iff SeesBeyond.not_agree ?_ SeesBeyond.not_symm
      rw [agree_comm]
      exact SeesBeyond.not_agree
  · simp [hlimit, hab, hab.symm]

/-- A simplifier that knows numbers by two copies, but follows a single one. -/
def cutShort : Simplifier where
  dialect := BuiltinTable.evm.toDialect
  rules := .standard
  limits := { depth := 1 }
  known := (((((∅ : NameMap Expr).insert "a" (.ofName "m")).insert "m" (.number 5)).insert "b"
    (.number 0)).insert "c" (.ofName "z")).insert "z" (.number 0)

/-- The difference of `a` and zero is known to be five, and that of zero and `a` is not. No equality
of the two is proved, in either order. -/
theorem proofs_symmetric_iff_cutShort :
    cutShort.rules = .standard ∧
    cutShort.provablyDifferent "a" "b" ≠ cutShort.provablyDifferent "b" "a" ∧
    cutShort.provablyEqual "a" "b" = cutShort.provablyEqual "b" "a" := by
  have hsees : cutShort.SeesBeyond (cutShort.leafOf "a") (cutShort.leafOf "b") 5 :=
    ⟨by decide +kernel, by decide +kernel, by decide +kernel⟩
  obtain ⟨hdifferent, hequal⟩ := proofs_symmetric_iff (s := cutShort) rfl "a" "b"
  refine ⟨rfl, fun h => hdifferent.1 h ⟨by decide, 5, by decide, .inl hsees⟩, hequal.2 ?_⟩
  rintro ⟨_, hzero | hzero⟩
  · cases hsees.beyond.symm.trans hzero.beyond
  · exact hsees.not_symm hzero

/-- Proofs depend on the order of the variables, where the limit of steps cuts a chain of copies. -/
theorem proofs_not_symmetric :
    cutShort.rules = .standard ∧
    (cutShort.provablyDifferent "a" "b" = .ok true ∧
      cutShort.provablyDifferent "b" "a" = .ok false) ∧
    (cutShort.provablyEqual "c" "b" = .ok true ∧ cutShort.provablyEqual "b" "c" = .ok false) := by
  refine ⟨rfl, ⟨?_, ?_⟩, ?_, ?_⟩ <;> exact eq_ok_of_toOption (by decide +kernel)

end Simplifier

end StorageFlow
