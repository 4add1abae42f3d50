import StorageFlow.Proofs.Rewriting.Meaning

/-!
# StorageFlow.Proofs.Rewriting.Comparison

Proofs about the values of two variables.

* `Simplifier.comparison?_ok`, `Simplifier.provablyDifferent_ok` — with standard rules no proof
  fails.
* `Simplifier.comparison?_sound` — a difference or an equality that is simplified to a number is
  that number, as simplification preserves meaning.
* `Simplifier.exists_leavesHold` — any known values hold in some environment, even if they are
  copies of each other in a cycle.
* `Simplifier.proofs_sound_and_consistent` — what is proved is true, and no two variables are proved
  both different and equal.
* `Simplifier.ne_of_provablyDifferent`, `Simplifier.eq_of_provablyEqual` — the same for variables
  of a running program.
-/

namespace StorageFlow.Simplifier

variable {s : Simplifier}

/-! ### Proofs never fail -/

theorem comparison?_ok (hrules : ∀ rule ∈ s.rules, rule ∈ RuleTable.standard)
    (operator : Instruction) (a b : Name) : ∃ n?, s.comparison? operator a b = .ok n? := by
  cases h : s.comparison? operator a b with
  | ok n? => exact ⟨n?, rfl⟩
  | error e => exact absurd (comparison?_error h) (RuleTable.not_raises_of_standard hrules)

/-- Two proofs of difference, given the numbers that the comparisons are simplified to. -/
theorem provablyDifferent_eq {a b : Name} {difference equality : Option Nat}
    (hsub : s.comparison? .sub a b = .ok difference) (heq : s.comparison? .eq a b = .ok equality) :
    s.provablyDifferent a b =
      .ok (a != b && (difference.any (· != 0) || equality == some 0)) := by
  unfold provablyDifferent
  rw [hsub, heq]
  by_cases hab : a = b
  · simp [hab]
  · cases hany : difference.any (· != 0) <;>
      simp [hab, hany, bind, Except.bind, pure, Except.pure]

/-- Two proofs of equality, given the numbers that the comparisons are simplified to. -/
theorem provablyEqual_eq {a b : Name} {difference equality : Option Nat}
    (hsub : s.comparison? .sub a b = .ok difference) (heq : s.comparison? .eq a b = .ok equality) :
    s.provablyEqual a b = .ok (a == b || (difference == some 0 || equality.any (· != 0))) := by
  unfold provablyEqual
  rw [hsub, heq]
  by_cases hab : a = b
  · simp [hab]
  · cases hzero : difference == some 0 <;>
      simp [hab, hzero, bind, Except.bind, pure, Except.pure]

theorem provablyDifferent_ok (hrules : ∀ rule ∈ s.rules, rule ∈ RuleTable.standard) (a b : Name) :
    ∃ answer, s.provablyDifferent a b = .ok answer := by
  obtain ⟨_, hsub⟩ := comparison?_ok hrules .sub a b
  obtain ⟨_, heq⟩ := comparison?_ok hrules .eq a b
  exact ⟨_, provablyDifferent_eq hsub heq⟩

theorem provablyEqual_ok (hrules : ∀ rule ∈ s.rules, rule ∈ RuleTable.standard) (a b : Name) :
    ∃ answer, s.provablyEqual a b = .ok answer := by
  obtain ⟨_, hsub⟩ := comparison?_ok hrules .sub a b
  obtain ⟨_, heq⟩ := comparison?_ok hrules .eq a b
  exact ⟨_, provablyEqual_eq hsub heq⟩

/-! ### Proofs are sound -/

section Sound

variable {literals : LiteralWords} {env : Name → Word}

/-- A comparison of two variables that is simplified to a number is simplified to its word. -/
theorem comparison?_sound (hrules : ∀ rule ∈ s.rules, rule ∈ RuleTable.standard)
    (hknown : s.LeavesHold literals env) {operator : Instruction} {a b : Name} {n : Nat}
    {word : Word} (h : s.comparison? operator a b = .ok (some n))
    (hword : operator.arithmetic? [env a, env b] = some word) :
    word = BitVec.ofNat 256 n ∧ n < numericLimit := by
  -- any interpretation will do, as a comparison has the same word in all of them
  let I : Interpretation s.dialect Unit := .ofEffect _ literals true fun _ _ _ => .stuck
  obtain ⟨r, hr⟩ := simplify_ok hrules (.native operator [.ofName a, .ofName b])
  have hn : r.toNat? = some n := by
    rw [comparison?, hr] at h
    exact Except.ok.inj h
  have hoperands : I.YieldsAll env [.ofName a, .ofName b] [env a, env b] :=
    Interpretation.Yields.cons (fun _ => rfl)
      (Interpretation.Yields.cons (fun _ => rfl) Interpretation.yieldsAll_nil)
  have hcompared : I.Yields env (.native operator [.ofName a, .ofName b]) word :=
    hoperands.operation rfl rfl hword
  have hnumber : I.Yields env r (BitVec.ofNat 256 n) := Interpretation.yields_of_toNat? hn
  have hmeaning : I.eval env r = I.eval env (.native operator [.ofName a, .ofName b]) :=
    eval_simplify hrules hknown hr
  let m : Machine Unit := ⟨fun _ => 0, ()⟩
  have hdone : Outcome.done (BitVec.ofNat 256 n) m = Outcome.done word m := by
    rw [← hnumber m, hmeaning, hcompared m]
  exact ⟨(Outcome.done.inj hdone).1.symm, r.lt_of_toNat? hn⟩

/-- Variables that are proved different hold different words. -/
theorem ne_of_leavesHold (hrules : ∀ rule ∈ s.rules, rule ∈ RuleTable.standard)
    (hknown : s.LeavesHold literals env) {a b : Name} (h : s.provablyDifferent a b = .ok true) :
    env a ≠ env b := by
  obtain ⟨difference, hsub⟩ := comparison?_ok hrules .sub a b
  obtain ⟨equality, heq⟩ := comparison?_ok hrules .eq a b
  rw [provablyDifferent_eq hsub heq, Except.ok.injEq, Bool.and_eq_true, Bool.or_eq_true] at h
  intro hwords
  rcases h.2 with hany | hzero
  · -- equal words have the difference zero, so no other number was found
    obtain ⟨n, rfl, hn⟩ := (Option.any_eq_true _ _).1 hany
    obtain ⟨hword, hlimit⟩ := comparison?_sound hrules hknown hsub rfl
    rw [hwords, BitVec.sub_self] at hword
    exact ofNat_ne_zero hlimit (by simpa using hn) hword.symm
  · obtain rfl := eq_of_beq hzero
    obtain ⟨hword, _⟩ := comparison?_sound hrules hknown heq rfl
    rw [hwords, BEq.rfl] at hword
    cases hword

/-- Variables that are proved equal hold the same word. -/
theorem eq_of_leavesHold (hrules : ∀ rule ∈ s.rules, rule ∈ RuleTable.standard)
    (hknown : s.LeavesHold literals env) {a b : Name} (h : s.provablyEqual a b = .ok true) :
    env a = env b := by
  obtain ⟨difference, hsub⟩ := comparison?_ok hrules .sub a b
  obtain ⟨equality, heq⟩ := comparison?_ok hrules .eq a b
  rw [provablyEqual_eq hsub heq, Except.ok.injEq, Bool.or_eq_true, Bool.or_eq_true] at h
  rcases h with hab | hzero | hany
  · rw [eq_of_beq hab]
  · obtain rfl := eq_of_beq hzero
    obtain ⟨hword, _⟩ := comparison?_sound hrules hknown hsub rfl
    have hcancel : env a - env b + env b = env a := BitVec.sub_add_cancel _ _
    rw [← hcancel, hword]
    exact BitVec.zero_add (env b)
  · -- for different words the equality is zero, so no other number was found
    obtain ⟨n, rfl, hn⟩ := (Option.any_eq_true _ _).1 hany
    obtain ⟨hword, hlimit⟩ := comparison?_sound hrules hknown heq rfl
    by_cases hwords : env a = env b
    · exact hwords
    · rw [beq_false_of_ne hwords] at hword
      exact absurd hword.symm (ofNat_ne_zero hlimit (by simpa using hn))

end Sound

/-! ### Proofs are consistent -/

/-- Following copies from a variable leads to a literal. -/
inductive EndsIn (s : Simplifier) : Name → Literal → Prop
  | literal {x : Name} {value : Literal} (h : s.known[x]? = some (.literal value)) :
      EndsIn s x value
  | copy {x : Name} {y : Identifier} {value : Literal} (h : s.known[x]? = some (.identifier y))
      (hy : EndsIn s y.name value) : EndsIn s x value

theorem EndsIn.unique {x : Name} {value value' : Literal} (h : s.EndsIn x value)
    (h' : s.EndsIn x value') : value = value' := by
  induction h with
  | literal hx =>
      cases h' with
      | literal hx' => exact Expr.literal.inj (Option.some.inj (hx.symm.trans hx'))
      | copy hx' _ => cases hx.symm.trans hx'
  | copy hx _ ih =>
      cases h' with
      | literal hx' => cases hx.symm.trans hx'
      | copy hx' hy' =>
          obtain rfl := Expr.identifier.inj (Option.some.inj (hx.symm.trans hx'))
          exact ih hy'

/-- A copy leads to the same literal as the variable that it copies. -/
theorem endsIn_copy_iff {x : Name} {y : Identifier} {value : Literal}
    (hx : s.known[x]? = some (.identifier y)) : s.EndsIn x value ↔ s.EndsIn y.name value := by
  constructor
  · rintro (hx' | ⟨hx', hy⟩)
    · cases hx.symm.trans hx'
    · obtain rfl := Expr.identifier.inj (Option.some.inj (hx.symm.trans hx'))
      exact hy
  · exact .copy hx

/-- Any known literals and copies hold in some environment, also copies of each other in a cycle. -/
theorem exists_leavesHold (s : Simplifier) (literals : LiteralWords) :
    ∃ env, s.LeavesHold literals env := by
  -- each variable holds the literal that its copies end in, or zero if there is none
  have hword (x : Name) : ∃ word : Word,
      (∀ value, s.EndsIn x value → word = literals.word value.kind value.text) ∧
        ((∀ value, ¬ s.EndsIn x value) → word = 0) := by
    by_cases hends : ∃ value, s.EndsIn x value
    · obtain ⟨value, hvalue⟩ := hends
      refine ⟨literals.word value.kind value.text, fun value' hvalue' => ?_, ?_⟩
      · rw [hvalue.unique hvalue']
      · exact fun hnone => absurd hvalue (hnone value)
    · exact ⟨0, fun value hvalue => absurd ⟨value, hvalue⟩ hends, fun _ => rfl⟩
  obtain ⟨env, henv⟩ := Classical.axiomOfChoice hword
  refine ⟨env, fun {x value} hx => (henv x).1 value (.literal hx), fun {x y} hx => ?_⟩
  by_cases hends : ∃ value, s.EndsIn x value
  · obtain ⟨value, hvalue⟩ := hends
    rw [(henv x).1 value hvalue, (henv y.name).1 value ((endsIn_copy_iff hx).1 hvalue)]
  · have hnone := not_exists.1 hends
    have hnone' : ∀ value, ¬ s.EndsIn y.name value := fun value hvalue =>
      hnone value ((endsIn_copy_iff hx).2 hvalue)
    rw [(henv x).2 hnone, (henv y.name).2 hnone']

/-- What is proved of two variables is true, and proofs do not contradict each other. With any table
of standard rules, any limits and any known values, cyclic ones included: variables that are proved
different hold different words wherever the known literals and copies hold, variables that are
proved equal hold the same word there, and no two variables are proved both different and equal,
in either order. -/
theorem proofs_sound_and_consistent {s : Simplifier}
    (hrules : ∀ rule ∈ s.rules, rule ∈ RuleTable.standard) (a b : Name) :
    (∀ literals env, s.LeavesHold literals env →
      (s.provablyDifferent a b = .ok true → env a ≠ env b) ∧
        (s.provablyEqual a b = .ok true → env a = env b)) ∧
    ¬ (s.provablyDifferent a b = .ok true ∧ s.provablyEqual a b = .ok true) ∧
    ¬ (s.provablyDifferent a b = .ok true ∧ s.provablyEqual b a = .ok true) := by
  obtain ⟨env, hknown⟩ := s.exists_leavesHold .numeric
  refine ⟨fun literals env hknown => ?_, ?_, ?_⟩
  · exact ⟨ne_of_leavesHold hrules hknown, eq_of_leavesHold hrules hknown⟩
  · rintro ⟨hdifferent, hequal⟩
    exact ne_of_leavesHold hrules hknown hdifferent (eq_of_leavesHold hrules hknown hequal)
  · rintro ⟨hdifferent, hequal⟩
    exact ne_of_leavesHold hrules hknown hdifferent (eq_of_leavesHold hrules hknown hequal).symm

/-- Two numbers are different, in decimal or not, and a copy is equal to what it copies. -/
theorem proofs_sound_and_consistent_copies :
    (knowsCopies.provablyDifferent "one" "two" = .ok true ∧
      oneTwoThrees "one" ≠ oneTwoThrees "two") ∧
    (knowsCopies.provablyEqual "copy" "x" = .ok true ∧
      oneTwoThrees "copy" = oneTwoThrees "x") := by
  have hdifferent : knowsCopies.provablyDifferent "one" "two" = .ok true :=
    eq_ok_of_toOption (by decide +kernel)
  have hequal : knowsCopies.provablyEqual "copy" "x" = .ok true :=
    eq_ok_of_toOption (by decide +kernel)
  have hrules : ∀ rule ∈ knowsCopies.rules, rule ∈ RuleTable.standard := fun _ h => h
  have hnumbers := (proofs_sound_and_consistent hrules "one" "two").1 _ _ leavesHold_knowsCopies
  have hcopies := (proofs_sound_and_consistent hrules "copy" "x").1 _ _ leavesHold_knowsCopies
  exact ⟨⟨hdifferent, hnumbers.1 hdifferent⟩, hequal, hcopies.2 hequal⟩

/-! ### Variables of a running program -/

section Running

variable {dialect : Dialect} {W : Type} {M : Model dialect W} {env : Env}

/-- The known values of variables are their words. -/
def Knows (s : Simplifier) (M : Model dialect W) (env : Env) : Prop :=
  ∀ x e, s.known[x]? = some e → ∃ word, env x = some word ∧ e.valueIn M env = some word

/-- The words of literals in a model of programs. -/
def literalWords (M : Model dialect W) : LiteralWords :=
  ⟨M.literal, M.literal_of_toNat?⟩

/-- Where known values hold, the literals and the copies among them do. -/
theorem Knows.leavesHold (h : s.Knows M env) :
    s.LeavesHold (literalWords M) fun x => (env x).getD 0 where
  literal {x value} hx := by
    obtain ⟨word, hword, hvalue⟩ := h _ _ hx
    rw [hword]
    exact (Option.some.inj hvalue).symm
  identifier {x y} hx := by
    obtain ⟨word, hword, hy⟩ := h _ _ hx
    have hy : env y.name = some word := hy
    rw [hword, hy]

theorem ne_of_provablyDifferent (hknown : s.Knows M env)
    (hrules : ∀ rule ∈ s.rules, rule ∈ RuleTable.standard) {a b : Name} {wa wb : Word}
    (ha : env a = some wa) (hb : env b = some wb) (h : s.provablyDifferent a b = .ok true) :
    wa ≠ wb := by
  have hne := ne_of_leavesHold hrules hknown.leavesHold h
  rwa [ha, hb] at hne

theorem eq_of_provablyEqual (hknown : s.Knows M env)
    (hrules : ∀ rule ∈ s.rules, rule ∈ RuleTable.standard) {a b : Name} {wa wb : Word}
    (ha : env a = some wa) (hb : env b = some wb) (h : s.provablyEqual a b = .ok true) :
    wa = wb := by
  have heq := eq_of_leavesHold hrules hknown.leavesHold h
  rwa [ha, hb] at heq

end Running

end StorageFlow.Simplifier
