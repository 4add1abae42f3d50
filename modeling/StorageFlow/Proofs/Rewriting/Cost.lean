import StorageFlow.Proofs.Rewriting.Chain
import StorageFlow.Proofs.Rewriting.Meaning

/-!
# StorageFlow.Proofs.Rewriting.Cost

Each application of a standard rule removes an operation for good.

* `Rule.apply_standard_eq_some` — a standard rule makes a number of an operation, or one of its
  arguments.
* `Simplifier.CountsUp` — a rewriting that never lowers the count; no simplification does.
* `Simplifier.Pays` — the rules that are applied and the operations that are left are together no
  more than the operations before.
* `Simplifier.pays_rewriteWithin` — with standard rules, every simplification pays so.
* `Simplifier.outcome_rewriteWithin_eq` — a limit of rewrites that is not below the number of
  operations is never reached.
* `Simplifier.rewrites_pay` — both, for simplifiers in any state.
-/

namespace StorageFlow

variable {dialect : Dialect}

/-! ### Standard rules -/

theorem Instruction.onItself?_eq_some {operator : Instruction} {x e : Expr}
    (h : operator.onItself? x = some e) : (∃ n, e = .number n) ∨ e = x := by
  unfold onItself? at h
  split at h <;> cases h
  all_goals first
    | exact .inl ⟨_, rfl⟩
    | exact .inr rfl

/-- A standard rule makes a number of an operation, or one of its arguments. -/
theorem Rule.apply_standard_eq_some {rule : Rule} (h : rule ∈ RuleTable.standard)
    {operator : Instruction} {arguments : List Expr} {r : Expr}
    (happly : rule.apply dialect operator arguments = .ok (some r)) :
    (∃ n, r = .number n) ∨ r ∈ arguments := by
  simp only [RuleTable.standard, List.mem_cons, List.not_mem_nil, or_false] at h
  rcases h with rfl | rfl | rfl
  · obtain ⟨_, n, _, _, rfl⟩ := constantFolding_eq_some happly
    exact .inl ⟨n, rfl⟩
  · obtain ⟨x, y, rfl, hself, _⟩ := selfOperand_eq_some happly
    rcases Instruction.onItself?_eq_some hself with hnumber | rfl
    · exact .inl hnumber
    · exact .inr List.mem_cons_self
  · obtain ⟨x, y, rfl, hneutral⟩ := neutralElement_eq_some happly
    rcases Instruction.neutral?_eq_some hneutral with ⟨rfl, _⟩ | ⟨rfl, _⟩
    · exact .inr List.mem_cons_self
    · exact .inr (List.mem_cons_of_mem _ List.mem_cons_self)

namespace Simplifier

variable {s : Simplifier}

theorem firstRewrite_standard (hrules : ∀ rule ∈ s.rules, rule ∈ RuleTable.standard) {e r : Expr}
    (h : s.firstRewrite e = .ok (some r)) : (∃ n, r = .number n) ∨ r ∈ e.arguments := by
  obtain ⟨operator, arguments, hoperation, rule, hrule, happly⟩ := firstRewrite_eq_some h
  obtain ⟨_, _, _, rfl⟩ := Dialect.operation?_eq_some hoperation
  exact Rule.apply_standard_eq_some (hrules rule hrule) happly

/-- A standard rule removes the operation that it is applied to. -/
theorem operations_firstRewrite (hrules : ∀ rule ∈ s.rules, rule ∈ RuleTable.standard)
    {e r : Expr} (h : s.firstRewrite e = .ok (some r)) :
    r.operations.length ≤ (Expr.operationsAll e.arguments).length := by
  rcases firstRewrite_standard hrules h with ⟨n, rfl⟩ | hr
  · exact Nat.zero_le _
  · exact Expr.length_operations_le hr

/-! ### The count -/

/-- The rewriting never lowers the count, even if it fails. -/
def CountsUp {α : Type} (rewriting : Rewriting α) : Prop :=
  ∀ count, count ≤ (outcome rewriting count).2

theorem countsUp_pure {α : Type} (a : α) : CountsUp (pure a) :=
  fun _ => Nat.le_refl _

theorem CountsUp.bind {α β : Type} {first : Rewriting α} {next : α → Rewriting β}
    (hfirst : CountsUp first) (hnext : ∀ a, CountsUp (next a)) : CountsUp (first >>= next) := by
  intro count
  have hcount := hfirst count
  rw [outcome_bind]
  split
  next a count' houtcome =>
    rw [houtcome] at hcount
    exact Nat.le_trans hcount (hnext a count')
  next e count' houtcome => rwa [houtcome] at hcount

theorem countsUp_mapM {next : Expr → Rewriting Expr} (hnext : ∀ e, CountsUp (next e))
    (es : List Expr) : CountsUp (es.mapM next) := by
  induction es with
  | nil => exact countsUp_pure []
  | cons e es ih =>
      rw [List.mapM_cons]
      exact (hnext e).bind fun r => ih.bind fun rs => countsUp_pure (r :: rs)

theorem countsUp_rewriteOnce {next : Expr → Rewriting Expr} (hnext : ∀ e, CountsUp (next e))
    (e : Expr) : CountsUp (s.rewriteOnce next e) := by
  intro count
  rw [outcome, run_rewriteOnce]
  split
  · exact Nat.le_refl _
  · split
    · exact Nat.le_refl _
    · exact Nat.le_refl _
    next result _ => exact Nat.le_trans (Nat.le_succ count) (hnext result (count + 1))

theorem countsUp_rewriteWithin (steps : Nat) (e : Expr) : CountsUp (s.rewriteWithin steps e) := by
  induction steps generalizing e with
  | zero => cases e <;> exact countsUp_pure _
  | succ steps ih =>
      cases hroot : e.root? with
      | none =>
          rw [rewriteWithin_leaf hroot]
          exact countsUp_pure _
      | some op =>
          rw [rewriteWithin_operation hroot]
          exact (countsUp_mapM ih _).bind fun arguments => countsUp_rewriteOnce ih _

/-! ### What simplification costs -/

/-- Each rule that is applied to an expression costs it an operation. -/
def Pays (next : Expr → Rewriting Expr) : Prop :=
  ∀ ⦃e r : Expr⦄ ⦃count count' : Nat⦄, outcome (next e) count = (.ok r, count') →
    count' + r.operations.length ≤ count + e.operations.length

/-- Rewriting one argument after another pays, if each step does. -/
theorem Pays.mapM {next : Expr → Rewriting Expr} (hnext : Pays next) {es rs : List Expr}
    {count count' : Nat} (h : outcome (es.mapM next) count = (.ok rs, count')) :
    count' + (Expr.operationsAll rs).length ≤ count + (Expr.operationsAll es).length := by
  induction es generalizing rs count with
  | nil =>
      cases h
      exact Nat.le_refl _
  | cons e es ih =>
      rw [List.mapM_cons] at h
      obtain ⟨r, count₁, hr, h⟩ := outcome_bind_eq_ok h
      obtain ⟨rest, count₂, hrest, h⟩ := outcome_bind_eq_ok h
      cases h
      have hfirst := hnext hr
      have hothers := ih hrest
      rw [Expr.operationsAll, Expr.operationsAll, List.length_append, List.length_append]
      omega

theorem pays_rewriteWithin (hrules : ∀ rule ∈ s.rules, rule ∈ RuleTable.standard) (steps : Nat) :
    Pays (s.rewriteWithin steps) := by
  induction steps with
  | zero =>
      intro e r count count' h
      cases e <;> cases h <;> exact Nat.le_refl _
  | succ steps ih =>
      intro e r count count' h
      cases hroot : e.root? with
      | none =>
          rw [rewriteWithin_leaf hroot] at h
          cases h
          rw [Expr.operations_of_leaf (root?_follow hroot), Expr.operations_of_leaf hroot]
      | some op =>
          rw [rewriteWithin_operation hroot] at h
          obtain ⟨arguments, count₁, harguments, h⟩ := outcome_bind_eq_ok h
          have hinner := ih.mapM harguments
          have hunmatched : count₁ + (e.withArguments arguments).operations.length ≤
              count + e.operations.length := by
            rw [Expr.length_operations_withArguments hroot, Expr.length_operations hroot]
            omega
          rw [outcome, run_rewriteOnce] at h
          split at h
          · cases h
            exact hunmatched
          · split at h
            · cases h
            · cases h
              exact hunmatched
            next result hfirst =>
              -- the rule that is applied is paid for by the operation that it removes
              have hresult := operations_firstRewrite hrules hfirst
              rw [Expr.arguments_withArguments hroot] at hresult
              have hrest := ih h
              rw [Expr.length_operations hroot]
              omega

/-! ### Limits that are not reached -/

/-- The same simplifier with other limits. -/
def withLimits (s : Simplifier) (limits : Limits) : Simplifier :=
  { s with limits }

@[simp] theorem knownLeaf?_withLimits (limits : Limits) (x : Name) :
    (s.withLimits limits).knownLeaf? x = s.knownLeaf? x := rfl

@[simp] theorem firstRewrite_withLimits (limits : Limits) (e : Expr) :
    (s.withLimits limits).firstRewrite e = s.firstRewrite e := rfl

@[simp] theorem follow_withLimits (limits : Limits) (steps : Nat) (e : Expr) :
    (s.withLimits limits).follow steps e = s.follow steps e := by
  induction steps generalizing e with
  | zero => rfl
  | succ steps ih =>
      cases e with
      | identifier x =>
          rw [follow, follow, knownLeaf?_withLimits]
          split
          next e _ => exact ih e
          next => rfl
      | _ => rfl

/-- Below the limit of rewrites, the first rule that matches is applied. -/
theorem outcome_rewriteOnce_of_lt {next : Expr → Rewriting Expr} {e : Expr} {count : Nat}
    (h : count < s.limits.rewrites) :
    outcome (s.rewriteOnce next e) count =
      match s.firstRewrite e with
      | .error error => (.error error, count)
      | .ok none => (.ok e, count)
      | .ok (some result) => outcome (next result) (count + 1) :=
  (s.run_rewriteOnce next e count).trans (if_neg (Nat.not_le.2 h))

/-- Two ways of rewriting arguments agree while the count and the operations that are left are
within a budget, if they do so on each argument. -/
theorem outcome_mapM_eq {next next' : Expr → Rewriting Expr} {budget : Nat} (hpays : Pays next)
    (hnext : ∀ e count, count + e.operations.length ≤ budget →
      outcome (next e) count = outcome (next' e) count)
    (es : List Expr) {count : Nat} (h : count + (Expr.operationsAll es).length ≤ budget) :
    outcome (es.mapM next) count = outcome (es.mapM next') count := by
  induction es generalizing count with
  | nil => rfl
  | cons e es ih =>
      rw [Expr.operationsAll, List.length_append] at h
      rw [List.mapM_cons, List.mapM_cons, outcome_bind, outcome_bind,
        ← hnext e count (by omega)]
      rcases hfirst : outcome (next e) count with ⟨_ | r, count'⟩
      · rfl
      · have hpaid := hpays hfirst
        simp only [outcome_bind, ih (show count' + _ ≤ budget by omega)]

/-- A limit of rewrites that is not below the count and the number of operations together is never
reached: a rule is looked for only while an operation is left to pay for it. -/
theorem outcome_rewriteWithin_eq (hrules : ∀ rule ∈ s.rules, rule ∈ RuleTable.standard)
    {limits limits' : Limits} {budget : Nat} (hlimit : budget ≤ limits.rewrites)
    (hlimit' : budget ≤ limits'.rewrites) (steps : Nat) (e : Expr) (count : Nat)
    (h : count + e.operations.length ≤ budget) :
    outcome ((s.withLimits limits).rewriteWithin steps e) count =
      outcome ((s.withLimits limits').rewriteWithin steps e) count := by
  induction steps generalizing e count with
  | zero => cases e <;> rfl
  | succ steps ih =>
      cases hroot : e.root? with
      | none =>
          rw [rewriteWithin_leaf hroot, rewriteWithin_leaf hroot, follow_withLimits,
            follow_withLimits]
      | some op =>
          have hpays : Pays ((s.withLimits limits).rewriteWithin steps) :=
            pays_rewriteWithin (s := s.withLimits limits) hrules steps
          have hoperations := Expr.length_operations hroot
          rw [rewriteWithin_operation hroot, rewriteWithin_operation hroot, outcome_bind,
            outcome_bind, ← outcome_mapM_eq hpays ih e.arguments (by omega)]
          rcases harguments : outcome (e.arguments.mapM _) count with ⟨_ | arguments, count₁⟩
          · rfl
          · have hinner := hpays.mapM harguments
            have hlt : count₁ < budget := by omega
            simp only
            rw [outcome_rewriteOnce_of_lt (Nat.lt_of_lt_of_le hlt hlimit),
              outcome_rewriteOnce_of_lt (Nat.lt_of_lt_of_le hlt hlimit'), firstRewrite_withLimits,
              firstRewrite_withLimits]
            rcases hfirst : s.firstRewrite (e.withArguments arguments) with error | _ | result
            · rfl
            · rfl
            · have hresult := operations_firstRewrite hrules hfirst
              rw [Expr.arguments_withArguments hroot] at hresult
              exact ih result (count₁ + 1) (by omega)

/-- Each application of a standard rule pays for itself. With any table of standard rules, any
limits and any known values, cyclic ones included, and whatever the count is before: the rules that
are applied to an expression and the operations of its result are together no more than the
operations of the expression. So all limits of rewrites that are not below the number of its
operations give the same result. -/
theorem rewrites_pay {s : Simplifier} (hrules : ∀ rule ∈ s.rules, rule ∈ RuleTable.standard)
    (e : Expr) :
    (∀ count, ∃ r k, outcome (s.rewrite e) count = (.ok r, count + k) ∧
      k + r.operations.length ≤ e.operations.length) ∧
    ∀ depth rewrites rewrites', e.operations.length ≤ rewrites → rewrites ≤ rewrites' →
      (s.withLimits ⟨depth, rewrites⟩).simplify e =
        (s.withLimits ⟨depth, rewrites'⟩).simplify e := by
  refine ⟨fun count => ?_, fun depth rewrites rewrites' hbudget hle => ?_⟩
  · obtain ⟨r, count', hr⟩ := rewriteWithin_ok hrules (s.limits.depth + 1) e count
    have hcount := countsUp_rewriteWithin (s := s) (s.limits.depth + 1) e count
    rw [hr] at hcount
    have hpaid := pays_rewriteWithin hrules _ hr
    refine ⟨r, count' - count, ?_, by omega⟩
    rw [Nat.add_sub_cancel' hcount]
    exact hr
  · have hpaid : 0 + e.operations.length ≤ rewrites := by rwa [Nat.zero_add]
    exact congrArg Prod.fst
      (outcome_rewriteWithin_eq hrules (Nat.le_refl rewrites) hle (depth + 1) e 0 hpaid)

/-- Three rules are applied to four operations, and the call is left. -/
theorem rewrites_pay_callPlusNothing :
    (outcome (knowsCopies.rewrite callPlusNothing) 7 = (.ok (.callOf "f" [.ofName "x"]), 7 + 3) ∧
      3 + (Expr.callOf "f" [.ofName "x"]).operations.length ≤ callPlusNothing.operations.length) ∧
    (knowsCopies.withLimits ⟨32, 4⟩).simplify callPlusNothing =
      (knowsCopies.withLimits ⟨32, 256⟩).simplify callPlusNothing := by
  have houtcome : outcome (knowsCopies.rewrite callPlusNothing) 7 =
      (.ok (.callOf "f" [.ofName "x"]), 7 + 3) :=
    Prod.ext (eq_ok_of_toOption (by decide +kernel)) (by decide +kernel)
  obtain ⟨hpays, hlimits⟩ := rewrites_pay (s := knowsCopies) (fun _ h => h) callPlusNothing
  obtain ⟨r, k, hr, hle⟩ := hpays 7
  obtain ⟨hresult, hcount⟩ := Prod.mk.inj (hr.symm.trans houtcome)
  obtain rfl := Except.ok.inj hresult
  obtain rfl := Nat.add_left_cancel hcount
  exact ⟨⟨houtcome, hle⟩, hlimits 32 4 256 (by decide) (by decide)⟩

end Simplifier

end StorageFlow
