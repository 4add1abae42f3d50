import StorageFlow.Knowledge.Storage
import StorageFlow.Proofs.Syntax.Occurrences

/-!
# StorageFlow.Proofs.Rewriting.Failure

Where the failures of simplifications come from.

* `RuleTable.Raises` — some rule of the table fails with an error.
* `Simplifier.rewriteWithin_error` — a simplification fails only as a rule does.
* `Simplifier.provablyDifferent_error`, `Simplifier.provablyEqual_error`, `Knowledge.store_error` —
  and so do the proofs that are made by simplification, and the stores that ask for them.

Rewriting counts the rules that it applies, and the count outlives a failure. So failures are
followed through `Simplifier.outcome`, the result together with the count.
-/

namespace StorageFlow

variable {dialect : Dialect} {error : Error}

/-- A computation that fails in two parts fails in one of them. -/
theorem bind_eq_error {α β : Type} {first : Except Error α} {next : α → Except Error β}
    (h : first >>= next = .error error) :
    first = .error error ∨ ∃ a, first = .ok a ∧ next a = .error error := by
  cases first with
  | error e =>
      cases h
      exact .inl rfl
  | ok a => exact .inr ⟨a, rfl, h⟩

/-- A second question is asked only if the first answer does not settle the matter. -/
theorem questions_eq_error {α β γ : Type} {first : Except Error α} {second : Except Error β}
    {settles : α → Prop} [DecidablePred settles] {settled : γ} {f : β → γ}
    (h : (first >>= fun a => if settles a then pure settled else second >>= fun b => pure (f b)) =
      .error error) : first = .error error ∨ second = .error error := by
  rcases bind_eq_error h with hfirst | ⟨a, _, h⟩
  · exact .inl hfirst
  · split at h
    · cases h
    · rcases bind_eq_error h with hsecond | ⟨_, _, h⟩
      · exact .inr hsecond
      · cases h

theorem map_eq_error {α β : Type} {first : Except Error α} {f : α → β}
    (h : first.map f = .error error) : first = .error error := by
  cases first with
  | error e =>
      cases h
      rfl
  | ok a => cases h

/-! ### Rules -/

/-- Some rule of the table fails with the error, on some operation. -/
def RuleTable.Raises (rules : RuleTable) (dialect : Dialect) (error : Error) : Prop :=
  ∃ rule ∈ rules, ∃ operator arguments, rule.apply dialect operator arguments = .error error

theorem RuleTable.firstMatch_error {rules : RuleTable} {operator : Instruction}
    {arguments : List Expr} (h : firstMatch dialect operator arguments rules = .error error) :
    rules.Raises dialect error := by
  induction rules with
  | nil => cases h
  | cons rule rules ih =>
      unfold firstMatch at h
      split at h
      next e happly =>
        cases h
        exact ⟨rule, List.mem_cons_self, operator, arguments, happly⟩
      next => cases h
      next =>
        obtain ⟨other, hother, hraises⟩ := ih h
        exact ⟨other, List.mem_cons_of_mem _ hother, hraises⟩

/-! ### Simplifications -/

namespace Simplifier

variable {s : Simplifier}

theorem firstRewrite_error {e : Expr} (h : s.firstRewrite e = .error error) :
    s.rules.Raises s.dialect error := by
  unfold firstRewrite at h
  split at h
  · cases h
  · exact RuleTable.firstMatch_error (map_eq_error h)

/-- The result and the count of a rewriting. -/
abbrev outcome {α : Type} (rewriting : Rewriting α) (count : Nat) : Except Error α × Nat :=
  rewriting.run.run count

/-- A rewriting in two parts goes on with the count of the first part, unless that fails. -/
theorem outcome_bind {α β : Type} (first : Rewriting α) (next : α → Rewriting β) (count : Nat) :
    outcome (first >>= next) count =
      match outcome first count with
      | (.ok a, count') => outcome (next a) count'
      | (.error e, count') => (.error e, count') := by
  simp only [outcome, ExceptT.run_bind, StateT.run_bind]
  rcases first.run.run count with ⟨_ | _, _⟩ <;> rfl

theorem outcome_bind_ok {α β : Type} {first : Rewriting α} {next : α → Rewriting β}
    {count count' : Nat} {a : α} (h : outcome first count = (.ok a, count')) :
    outcome (first >>= next) count = outcome (next a) count' := by
  rw [outcome_bind, h]

theorem outcome_bind_eq_ok {α β : Type} {first : Rewriting α} {next : α → Rewriting β}
    {count count' : Nat} {b : β} (h : outcome (first >>= next) count = (.ok b, count')) :
    ∃ a count'', outcome first count = (.ok a, count'') ∧
      outcome (next a) count'' = (.ok b, count') := by
  rw [outcome_bind] at h
  split at h
  next a count'' hfirst => exact ⟨a, count'', hfirst, h⟩
  next => cases h

theorem outcome_bind_error {α β : Type} {first : Rewriting α} {next : α → Rewriting β}
    {count : Nat} (h : (outcome (first >>= next) count).1 = .error error) :
    (outcome first count).1 = .error error ∨
      ∃ a count', outcome first count = (.ok a, count') ∧
        (outcome (next a) count').1 = .error error := by
  rw [outcome_bind] at h
  split at h
  next a count' hfirst => exact .inr ⟨a, count', hfirst, h⟩
  next e count' hfirst =>
    cases h
    exact .inl (congrArg Prod.fst hfirst)

theorem outcome_mapM_error {P : Error → Prop} {next : Expr → Rewriting Expr}
    (hnext : ∀ e count error, (outcome (next e) count).1 = .error error → P error)
    (es : List Expr) (count : Nat) (h : (outcome (es.mapM next) count).1 = .error error) :
    P error := by
  induction es generalizing count with
  | nil => cases h
  | cons e es ih =>
      rw [List.mapM_cons] at h
      rcases outcome_bind_error h with he | ⟨_, count', _, h⟩
      · exact hnext e count error he
      · rcases outcome_bind_error h with hes | ⟨_, _, _, h⟩
        · exact ih count' hes
        · cases h

/-- An operation is rewritten behind its arguments. -/
theorem rewriteWithin_operation {e : Expr} {op : Operation} (h : e.root? = some op) (steps : Nat) :
    s.rewriteWithin (steps + 1) e =
      e.arguments.mapM (s.rewriteWithin steps) >>= fun arguments =>
        s.rewriteOnce (s.rewriteWithin steps) (e.withArguments arguments) := by
  cases e with
  | literal _ => cases h
  | identifier _ => cases h
  | call _ _ _ => rfl
  | instruction _ _ _ => rfl

/-- A simplification fails only as a rule does. -/
theorem rewriteWithin_error (steps : Nat) (e : Expr) (count : Nat) (error : Error)
    (h : (outcome (s.rewriteWithin steps e) count).1 = .error error) :
    s.rules.Raises s.dialect error := by
  induction steps generalizing e count error with
  | zero => cases e <;> cases h
  | succ steps ih =>
      cases hroot : e.root? with
      | none =>
          cases e with
          | literal value => cases h
          | identifier x =>
              unfold rewriteWithin at h
              split at h
              · cases h
              · -- a variable that is known to be another one
                exact ih _ _ _ h
              · cases h
          | call _ _ _ => cases hroot
          | instruction _ _ _ => cases hroot
      | some op =>
          rw [rewriteWithin_operation hroot] at h
          rcases outcome_bind_error h with harguments | ⟨arguments, count', _, h⟩
          · exact outcome_mapM_error ih _ _ harguments
          · rw [outcome, run_rewriteOnce] at h
            split at h
            · cases h
            · split at h
              next e' hfirst =>
                cases h
                exact firstRewrite_error hfirst
              next => cases h
              next result _ => exact ih result _ _ h

theorem comparison?_error {operator : Instruction} {a b : Name}
    (h : s.comparison? operator a b = .error error) : s.rules.Raises s.dialect error :=
  rewriteWithin_error _ _ 0 error (map_eq_error h)

theorem provablyDifferent_error {a b : Name} (h : s.provablyDifferent a b = .error error) :
    s.rules.Raises s.dialect error := by
  unfold provablyDifferent at h
  split at h
  · cases h
  · rcases questions_eq_error h with hsub | heq
    · exact comparison?_error hsub
    · exact comparison?_error heq

theorem provablyEqual_error {a b : Name} (h : s.provablyEqual a b = .error error) :
    s.rules.Raises s.dialect error := by
  unfold provablyEqual at h
  split at h
  · cases h
  · rcases questions_eq_error h with hsub | heq
    · exact comparison?_error hsub
    · exact comparison?_error heq

end Simplifier

/-! ### Stores -/

namespace Knowledge

variable {prover : Simplifier} {slot value : Name}

theorem mayFalsify_error {fact : Name × Name}
    (h : mayFalsify prover slot value fact = .error error) :
    prover.rules.Raises prover.dialect error := by
  unfold mayFalsify at h
  split at h
  · cases h
  · rcases questions_eq_error h with hdifferent | hequal
    · exact Simplifier.provablyDifferent_error hdifferent
    · exact Simplifier.provablyEqual_error hequal

theorem falsified_error {facts : List (Name × Name)}
    (h : falsified prover slot value facts = .error error) :
    prover.rules.Raises prover.dialect error := by
  induction facts with
  | nil => cases h
  | cons fact facts ih =>
      rcases bind_eq_error h with hfact | ⟨_, _, h⟩
      · exact mayFalsify_error hfact
      · rcases bind_eq_error h with hfacts | ⟨_, _, h⟩
        · exact ih hfacts
        · cases h

/-- A store fails only as a rule does. -/
theorem store_error {k : Knowledge} (h : k.store prover slot value = .error error) :
    prover.rules.Raises prover.dialect error := by
  rcases bind_eq_error h with hfacts | ⟨_, _, h⟩
  · exact falsified_error hfacts
  · cases h

end Knowledge

end StorageFlow
