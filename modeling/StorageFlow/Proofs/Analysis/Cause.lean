import StorageFlow.Proofs.Analysis.Isolation
import StorageFlow.Proofs.Rewriting.Failure

/-!
# StorageFlow.Proofs.Analysis.Cause

What stops an analysis.

* `Analysis.Cause` — a malformed node, a rule that fails, or the hook at its last call.
* `Analysis.Explained` — a step that is stopped has a cause; so do steps one after another.
* `Analysis.cause_of_analyseBlock` — no analysis stops for a reason of its own.
-/

namespace StorageFlow.Analysis

variable {σ : Type} {context : Context} {hook : Hook σ}

/-- What may stop an analysis with an error, given the calls of the hook up to there: the tree is
malformed, a rule fails with that error, or the hook stops with it at its last call. -/
inductive Cause (context : Context) (hook : Hook σ) (calls : Hook.Log) : Error → Prop
  | missingValue (names : String) (span : Span) :
      Cause context hook calls (.missingValue names span)
  | loopPrologue (span : Span) : Cause context hook calls (.loopPrologue span)
  | rule {error : Error} (h : context.rules.Raises context.dialect error) :
      Cause context hook calls error
  | hook {error : Error} {view : View} {e : Expr} {state : σ}
      (hcall : calls.getLast? = some (view, e)) (h : (hook view e state).error? = some error) :
      Cause context hook calls error

/-- If the step is stopped, then there is a cause for it. -/
def Explained {α : Type} (context : Context) (hook : Hook σ)
    (step : Step (State (σ × Hook.Log)) α) : Prop :=
  ∀ error, step.error? = some error → Cause context hook step.state.hook.2 error

namespace Explained

variable {α β : Type} {step : Step (State (σ × Hook.Log)) α}

theorem done (a : α) (s : State (σ × Hook.Log)) : Explained context hook (.done a s) := by
  intro error h
  cases h

theorem stopped (a : α) {s : State (σ × Hook.Log)} {error : Error}
    (h : Cause context hook s.hook.2 error) : Explained context hook (.stopped a s error) := by
  intro error' herror
  cases herror
  exact h

theorem map (h : Explained context hook step) (f : α → β) : Explained context hook (step.map f) :=
  h

theorem mapState (h : Explained context hook step)
    {f : State (σ × Hook.Log) → State (σ × Hook.Log)} (hf : ∀ s, (f s).hook = s.hook) :
    Explained context hook (step.mapState f) := by
  intro error herror
  rw [Step.state_mapState, hf]
  exact h error herror

/-- The step that is stopped first has the cause. -/
theorem andThen {halted : α → β}
    {next : α → State (σ × Hook.Log) → Step (State (σ × Hook.Log)) β}
    (h : Explained context hook step) (hnext : ∀ a s, Explained context hook (next a s)) :
    Explained context hook (step.andThen halted next) := by
  unfold Step.andThen
  split
  next => exact hnext _ _
  next error herror => exact stopped _ (h error herror)

end Explained

theorem cause_of_callHook (e : Expr) (s : State (σ × Hook.Log)) :
    Explained context hook (callHook context hook.recorded e s) := by
  intro error herror
  exact .hook List.getLast?_concat herror

theorem cause_of_store {α : Type} (node : α) (s : State (σ × Hook.Log)) (slot value : Name) :
    Explained context hook (Step.attempt node s (s.store context slot value)) := by
  unfold State.store
  cases hstore : s.knowledge.store (context.simplifier s.knowledge) slot value with
  | ok k => exact .done _ _
  | error error => exact .stopped _ (.rule (Knowledge.store_error hstore))

/-! ### Whole trees -/

mutual

theorem cause_of_analyseExpr : ∀ (e : Expr) (s : State (σ × Hook.Log)),
    Explained context hook (analyseExpr context hook.recorded e s)
  | .literal _, _ => cause_of_callHook _ _
  | .identifier _, _ => cause_of_callHook _ _
  | .call _ arguments _, s =>
      (cause_of_analyseExprs arguments s).andThen fun _ _ => cause_of_callHook _ _
  | .instruction _ arguments _, s =>
      (cause_of_analyseExprs arguments s).andThen fun _ _ => cause_of_callHook _ _

theorem cause_of_analyseExprs : ∀ (es : List Expr) (s : State (σ × Hook.Log)),
    Explained context hook (analyseExprs context hook.recorded es s)
  | [], _ => .done _ _
  | e :: es, s =>
      (cause_of_analyseExpr e s).andThen fun _ _ => (cause_of_analyseExprs es _).map _

end

theorem cause_of_evaluate (e : Expr) (s : State (σ × Hook.Log)) :
    Explained context hook (evaluate context hook.recorded e s) :=
  cause_of_analyseExpr e _

mutual

theorem cause_of_analyseStmt : ∀ (stmt : Stmt) (s : State (σ × Hook.Log)),
    Explained context hook (analyseStmt context hook.recorded stmt s)
  | .expression e _, s => by
      unfold analyseStmt
      split
      next => exact (cause_of_analyseExpr e s).andThen fun _ _ => cause_of_store _ _ _ _
      next => exact (cause_of_evaluate e s).map _
  | .assign _ none _, _ => .stopped _ (.missingValue _ _)
  | .assign _ (some e) _, s => (cause_of_evaluate e s).andThen fun _ _ => .done _ _
  | .declare _ none _, _ => .done _ _
  | .declare _ (some e) _, _ => (cause_of_evaluate e _).andThen fun _ _ => .done _ _
  | .ifThen condition body _, _ =>
      (cause_of_analyseExpr condition _).andThen fun _ s =>
        (cause_of_analyseBlock body s).andThen fun _ _ => .done _ _
  | .switch scrutinee cases _, s =>
      (cause_of_evaluate scrutinee s).andThen fun _ s =>
        (cause_of_analyseCases cases s).andThen fun _ _ => .done _ _
  | .forLoop initial condition post body _, _ => by
      unfold analyseStmt
      split
      · refine (cause_of_analyseExpr condition _).andThen fun _ s => ?_
        refine (cause_of_analyseBlock body s).andThen fun _ s => ?_
        exact (cause_of_analyseBlock post _).andThen fun _ _ => .done _ _
      · exact .stopped _ (.loopPrologue _)
  | .function _ parameters results body _, s => by
      have hbody : Explained context hook (analyseBlock context hook.recorded body
          (s.enterFunction (parameters.map Binder.name) (results.map Binder.name))) :=
        cause_of_analyseBlock body _
      exact hbody.mapState (f := (·.leaveFunction s.knowledge)) hook_closeScope
  | .breakLoop _, _ => .done _ _
  | .continueLoop _, _ => .done _ _
  | .block body, s => (cause_of_analyseBlock body s).map _

theorem cause_of_analyseStmts : ∀ (stmts : List Stmt) (s : State (σ × Hook.Log)),
    Explained context hook (analyseStmts context hook.recorded stmts s)
  | [], _ => .done _ _
  | stmt :: stmts, s =>
      (cause_of_analyseStmt stmt s).andThen fun _ s => (cause_of_analyseStmts stmts s).map _

theorem cause_of_analyseCases : ∀ (cases : List Case) (s : State (σ × Hook.Log)),
    Explained context hook (analyseCases context hook.recorded cases s)
  | [], _ => .done _ _
  | ⟨value?, body, span⟩ :: cases, s => by
      have hfirst : Explained context hook
          (analyseCase context hook.recorded ⟨value?, body, span⟩ s) :=
        (cause_of_analyseBlock body s).andThen fun _ _ => .done _ _
      exact hfirst.andThen fun _ s => (cause_of_analyseCases cases s).map _

/-- The analysis of a block stops for a malformed node, a rule, or the hook. -/
theorem cause_of_analyseBlock : ∀ (block : Block) (s : State (σ × Hook.Log)),
    Explained context hook (analyseBlock context hook.recorded block s)
  | ⟨stmts, _⟩, s =>
      ((cause_of_analyseStmts stmts (s.openScope false)).mapState hook_closeScope).map _

end

end StorageFlow.Analysis
