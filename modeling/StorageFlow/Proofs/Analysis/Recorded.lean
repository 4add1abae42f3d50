import Mathlib.Data.List.Forall2
import StorageFlow.Proofs.Analysis.Completed
import StorageFlow.Proofs.Analysis.Success

/-!
# StorageFlow.Proofs.Analysis.Recorded

The calls of a hook.

* `Hook.recorded` — a hook together with a record of its calls.
* `Analysis.Records` — a step calls the hook at given places, one after another.
* `Records.andThen` — then so do steps one after another.
* `Records.of_getElem?` — each call is made in its place.
* `Invariant.recorded` — what holds all along an analysis holds at each recorded call.
-/

namespace StorageFlow

variable {σ ι : Type}

/-- The calls of a hook, in order: what it was shown, and the expression. -/
abbrev Hook.Log := List (View × Expr)

/-- The hook that also records its calls. -/
def Hook.recorded (hook : Hook σ) : Hook (σ × Hook.Log) := fun view e state =>
  (hook view e state.1).mapState (·, state.2 ++ [(view, e)])

namespace Analysis

variable {context : Context} {hook : Hook σ}

/-- A step calls the hook once for each of `items`, in their order, until it is stopped. Each call
is related to its item. -/
def Records {α : Type} (R : View × Expr → ι → Prop) (before : Hook.Log) (items : List ι)
    (step : Step (State (σ × Hook.Log)) α) : Prop :=
  ∃ calls visited left, step.state.hook.2 = before ++ calls ∧ items = visited ++ left ∧
    List.Forall₂ R calls visited ∧ (step.error? = none → left = [])

namespace Records

variable {α β : Type} {R : View × Expr → ι → Prop} {before : Hook.Log} {items items' : List ι}
variable {step : Step (State (σ × Hook.Log)) α}

theorem done {a : α} {s s' : State (σ × Hook.Log)} (h : s'.hook = s.hook) :
    Records R s.hook.2 [] (.done a s') := by
  rw [← h]
  exact ⟨[], [], [], (List.append_nil _).symm, rfl, .nil, fun _ => rfl⟩

theorem stopped {a : α} {s : State (σ × Hook.Log)} {error : Error} :
    Records R s.hook.2 items (.stopped a s error) :=
  ⟨[], [], items, (List.append_nil _).symm, rfl, .nil, nofun⟩

theorem map (h : Records R before items step) (f : α → β) :
    Records R before items (step.map f) := h

theorem mapState (h : Records R before items step)
    {f : State (σ × Hook.Log) → State (σ × Hook.Log)} (hf : ∀ s, (f s).hook = s.hook) :
    Records R before items (step.mapState f) := by
  obtain ⟨calls, visited, left, hafter, h⟩ := h
  refine ⟨calls, visited, left, ?_, h⟩
  rw [Step.state_mapState, hf, hafter]

/-- Steps one after another call the hook one after another. -/
theorem andThen {halted : α → β}
    {next : α → State (σ × Hook.Log) → Step (State (σ × Hook.Log)) β}
    (h : Records R before items step)
    (hnext : step.error? = none →
      Records R step.state.hook.2 items' (next step.node step.state)) :
    Records R before (items ++ items') (step.andThen halted next) := by
  obtain ⟨calls, visited, left, hafter, hitems, hshown, hleft⟩ := h
  unfold Step.andThen
  split
  next hdone =>
    obtain ⟨calls', visited', left', hafter', hitems', hshown', hleft'⟩ := hnext hdone
    refine ⟨calls ++ calls', visited ++ visited', left', ?_, ?_, ?_, hleft'⟩
    · rw [hafter', hafter, List.append_assoc]
    · rw [hitems, hitems', hleft hdone, List.append_nil, List.append_assoc]
    · exact List.rel_append hshown hshown'
  next error _ =>
    refine ⟨calls, visited, left ++ items', hafter, ?_, hshown, nofun⟩
    rw [hitems, List.append_assoc]

/-- A last step that calls no hook. -/
theorem andThen_silent {halted : α → β}
    {next : α → State (σ × Hook.Log) → Step (State (σ × Hook.Log)) β}
    (h : Records R before items step)
    (hnext : ∀ a s, Records R s.hook.2 [] (next a s)) :
    Records R before items (step.andThen halted next) := by
  rw [← List.append_nil items]
  exact h.andThen fun _ => hnext _ _

end Records

/-- A hook is shown the knowledge and the scopes of the state. -/
theorem records_callHook {R : View × Expr → ι → Prop} {e : Expr} {s : State (σ × Hook.Log)}
    {item : ι} (h : R (s.view context, e) item) :
    Records R s.hook.2 [item] (callHook context hook.recorded e s) :=
  ⟨[(s.view context, e)], [item], [], rfl, rfl, .cons h .nil, fun _ => rfl⟩

/-! ### Changes of the state that call no hook -/

section HookState

variable {s : State σ}

theorem hook_forgetStorageIf (changed : Bool) : (s.forgetStorageIf changed).hook = s.hook := by
  cases changed <;> rfl

theorem hook_declare (names : List Name) (s : State σ) : (s.declare names).hook = s.hook := by
  unfold State.declare
  split <;> rfl

theorem hook_closeScope (s : State σ) : s.closeScope.hook = s.hook := by
  unfold State.closeScope
  split <;> rfl

theorem hook_declareResults (results : List Name) (s : State σ) :
    (s.declareResults results).hook = s.hook := by
  induction results generalizing s with
  | nil => rfl
  | cons name results ih =>
      exact (ih ((s.declare [name]).assignZero [name])).trans (hook_declare [name] s)

theorem hook_enterFunction (parameters results : List Name) (s : State σ) :
    (s.enterFunction parameters results).hook = s.hook :=
  (hook_declareResults results _).trans (hook_declare parameters _)

theorem hook_loopHead (condition : Expr) (post body : Block) (s : State σ) :
    (loopHead context condition post body s).hook = s.hook :=
  hook_forgetStorageIf _

theorem hook_postHead (body newBody : Block) (s : State σ) :
    (postHead context body newBody s).hook = s.hook :=
  hook_forgetStorageIf _

end HookState

theorem records_attempt_store {α : Type} {R : View × Expr → ι → Prop} (node : α)
    (s : State (σ × Hook.Log)) (slot value : Name) :
    Records R s.hook.2 [] (Step.attempt node s (s.store context slot value)) := by
  unfold State.store
  cases s.knowledge.store (context.simplifier s.knowledge) slot value with
  | error error => exact .stopped
  | ok k => exact .done rfl

/-! ### Whole runs -/

/-- A run calls the hook where the analysis of its program does. -/
theorem records_run {R : View × Expr → ι → Prop} {program : Block} {items : List ι}
    {s : State (σ × Hook.Log)}
    (h : Records R s.hook.2 items (analyseBlock context hook.recorded program s)) :
    Records R s.hook.2 items (run context hook.recorded program s) := by
  rw [run_eq]
  refine h.andThen_silent fun program s => ?_
  cases (if context.config.testsKnowledge then s.knowledge.check else .ok ()) with
  | error error => exact .stopped
  | ok _ => exact .done rfl

/-- Each call is related to the item in its place. -/
theorem Records.of_getElem? {α : Type} {R : View × Expr → ι → Prop} {items : List ι}
    {step : Step (State (σ × Hook.Log)) α} (h : Records R [] items step) {i : Nat}
    {call : View × Expr} (hcall : step.state.hook.2[i]? = some call) :
    ∃ item, items[i]? = some item ∧ R call item := by
  obtain ⟨calls, visited, left, hafter, hitems, hrelated, _⟩ := h
  rw [hafter, List.nil_append] at hcall
  obtain ⟨hi, rfl⟩ := List.getElem?_eq_some_iff.1 hcall
  have hvisited : i < visited.length := hrelated.length_eq ▸ hi
  refine ⟨visited[i], ?_, hrelated.get hi hvisited⟩
  rw [hitems, List.getElem?_append_left hvisited, List.getElem?_eq_getElem hvisited]

namespace Invariant

variable {Known : Knowledge → Prop} {Kept : σ → Prop}

/-- What holds of the knowledge all along an analysis also holds of what each call is shown. -/
theorem recorded (inv : Invariant context hook Known Kept) :
    Invariant context hook.recorded Known fun state =>
      Kept state.1 ∧ ∀ call ∈ state.2, Known call.1.knowledge :=
  { inv with
    call := by
      intro k scopes e state hk hstate
      refine ⟨inv.call hk hstate.1, fun call hmem => ?_⟩
      rcases List.mem_append.1 hmem with hmem | hmem
      · exact hstate.2 call hmem
      · obtain rfl := List.mem_singleton.1 hmem
        exact hk }

theorem run (inv : Invariant context hook Known Kept) (program : Block) {s : State σ}
    (h : inv.At s) : inv.At (run context hook program s).state := by
  rw [run_state]
  exact inv.analyseBlock program h

end Invariant

end Analysis

end StorageFlow
