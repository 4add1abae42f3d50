import StorageFlow.Error

/-!
# StorageFlow.Analysis.Step

Steps that change a node in place and may stop half-way.

* `Step` — the node as it now is, the state, and the error that stopped the step, if any.
* `Step.andThen` — goes on after a step, unless it was stopped.
* `Step.mapState`, `Step.map` — act on the state and on the node, whether the step was stopped or
  not.
-/

namespace StorageFlow

/-- What a step leaves behind. A step that was stopped leaves its node partly changed, and the state
as it was when the error arose. -/
structure Step (σ α : Type) where
  node : α
  state : σ
  error? : Option Error

namespace Step

variable {σ τ α β : Type}

/-- A step that came to its end. -/
def done (node : α) (state : σ) : Step σ α := ⟨node, state, none⟩

/-- A step that was stopped. -/
def stopped (node : α) (state : σ) (error : Error) : Step σ α := ⟨node, state, some error⟩

/-- A step that takes its state from a computation that may fail, and keeps `state` if it does. -/
def attempt (node : α) (state : σ) : Except Error σ → Step σ α
  | .ok state => done node state
  | .error error => stopped node state error

/-- Goes on with `next`. After a step that was stopped, `next` is skipped and `halted` puts the
partly changed node into its place. -/
def andThen (step : Step σ α) (halted : α → β) (next : α → σ → Step σ β) : Step σ β :=
  match step.error? with
  | none => next step.node step.state
  | some error => stopped (halted step.node) step.state error

/-- Changes the node. -/
def map (step : Step σ α) (f : α → β) : Step σ β :=
  ⟨f step.node, step.state, step.error?⟩

/-- Changes the state, also after a step that was stopped. -/
def mapState (step : Step σ α) (f : σ → τ) : Step τ α :=
  ⟨step.node, f step.state, step.error?⟩

@[simp] theorem andThen_done (node : α) (state : σ) (halted : α → β) (next : α → σ → Step σ β) :
    (done node state).andThen halted next = next node state := rfl

@[simp] theorem andThen_stopped (node : α) (state : σ) (error : Error) (halted : α → β)
    (next : α → σ → Step σ β) :
    (stopped node state error).andThen halted next = stopped (halted node) state error := rfl

end Step

end StorageFlow
