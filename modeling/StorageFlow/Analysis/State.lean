import StorageFlow.Analysis.Hook

/-!
# StorageFlow.Analysis.State

The state of an analysis and the changes that the constructs of a program make to it.

* `Analysis.State` — knowledge, open scopes, and the state of the hook.
* `openScope`, `closeScope`, `declare` — what is visible; a scope takes its knowledge with it.
* `clear`, `assign`, `assignZero`, `store`, `joinStorage`, `forgetStorageIf` — knowledge.
* `enterFunction`, `leaveFunction` — a function starts from no knowledge and returns the old one.
-/

namespace StorageFlow.Analysis

/-- The state of an analysis. -/
structure State (σ : Type) where
  knowledge : Knowledge
  /-- The open scopes, innermost first. -/
  scopes : List Scope
  /-- The state of the hook. -/
  hook : σ

namespace State

variable {σ τ : Type}

/-- The state of a new analysis: nothing is known and no scope is open. -/
def initial (hook : σ) : State σ := ⟨∅, [], hook⟩

/-- What the hook is shown of the state. -/
def view (s : State σ) (context : Context) : View :=
  ⟨context, s.knowledge, visibleScopes s.scopes⟩

/-- The same state for a hook with a state of its own. -/
def withHook (s : State σ) (hook : τ) : State τ := ⟨s.knowledge, s.scopes, hook⟩

/-- Opens a scope inside the others. -/
def openScope (s : State σ) (isBoundary : Bool) : State σ :=
  { s with scopes := ⟨∅, isBoundary⟩ :: s.scopes }

/-- Forgets everything about `names` and what was computed from them. -/
def clear (s : State σ) (names : List Name) : State σ :=
  { s with knowledge := s.knowledge.clear names }

/-- Closes the innermost scope and forgets everything about its variables. -/
def closeScope (s : State σ) : State σ :=
  match s.scopes with
  | [] => s
  | scope :: outer => { s with scopes := outer }.clear scope.names.toList

/-- Declares `names` in the innermost scope. -/
def declare (s : State σ) (names : List Name) : State σ :=
  match s.scopes with
  | [] => s
  | scope :: outer =>
    { s with scopes := { scope with names := scope.names.insertMany names } :: outer }

/-- Gives `names` the results of `value`. -/
def assign (s : State σ) (context : Context) (names : List Name) (value : Expr) : State σ :=
  { s with knowledge := s.knowledge.assign context.dialect names value }

/-- Sets `names` to zero. -/
def assignZero (s : State σ) (names : List Name) : State σ :=
  { s with knowledge := s.knowledge.assignZero names }

/-- Stores `value` at `slot`. -/
def store (s : State σ) (context : Context) (slot value : Name) : Except Error (State σ) := do
  let knowledge ← s.knowledge.store (context.simplifier s.knowledge) slot value
  return { s with knowledge }

/-- Keeps the facts about storage that also held before a branch. -/
def joinStorage (s : State σ) (before : TwoWayMap Name) : State σ :=
  { s with knowledge := s.knowledge.joinStorage before }

/-- Forgets all facts about storage if storage may have changed. -/
def forgetStorageIf (s : State σ) (changed : Bool) : State σ :=
  if changed then { s with knowledge := s.knowledge.forgetStorage } else s

/-- Declares the results of a function, which start at zero, one after another. -/
def declareResults (s : State σ) (results : List Name) : State σ :=
  results.foldl (fun s name => (s.declare [name]).assignZero [name]) s

/-- Enters a function: nothing is known but that its results are zero. -/
def enterFunction (s : State σ) (parameters results : List Name) : State σ :=
  ((({ s with knowledge := ∅ }.openScope true).declare parameters).declareResults results)

/-- Leaves a function and returns to what was known before it. -/
def leaveFunction (s : State σ) (outer : Knowledge) : State σ :=
  { s.closeScope with knowledge := outer }

end State

end StorageFlow.Analysis
