import StorageFlow.Analysis.Run
import StorageFlow.Proofs.Knowledge.Facts

/-!
# StorageFlow.Proofs.Analysis.Invariant

What holds of the knowledge and of the hook's state all along an analysis.

* `Step.state_andThen`, `Step.of_andThen` — steps one after another.
* `Analysis.Invariant` — what is to be shown of a property of the knowledge and a property of the
  hook's state: every change of the knowledge and every call of the hook keeps them.
* `Invariant.analyseStmt`, `Invariant.analyseBlock`, … — then every analysis keeps them, whether
  it comes to its end or is stopped.
* `Analysis.coherent_invariant` — the knowledge stays coherent, whatever the hook does.
-/

namespace StorageFlow

/-! ### Steps one after another -/

namespace Step

variable {σ τ α β : Type}

/-- What both steps keep holds after the two of them. The second step runs only if the first one
came to its end. -/
theorem state_andThen_of {P : σ → Prop} {step : Step σ α} {halted : α → β}
    {next : α → σ → Step σ β} (h : P step.state)
    (hnext : step.error? = none → P step.state → P (next step.node step.state).state) :
    P (step.andThen halted next).state := by
  unfold andThen
  split
  next hdone => exact hnext hdone h
  next => exact h

theorem state_andThen {P : σ → Prop} {step : Step σ α} {halted : α → β}
    {next : α → σ → Step σ β} (h : P step.state)
    (hnext : ∀ a s, P s → P (next a s).state) : P (step.andThen halted next).state :=
  state_andThen_of h fun _ h => hnext _ _ h

/-- What holds of the node of either step holds after the two of them. -/
theorem node_andThen {P : β → Prop} {step : Step σ α} {halted : α → β} {next : α → σ → Step σ β}
    (hhalted : P (halted step.node)) (hnext : P (next step.node step.state).node) :
    P (step.andThen halted next).node := by
  unfold andThen
  split
  · exact hnext
  · exact hhalted

/-- If two steps come to their end, then so does each of them. -/
theorem of_andThen {step : Step σ α} {halted : α → β} {next : α → σ → Step σ β}
    (h : (step.andThen halted next).error? = none) :
    step.error? = none ∧ (next step.node step.state).error? = none ∧
      step.andThen halted next = next step.node step.state := by
  unfold andThen at h ⊢
  split at h
  next hstep => exact ⟨hstep, h, rfl⟩
  next error hstep => cases h

/-- Two steps come to their end if the first one does, and the second one behind it. -/
theorem error?_andThen {step : Step σ α} {halted : α → β} {next : α → σ → Step σ β}
    (h : step.error? = none) (hnext : (next step.node step.state).error? = none) :
    (step.andThen halted next).error? = none := by
  simp only [andThen, h, hnext]

@[simp] theorem node_done (node : α) (state : σ) : (done node state).node = node := rfl

@[simp] theorem state_done (node : α) (state : σ) : (done node state).state = state := rfl

@[simp] theorem error?_done (node : α) (state : σ) : (done node state).error? = none := rfl

@[simp] theorem error?_stopped (node : α) (state : σ) (error : Error) :
    (stopped node state error).error? = some error := rfl

@[simp] theorem node_map (step : Step σ α) (f : α → β) : (step.map f).node = f step.node := rfl

@[simp] theorem state_map (step : Step σ α) (f : α → β) : (step.map f).state = step.state := rfl

@[simp] theorem error?_map (step : Step σ α) (f : α → β) : (step.map f).error? = step.error? :=
  rfl

@[simp] theorem node_mapState (step : Step σ α) (f : σ → τ) : (step.mapState f).node = step.node :=
  rfl

@[simp] theorem state_mapState (step : Step σ α) (f : σ → τ) :
    (step.mapState f).state = f step.state := rfl

@[simp] theorem error?_mapState (step : Step σ α) (f : σ → τ) :
    (step.mapState f).error? = step.error? := rfl

end Step

namespace Analysis

variable {σ : Type} {context : Context} {hook : Hook σ}

/-- A property of the knowledge and a property of the hook's state that hold all along an analysis:
they are kept by each change of the knowledge and by each call of the hook. -/
structure Invariant (context : Context) (hook : Hook σ) (Known : Knowledge → Prop)
    (Kept : σ → Prop) : Prop where
  empty : Known ∅
  clear : ∀ {k} names, Known k → Known (k.clear names)
  assign : ∀ {k} names e, Known k → Known (k.assign context.dialect names e)
  assignZero : ∀ {k} names, Known k → Known (k.assignZero names)
  store : ∀ {k k' slot value}, Known k →
    k.store (context.simplifier k) slot value = .ok k' → Known k'
  joinStorage : ∀ {k} before, Known k → Known (k.joinStorage before)
  forgetStorage : ∀ {k}, Known k → Known k.forgetStorage
  call : ∀ {k scopes e state}, Known k → Kept state →
    Kept (hook ⟨context, k, scopes⟩ e state).state

namespace Invariant

variable {Known : Knowledge → Prop} {Kept : σ → Prop}

/-- Both properties hold of a state. -/
def At (_ : Invariant context hook Known Kept) (s : State σ) : Prop :=
  Known s.knowledge ∧ Kept s.hook

variable (inv : Invariant context hook Known Kept) {s : State σ}

/-! ### Changes of the state -/

theorem at_clear (names : List Name) (h : inv.At s) : inv.At (s.clear names) :=
  ⟨inv.clear names h.1, h.2⟩

theorem at_openScope (isBoundary : Bool) (h : inv.At s) : inv.At (s.openScope isBoundary) := h

theorem at_closeScope (h : inv.At s) : inv.At s.closeScope := by
  unfold State.closeScope
  split
  · exact h
  · exact inv.at_clear _ h

theorem at_declare (names : List Name) (h : inv.At s) : inv.At (s.declare names) := by
  unfold State.declare
  split <;> exact h

theorem at_assign (names : List Name) (e : Expr) (h : inv.At s) :
    inv.At (s.assign context names e) :=
  ⟨inv.assign names e h.1, h.2⟩

theorem at_assignZero (names : List Name) (h : inv.At s) : inv.At (s.assignZero names) :=
  ⟨inv.assignZero names h.1, h.2⟩

theorem at_joinStorage (before : TwoWayMap Name) (h : inv.At s) : inv.At (s.joinStorage before) :=
  ⟨inv.joinStorage before h.1, h.2⟩

theorem at_forgetStorageIf (changed : Bool) (h : inv.At s) :
    inv.At (s.forgetStorageIf changed) := by
  unfold State.forgetStorageIf
  split
  · exact ⟨inv.forgetStorage h.1, h.2⟩
  · exact h

theorem at_leaveCases (cases : List Case) (h : inv.At s) :
    inv.At (leaveCases context cases s) :=
  inv.at_clear _ (inv.at_forgetStorageIf _ h)

theorem at_enterFunction (parameters results : List Name) (h : inv.At s) :
    inv.At (s.enterFunction parameters results) := by
  have hzeroed : ∀ (results : List Name) {s : State σ}, inv.At s →
      inv.At (s.declareResults results) := by
    intro results
    induction results with
    | nil => exact fun h => h
    | cons name results ih =>
        exact fun h => ih (inv.at_assignZero [name] (inv.at_declare [name] h))
  exact hzeroed results (inv.at_declare parameters ⟨inv.empty, h.2⟩)

theorem at_leaveFunction {s outer : State σ} (houter : inv.At outer) (h : inv.At s) :
    inv.At (s.leaveFunction outer.knowledge) :=
  ⟨houter.1, (inv.at_closeScope h).2⟩

/-- A store that fails leaves the state as it was. -/
theorem at_store {α : Type} (node : α) (slot value : Name) (h : inv.At s) :
    inv.At (Step.attempt node s (s.store context slot value)).state := by
  unfold State.store
  cases hstore : s.knowledge.store (context.simplifier s.knowledge) slot value with
  | error e => exact h
  | ok k => exact ⟨inv.store h.1 hstore, h.2⟩

/-! ### Expressions -/

theorem at_callHook (e : Expr) (h : inv.At s) : inv.At (callHook context hook e s).state :=
  ⟨h.1, inv.call h.1 h.2⟩

mutual

theorem analyseExpr : ∀ (e : Expr) {s : State σ}, inv.At s →
    inv.At (analyseExpr context hook e s).state
  | .literal value, _, h => inv.at_callHook (.literal value) h
  | .identifier x, _, h => inv.at_callHook (.identifier x) h
  | .call callee arguments span, _, h =>
      Step.state_andThen (analyseExprs arguments h) fun arguments _ h =>
        inv.at_callHook (.call callee arguments span) h
  | .instruction operator arguments span, _, h =>
      Step.state_andThen (analyseExprs arguments h) fun arguments _ h =>
        inv.at_callHook (.instruction operator arguments span) h

theorem analyseExprs : ∀ (es : List Expr) {s : State σ}, inv.At s →
    inv.At (analyseExprs context hook es s).state
  | [], _, h => h
  | e :: es, _, h => Step.state_andThen (analyseExpr e h) fun _ _ h => analyseExprs es h

end

theorem evaluate (e : Expr) (h : inv.At s) : inv.At (evaluate context hook e s).state :=
  inv.analyseExpr e (inv.at_forgetStorageIf _ h)

/-! ### Statements -/

mutual

theorem analyseStmt : ∀ (stmt : Stmt) {s : State σ}, inv.At s →
    inv.At (analyseStmt context hook stmt s).state
  | .expression e span, _, h => by
      unfold Analysis.analyseStmt
      split
      next slot value _ =>
        exact Step.state_andThen (inv.analyseExpr e h) fun e _ h =>
          inv.at_store (Stmt.expression e span) slot value h
      next => exact inv.evaluate e h
  | .assign targets none span, _, h => h
  | .assign targets (some e) span, _, h =>
      Step.state_andThen (inv.evaluate e h) fun e _ h => inv.at_assign _ e h
  | .declare declared none span, _, h => inv.at_assignZero _ (inv.at_declare _ h)
  | .declare declared (some e) span, _, h =>
      Step.state_andThen (inv.evaluate e (inv.at_declare _ h)) fun e _ h => inv.at_assign _ e h
  | .ifThen condition body span, _, h =>
      Step.state_andThen (inv.analyseExpr condition (inv.at_forgetStorageIf _ h)) fun _ _ h =>
        Step.state_andThen (analyseBlock body h) fun _ _ h =>
          inv.at_clear _ (inv.at_joinStorage _ h)
  | .switch scrutinee cases span, _, h =>
      Step.state_andThen (inv.evaluate scrutinee h) fun _ _ h =>
        Step.state_andThen (analyseCases cases h) fun cases _ h => inv.at_leaveCases cases h
  | .forLoop initial condition post body span, _, h => by
      unfold Analysis.analyseStmt
      split
      · have hhead := inv.at_forgetStorageIf
          (context.loopChangesStorage condition post body)
          (inv.at_clear (body.assigned ++ post.assigned) h)
        refine Step.state_andThen (inv.analyseExpr condition hhead) fun _ _ h => ?_
        refine Step.state_andThen (analyseBlock body h) fun _ _ h => ?_
        refine Step.state_andThen
          (analyseBlock post (inv.at_forgetStorageIf _ (inv.at_clear _ h))) fun _ _ h => ?_
        exact inv.at_forgetStorageIf _ (inv.at_clear _ h)
      · exact h
  | .function name parameters results body span, _, h =>
      inv.at_leaveFunction h (analyseBlock body (inv.at_enterFunction _ _ h))
  | .breakLoop span, _, h => h
  | .continueLoop span, _, h => h
  | .block body, _, h => analyseBlock body h

theorem analyseStmts : ∀ (stmts : List Stmt) {s : State σ}, inv.At s →
    inv.At (analyseStmts context hook stmts s).state
  | [], _, h => h
  | stmt :: stmts, _, h =>
      Step.state_andThen (analyseStmt stmt h) fun _ _ h => analyseStmts stmts h

theorem analyseCase : ∀ (case : Case) {s : State σ}, inv.At s →
    inv.At (analyseCase context hook case s).state
  | ⟨_, body, _⟩, _, h =>
      Step.state_andThen (analyseBlock body h) fun _ _ h =>
        inv.at_forgetStorageIf _ (inv.at_clear _ (inv.at_joinStorage _ h))

theorem analyseCases : ∀ (cases : List Case) {s : State σ}, inv.At s →
    inv.At (analyseCases context hook cases s).state
  | [], _, h => h
  | case :: cases, _, h =>
      Step.state_andThen (analyseCase case h) fun _ _ h => analyseCases cases h

theorem analyseBlock : ∀ (block : Block) {s : State σ}, inv.At s →
    inv.At (analyseBlock context hook block s).state
  | ⟨stmts, _⟩, _, h => inv.at_closeScope (analyseStmts stmts (inv.at_openScope false h))

end

end Invariant

/-- The knowledge stays coherent, whatever the hook does. -/
theorem coherent_invariant (context : Context) (hook : Hook σ) :
    Invariant context hook (Knowledge.Coherent context.dialect) fun _ => True where
  empty := Knowledge.coherent_empty
  clear names h := h.clear names
  assign names e h := h.assign names e
  assignZero names h := h.assignZero names
  store h hstore := h.store hstore
  joinStorage before h := h.joinStorage before
  forgetStorage h := h.forgetStorage
  call _ _ := trivial

section Coherent

variable {s : State σ}

theorem coherent_analyseStmt (stmt : Stmt) (h : s.knowledge.Coherent context.dialect) :
    (analyseStmt context hook stmt s).state.knowledge.Coherent context.dialect :=
  ((coherent_invariant context hook).analyseStmt stmt ⟨h, trivial⟩).1

theorem coherent_analyseStmts (stmts : List Stmt) (h : s.knowledge.Coherent context.dialect) :
    (analyseStmts context hook stmts s).state.knowledge.Coherent context.dialect :=
  ((coherent_invariant context hook).analyseStmts stmts ⟨h, trivial⟩).1

theorem coherent_analyseCase (case : Case) (h : s.knowledge.Coherent context.dialect) :
    (analyseCase context hook case s).state.knowledge.Coherent context.dialect :=
  ((coherent_invariant context hook).analyseCase case ⟨h, trivial⟩).1

theorem coherent_analyseBlock (block : Block) (h : s.knowledge.Coherent context.dialect) :
    (analyseBlock context hook block s).state.knowledge.Coherent context.dialect :=
  ((coherent_invariant context hook).analyseBlock block ⟨h, trivial⟩).1

theorem coherent_forgetStorageIf (changed : Bool) (h : s.knowledge.Coherent context.dialect) :
    (s.forgetStorageIf changed).knowledge.Coherent context.dialect :=
  ((coherent_invariant context (.idle : Hook σ)).at_forgetStorageIf changed ⟨h, trivial⟩).1

theorem coherent_enterFunction (parameters results : List Name)
    (h : s.knowledge.Coherent context.dialect) :
    (s.enterFunction parameters results).knowledge.Coherent context.dialect :=
  ((coherent_invariant context (.idle : Hook σ)).at_enterFunction parameters results
    ⟨h, trivial⟩).1

end Coherent

end Analysis

end StorageFlow
