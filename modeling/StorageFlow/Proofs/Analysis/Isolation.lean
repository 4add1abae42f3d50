import StorageFlow.Proofs.Analysis.Recorded

/-!
# StorageFlow.Proofs.Analysis.Isolation

What an analysis depends on.

* `Hook.Refines` — a hook with a richer state that does the same; `Hook.recorded` is one.
* `State.inside` — a state inside more scopes. Scopes behind the boundary of a function are out of
  sight (`Hides`), and an analysis neither reads nor changes them: `analyseBlock_inside`.
* `run_recorded` — recording the calls of a hook changes nothing else.
* `analyseStmt_function_eq` — a function is analysed as on its own; from the state around it comes
  nothing but the state of the hook.
* `function_isolated` — so two analyses of a function agree, whatever is around it.
-/

namespace StorageFlow

variable {σ τ : Type}

/-! ### Steps that differ in their state only -/

namespace Step

variable {α β : Type} {F : τ → σ}

/-- If the parts of two steps differ by `F` in their states, then so do the steps. -/
theorem andThen_mapState {step : Step τ α} {step' : Step σ α} {halted : α → β}
    {next : α → τ → Step τ β} {next' : α → σ → Step σ β} (hstep : step' = step.mapState F)
    (hnext : next' step.node (F step.state) = (next step.node step.state).mapState F) :
    step'.andThen halted next' = (step.andThen halted next).mapState F := by
  subst hstep
  unfold andThen
  simp only [error?_mapState, node_mapState, state_mapState]
  cases step.error? with
  | none => exact hnext
  | some error => rfl

theorem attempt_mapState {node : α} {state : τ} (result : Except Error τ) :
    attempt node (F state) (result.map F) = (attempt node state result).mapState F := by
  cases result <;> rfl

/-- A test of the state stops both steps or none. -/
theorem attempt_test_mapState {node : α} {state : τ} (verdict : Except Error Unit) :
    attempt node (F state) (verdict.map fun _ => F state) =
      (attempt node state (verdict.map fun _ => state)).mapState F := by
  cases verdict <;> rfl

end Step

/-! ### Hooks with a richer state -/

/-- The hook does what another one does on a part of its state. -/
def Hook.Refines (f : τ → σ) (hook' : Hook τ) (hook : Hook σ) : Prop :=
  ∀ view e state, (hook' view e state).mapState f = hook view e (f state)

theorem Hook.refines_self (hook : Hook σ) : Hook.Refines id hook hook :=
  fun _ _ _ => rfl

theorem Hook.refines_recorded (hook : Hook σ) : Hook.Refines Prod.fst hook.recorded hook :=
  fun _ _ _ => rfl

namespace Analysis

/-! ### Scopes that are out of sight -/

/-- No scope is behind the given ones, or one of them is the boundary of a function. -/
def Hides (scopes outer : List Scope) : Prop :=
  outer = [] ∨ scopes.any Scope.isBoundary = true

theorem visibleScopes_append {scopes outer : List Scope} (h : Hides scopes outer) :
    visibleScopes (scopes ++ outer) = visibleScopes scopes := by
  rcases h with rfl | hboundary
  · rw [List.append_nil]
  · induction scopes with
    | nil => simp at hboundary
    | cons scope scopes ih =>
        rw [List.cons_append, visibleScopes, visibleScopes]
        cases hscope : scope.isBoundary with
        | true => rfl
        | false =>
            rw [List.any_cons, hscope, Bool.false_or] at hboundary
            rw [ih hboundary]

theorem hides_addNames {names : List Name} {scopes outer : List Scope} :
    Hides (addNames names scopes) outer ↔ Hides scopes outer := by
  cases scopes <;> rfl

theorem Hides.cons {scopes outer : List Scope} (h : Hides scopes outer) (scope : Scope) :
    Hides (scope :: scopes) outer := by
  refine h.imp_right fun hboundary => ?_
  rw [List.any_cons, hboundary, Bool.or_true]

/-! ### A state inside more scopes -/

namespace State

variable {f : τ → σ} {outer : List Scope} {s : State τ}

/-- The state inside more scopes, as a hook sees it that knows a part of the hook's state. -/
def inside (s : State τ) (f : τ → σ) (outer : List Scope) : State σ :=
  ⟨s.knowledge, s.scopes ++ outer, f s.hook⟩

theorem view_inside (h : Hides s.scopes outer) (context : Context) :
    (s.inside f outer).view context = s.view context := by
  simp only [view, inside, visibleScopes_append h]

theorem clear_inside (names : List Name) :
    (s.inside f outer).clear names = (s.clear names).inside f outer := rfl

theorem joinStorage_inside (before : TwoWayMap Name) :
    (s.inside f outer).joinStorage before = (s.joinStorage before).inside f outer := rfl

theorem forgetStorageIf_inside (changed : Bool) :
    (s.inside f outer).forgetStorageIf changed = (s.forgetStorageIf changed).inside f outer := by
  cases changed <;> rfl

/-- A scope that is open takes the names, or there is none to take them. -/
theorem declare_inside (h : Hides s.scopes outer) (names : List Name) :
    (s.inside f outer).declare names = (s.declare names).inside f outer := by
  obtain ⟨knowledge, scopes, state⟩ := s
  cases scopes with
  | cons scope scopes => rfl
  | nil =>
      obtain rfl : outer = [] := by simpa [Hides] using h
      rfl

theorem closeScope_inside (h : Hides s.scopes outer) :
    (s.inside f outer).closeScope = s.closeScope.inside f outer := by
  obtain ⟨knowledge, scopes, state⟩ := s
  cases scopes with
  | cons scope scopes => rfl
  | nil =>
      obtain rfl : outer = [] := by simpa [Hides] using h
      rfl

theorem declareResults_inside (h : Hides s.scopes outer) (results : List Name) :
    (s.inside f outer).declareResults results = (s.declareResults results).inside f outer := by
  induction results generalizing s with
  | nil => rfl
  | cons name results ih =>
      have hdeclared : Hides ((s.declare [name]).assignZero [name]).scopes outer := by
        rw [scopes_assignZero, scopes_declare]
        exact hides_addNames.2 h
      rw [declareResults, List.foldl_cons, declare_inside h]
      exact ih hdeclared

/-- Inside a function nothing is left of the state around it but the state of the hook. -/
theorem enterFunction_inside (parameters results : List Name) :
    (s.inside f outer).enterFunction parameters results =
      (s.enterFunction parameters results).inside f outer := by
  have hopened : Hides (({ s with knowledge := ∅ } : State τ).openScope true).scopes outer :=
    .inr rfl
  have hdeclared := declare_inside (f := f) hopened parameters
  rw [enterFunction, enterFunction, ← declareResults_inside, ← hdeclared]
  · rfl
  · rw [scopes_declare]
    exact hides_addNames.2 hopened

theorem mapState_closeScope_inside {α : Type} {step : Step (State τ) α}
    (h : Hides step.state.scopes outer) :
    (step.mapState (·.inside f outer)).mapState closeScope =
      (step.mapState closeScope).mapState (·.inside f outer) := by
  simp only [Step.mapState, closeScope_inside h]

theorem mapState_leaveFunction_inside {α : Type} {step : Step (State τ) α}
    (h : Hides step.state.scopes outer) (knowledge : Knowledge) :
    (step.mapState (·.inside f outer)).mapState (·.leaveFunction knowledge) =
      (step.mapState (·.leaveFunction knowledge)).mapState (·.inside f outer) := by
  simp only [Step.mapState, leaveFunction, closeScope_inside h]
  rfl

theorem store_inside (context : Context) (slot value : Name) :
    (s.inside f outer).store context slot value =
      (s.store context slot value).map (·.inside f outer) := by
  unfold store
  show (do let k ← s.knowledge.store (context.simplifier s.knowledge) slot value; _) = _
  cases s.knowledge.store (context.simplifier s.knowledge) slot value <;> rfl

end State

/-! ### The analysis inside more scopes -/

section Inside

variable {context : Context} {hook : Hook σ} {hook' : Hook τ} {f : τ → σ} {outer : List Scope}

theorem callHook_inside (hrefines : Hook.Refines f hook' hook) (e : Expr) {s : State τ}
    (h : Hides s.scopes outer) :
    callHook context hook e (s.inside f outer) =
      (callHook context hook' e s).mapState (·.inside f outer) := by
  unfold callHook
  rw [State.view_inside h]
  show (hook _ e (f s.hook)).mapState _ = _
  rw [← hrefines]
  rfl

mutual

theorem analyseExpr_inside (hrefines : Hook.Refines f hook' hook) : ∀ (e : Expr) {s : State τ},
    Hides s.scopes outer →
      analyseExpr context hook e (s.inside f outer) =
        (analyseExpr context hook' e s).mapState (·.inside f outer)
  | .literal _, _, h => callHook_inside hrefines _ h
  | .identifier _, _, h => callHook_inside hrefines _ h
  | .call _ arguments _, _, h => by
      unfold analyseExpr
      refine Step.andThen_mapState (analyseExprs_inside hrefines arguments h) ?_
      exact callHook_inside hrefines _ (by rwa [scopes_analyseExprs])
  | .instruction _ arguments _, _, h => by
      unfold analyseExpr
      refine Step.andThen_mapState (analyseExprs_inside hrefines arguments h) ?_
      exact callHook_inside hrefines _ (by rwa [scopes_analyseExprs])

theorem analyseExprs_inside (hrefines : Hook.Refines f hook' hook) : ∀ (es : List Expr)
    {s : State τ}, Hides s.scopes outer →
      analyseExprs context hook es (s.inside f outer) =
        (analyseExprs context hook' es s).mapState (·.inside f outer)
  | [], _, _ => rfl
  | e :: es, _, h => by
      refine Step.andThen_mapState (analyseExpr_inside hrefines e h) ?_
      rw [analyseExprs_inside hrefines es (by rwa [scopes_analyseExpr])]
      rfl

end

theorem evaluate_inside (hrefines : Hook.Refines f hook' hook) (e : Expr) {s : State τ}
    (h : Hides s.scopes outer) :
    evaluate context hook e (s.inside f outer) =
      (evaluate context hook' e s).mapState (·.inside f outer) := by
  unfold evaluate
  rw [State.forgetStorageIf_inside]
  exact analyseExpr_inside hrefines e (by rwa [State.scopes_forgetStorageIf])

mutual

theorem analyseStmt_inside (hrefines : Hook.Refines f hook' hook) : ∀ (stmt : Stmt) {s : State τ},
    Hides s.scopes outer →
      analyseStmt context hook stmt (s.inside f outer) =
        (analyseStmt context hook' stmt s).mapState (·.inside f outer)
  | .expression e _, s, h => by
      unfold analyseStmt
      split
      next slot value _ =>
        refine Step.andThen_mapState (analyseExpr_inside hrefines e h) ?_
        rw [State.store_inside]
        exact Step.attempt_mapState _
      next =>
        rw [evaluate_inside hrefines e h]
        rfl
  | .assign _ none _, _, _ => rfl
  | .assign _ (some e) _, _, h => by
      unfold analyseStmt
      exact Step.andThen_mapState (evaluate_inside hrefines e h) rfl
  | .declare declared none _, s, h => by
      unfold analyseStmt
      dsimp only
      rw [State.declare_inside h]
      rfl
  | .declare declared (some e) _, s, h => by
      unfold analyseStmt
      dsimp only
      have hdeclared : Hides (s.declare (declared.map Binder.name)).scopes outer := by
        rw [State.scopes_declare]
        exact hides_addNames.2 h
      rw [State.declare_inside h]
      exact Step.andThen_mapState (evaluate_inside hrefines e hdeclared) rfl
  | .ifThen condition body _, s, h => by
      unfold analyseStmt
      dsimp only
      rw [State.forgetStorageIf_inside]
      refine Step.andThen_mapState (analyseExpr_inside hrefines condition ?_) ?_
      · rwa [State.scopes_forgetStorageIf]
      · refine Step.andThen_mapState (analyseBlock_inside hrefines body ?_) rfl
        rwa [scopes_analyseExpr, State.scopes_forgetStorageIf]
  | .switch scrutinee cases _, s, h => by
      unfold analyseStmt
      refine Step.andThen_mapState (evaluate_inside hrefines scrutinee h) ?_
      refine Step.andThen_mapState (analyseCases_inside hrefines cases ?_) ?_
      · rwa [scopes_evaluate]
      · unfold leaveCases
        rw [State.forgetStorageIf_inside]
        rfl
  | .forLoop initial condition post body _, s, h => by
      unfold analyseStmt
      split
      · simp only [State.clear_inside, State.forgetStorageIf_inside]
        -- condition, body and post block, none of which changes the scopes
        refine Step.andThen_mapState (analyseExpr_inside hrefines condition ?_) ?_
        · rwa [State.scopes_forgetStorageIf]
        refine Step.andThen_mapState (analyseBlock_inside hrefines body ?_) ?_
        · rwa [scopes_analyseExpr, State.scopes_forgetStorageIf]
        simp only [State.clear_inside, State.forgetStorageIf_inside]
        refine Step.andThen_mapState (analyseBlock_inside hrefines post ?_) ?_
        · rwa [State.scopes_forgetStorageIf, State.scopes_clear, analyseBlock_scopes,
            scopes_analyseExpr, State.scopes_forgetStorageIf]
        simp only [State.clear_inside, State.forgetStorageIf_inside]
        rfl
      · rfl
  | .function _ parameters results body _, s, h => by
      unfold analyseStmt
      dsimp only
      have hentered : Hides (s.enterFunction (parameters.map Binder.name)
          (results.map Binder.name)).scopes outer := by
        rw [State.scopes_enterFunction]
        exact hides_addNames.2 (h.cons _)
      have hbody : Hides (analyseBlock context hook' body (s.enterFunction
          (parameters.map Binder.name) (results.map Binder.name))).state.scopes outer := by
        rwa [analyseBlock_scopes]
      rw [State.enterFunction_inside, analyseBlock_inside hrefines body hentered]
      exact congrArg (Step.map · _) (State.mapState_leaveFunction_inside hbody s.knowledge)
  | .breakLoop _, _, _ => rfl
  | .continueLoop _, _, _ => rfl
  | .block body, _, h => by
      unfold analyseStmt
      rw [analyseBlock_inside hrefines body h]
      rfl

theorem analyseStmts_inside (hrefines : Hook.Refines f hook' hook) : ∀ (stmts : List Stmt)
    {s : State τ}, Hides s.scopes outer →
      analyseStmts context hook stmts (s.inside f outer) =
        (analyseStmts context hook' stmts s).mapState (·.inside f outer)
  | [], _, _ => rfl
  | stmt :: stmts, s, h => by
      refine Step.andThen_mapState (analyseStmt_inside hrefines stmt h) ?_
      obtain ⟨names, hscopes, _⟩ : ∃ names,
          (analyseStmt context hook' stmt s).state.scopes = addNames names s.scopes ∧ _ :=
        analyseStmt_scopes stmt s
      rw [analyseStmts_inside hrefines stmts (by rw [hscopes]; exact hides_addNames.2 h)]
      rfl

theorem analyseCases_inside (hrefines : Hook.Refines f hook' hook) : ∀ (cases : List Case)
    {s : State τ}, Hides s.scopes outer →
      analyseCases context hook cases (s.inside f outer) =
        (analyseCases context hook' cases s).mapState (·.inside f outer)
  | [], _, _ => rfl
  | ⟨value?, body, span⟩ :: cases, s, h => by
      have hfirst : analyseCase context hook ⟨value?, body, span⟩ (s.inside f outer) =
          (analyseCase context hook' ⟨value?, body, span⟩ s).mapState (·.inside f outer) := by
        unfold analyseCase
        refine Step.andThen_mapState (analyseBlock_inside hrefines body h) ?_
        simp only [State.joinStorage_inside, State.clear_inside, State.forgetStorageIf_inside]
        rfl
      refine Step.andThen_mapState hfirst ?_
      have hscopes : (analyseCase context hook' ⟨value?, body, span⟩ s).state.scopes = s.scopes :=
        scopes_andThen (analyseBlock_scopes body s)
          fun _ _ hs => (State.scopes_forgetStorageIf _).trans hs
      rw [analyseCases_inside hrefines cases (by rwa [hscopes])]
      rfl

/-- An analysis neither reads nor changes the scopes that are out of sight, and a hook that refines
another one does the same. -/
theorem analyseBlock_inside (hrefines : Hook.Refines f hook' hook) : ∀ (block : Block)
    {s : State τ}, Hides s.scopes outer →
      analyseBlock context hook block (s.inside f outer) =
        (analyseBlock context hook' block s).mapState (·.inside f outer)
  | ⟨stmts, _⟩, s, h => by
      have hopened : Hides (s.openScope false).scopes outer := h.cons _
      unfold analyseBlock
      dsimp only
      rw [show (s.inside f outer).openScope false = (s.openScope false).inside f outer from rfl,
        analyseStmts_inside hrefines stmts hopened]
      obtain ⟨names, hscopes, _⟩ : ∃ names,
          (analyseStmts context hook' stmts (s.openScope false)).state.scopes =
            addNames names (s.openScope false).scopes ∧ _ :=
        analyseStmts_scopes stmts (s.openScope false)
      have hclose : Hides (analyseStmts context hook' stmts (s.openScope false)).state.scopes
          outer := by
        rw [hscopes]
        exact hides_addNames.2 hopened
      exact congrArg (Step.map · _) (State.mapState_closeScope_inside hclose)

end

/-- A run with a hook that refines another one does the same. -/
theorem run_inside (hrefines : Hook.Refines f hook' hook) (program : Block) (s : State τ) :
    run context hook program (s.inside f []) =
      (run context hook' program s).mapState (·.inside f []) := by
  rw [run_eq, run_eq]
  refine Step.andThen_mapState (analyseBlock_inside hrefines program (.inl rfl)) ?_
  exact Step.attempt_test_mapState (F := (State.inside · f [])) _

end Inside

/-! ### The calls of a hook -/

section Calls

variable (context : Context) (hook : Hook σ)

/-- The calls of the hook in the analysis of a statement. -/
def stmtCalls (stmt : Stmt) (s : State σ) : Hook.Log :=
  (analyseStmt context hook.recorded stmt (s.withHook (s.hook, []))).state.hook.2

/-- The calls of the hook in a run. -/
def runCalls (program : Block) (s : State σ) : Hook.Log :=
  (run context hook.recorded program (s.withHook (s.hook, []))).state.hook.2

variable {context hook}

theorem inside_withHook (s : State σ) (log : Hook.Log) :
    (s.withHook (s.hook, log)).inside Prod.fst [] = s := by
  simp only [State.inside, State.withHook, List.append_nil]

/-- Recording the calls changes nothing else in a run. -/
theorem run_recorded (program : Block) (s : State σ) (log : Hook.Log) :
    run context hook program s =
      (run context hook.recorded program (s.withHook (s.hook, log))).mapState
        (·.inside Prod.fst []) := by
  have hrun : run context hook program ((s.withHook (s.hook, log)).inside Prod.fst []) = _ :=
    run_inside hook.refines_recorded program _
  rwa [inside_withHook] at hrun

end Calls

/-! ### Functions -/

section Functions

variable {context : Context} {hook : Hook σ} {name : Name} {parameters results : List Binder}
  {body : Block} {span : Span}

theorem leaveFunction_eq (s : State σ) (knowledge : Knowledge) :
    s.leaveFunction knowledge = ⟨knowledge, s.scopes.tail, s.hook⟩ := by
  obtain ⟨_, scopes, _⟩ := s
  cases scopes <;> rfl

/-- A function is analysed as on its own: only the state of the hook goes in and comes out. -/
theorem analyseStmt_function_eq (s : State σ) :
    analyseStmt context hook (.function name parameters results body span) s =
      ((analyseBlock context hook body ((State.initial s.hook).enterFunction
          (parameters.map Binder.name) (results.map Binder.name))).mapState
        fun inner => { s with hook := inner.hook }).map
          (.function name parameters results · span) := by
  have hentered : s.enterFunction (parameters.map Binder.name) (results.map Binder.name) =
      ((State.initial s.hook).enterFunction (parameters.map Binder.name)
        (results.map Binder.name)).inside id s.scopes := by
    rw [← State.enterFunction_inside]
    rfl
  have hscopes := State.scopes_enterFunction (s := State.initial s.hook)
    (parameters.map Binder.name) (results.map Binder.name)
  have hboundary : Hides ((State.initial s.hook).enterFunction (parameters.map Binder.name)
      (results.map Binder.name)).scopes s.scopes := by
    rw [hscopes]
    exact hides_addNames.2 (.inr rfl)
  unfold analyseStmt
  dsimp only
  rw [hentered, analyseBlock_inside hook.refines_self body hboundary]
  -- the scope that is closed is the one that was opened for the parameters
  simp only [Step.mapState, Step.map, leaveFunction_eq, State.inside, analyseBlock_scopes, hscopes]
  rfl

/-- Functions are isolated. Whatever is known and whichever scopes are open in front of a function,
its analysis makes the same of it, ends or stops the same way, and shows the same to the hook at
each call: what is known, what is visible, and the settings, on which all answers about equal and
different variables depend. Behind it, also behind an error, what is known and which scopes are open
is what it was before. -/
theorem function_isolated (context : Context) (hook : Hook σ) (name : Name)
    (parameters results : List Binder) (body : Block) (span : Span) (state : σ)
    (k k' : Knowledge) (scopes scopes' : List Scope) :
    let definition := Stmt.function name parameters results body span
    let first := analyseStmt context hook definition ⟨k, scopes, state⟩
    let second := analyseStmt context hook definition ⟨k', scopes', state⟩
    first.error? = second.error? ∧ first.node = second.node ∧
      stmtCalls context hook definition ⟨k, scopes, state⟩ =
        stmtCalls context hook definition ⟨k', scopes', state⟩ ∧
      first.state.hook = second.state.hook ∧
      (first.state.knowledge = k ∧ first.state.scopes = scopes) ∧
      (second.state.knowledge = k' ∧ second.state.scopes = scopes') := by
  intro definition first second
  have hfirst : first = _ := analyseStmt_function_eq ⟨k, scopes, state⟩
  have hsecond : second = _ := analyseStmt_function_eq ⟨k', scopes', state⟩
  have hcalls : stmtCalls context hook definition ⟨k, scopes, state⟩ =
      stmtCalls context hook definition ⟨k', scopes', state⟩ := by
    simp only [stmtCalls, definition, analyseStmt_function_eq, Step.state_map, Step.state_mapState]
    rfl
  rw [hfirst, hsecond]
  exact ⟨rfl, rfl, hcalls, rfl, ⟨rfl, rfl⟩, ⟨rfl, rfl⟩⟩

end Functions

end Analysis

end StorageFlow
