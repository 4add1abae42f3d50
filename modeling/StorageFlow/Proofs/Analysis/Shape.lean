import StorageFlow.Proofs.Analysis.Invariant

/-!
# StorageFlow.Proofs.Analysis.Shape

What an analysis leaves alone.

* `analyseExpr_state` — an expression changes the state of the hook only.
* `analyseStmts_scopes`, `analyseBlock_scopes` — statements add the names that they declare to the
  innermost scope, and a block leaves the scopes as they were, also if the analysis is stopped.
-/

namespace StorageFlow.Analysis

variable {σ : Type} {context : Context} {hook : Hook σ}

/-! ### Expressions -/

mutual

theorem analyseExpr_state : ∀ (e : Expr) (s : State σ),
    ∃ state, (analyseExpr context hook e s).state = { s with hook := state }
  | .literal _, _ => ⟨_, rfl⟩
  | .identifier _, _ => ⟨_, rfl⟩
  | .call _ arguments _, s =>
      Step.state_andThen (P := fun s' => ∃ state, s' = { s with hook := state })
        (analyseExprs_state arguments s) fun _ _ ⟨_, h⟩ => h ▸ ⟨_, rfl⟩
  | .instruction _ arguments _, s =>
      Step.state_andThen (P := fun s' => ∃ state, s' = { s with hook := state })
        (analyseExprs_state arguments s) fun _ _ ⟨_, h⟩ => h ▸ ⟨_, rfl⟩

theorem analyseExprs_state : ∀ (es : List Expr) (s : State σ),
    ∃ state, (analyseExprs context hook es s).state = { s with hook := state }
  | [], _ => ⟨_, rfl⟩
  | e :: es, s =>
      Step.state_andThen (P := fun s' => ∃ state, s' = { s with hook := state })
        (analyseExpr_state e s) fun _ _ ⟨_, h⟩ =>
          h ▸ (analyseExprs_state es _).imp fun _ h => h

end

@[simp] theorem knowledge_analyseExpr (e : Expr) (s : State σ) :
    (analyseExpr context hook e s).state.knowledge = s.knowledge := by
  have ⟨_, h⟩ : ∃ state, (analyseExpr context hook e s).state = { s with hook := state } :=
    analyseExpr_state e s
  rw [h]

@[simp] theorem scopes_analyseExpr (e : Expr) (s : State σ) :
    (analyseExpr context hook e s).state.scopes = s.scopes := by
  have ⟨_, h⟩ : ∃ state, (analyseExpr context hook e s).state = { s with hook := state } :=
    analyseExpr_state e s
  rw [h]

@[simp] theorem knowledge_analyseExprs (es : List Expr) (s : State σ) :
    (analyseExprs context hook es s).state.knowledge = s.knowledge := by
  have ⟨_, h⟩ : ∃ state, (analyseExprs context hook es s).state = { s with hook := state } :=
    analyseExprs_state es s
  rw [h]

@[simp] theorem scopes_analyseExprs (es : List Expr) (s : State σ) :
    (analyseExprs context hook es s).state.scopes = s.scopes := by
  have ⟨_, h⟩ : ∃ state, (analyseExprs context hook es s).state = { s with hook := state } :=
    analyseExprs_state es s
  rw [h]

/-! ### Scopes -/

/-- The scopes with more names in the innermost one. -/
def addNames (names : List Name) : List Scope → List Scope
  | [] => []
  | scope :: outer => { scope with names := scope.names.insertMany names } :: outer

@[simp] theorem addNames_nil (scopes : List Scope) : addNames [] scopes = scopes := by
  cases scopes with
  | nil => rfl
  | cons scope outer => rw [addNames, Std.ExtTreeSet.insertMany_nil]

theorem addNames_append (names more : List Name) (scopes : List Scope) :
    addNames (names ++ more) scopes = addNames more (addNames names scopes) := by
  cases scopes with
  | nil => rfl
  | cons scope outer => simp only [addNames, Std.ExtTreeSet.insertMany_append]

namespace State

variable {s : State σ}

@[simp] theorem scopes_declare (names : List Name) :
    (s.declare names).scopes = addNames names s.scopes := by
  unfold declare
  split
  next h => rw [h, addNames]
  next h => rw [h, addNames]

@[simp] theorem scopes_clear (names : List Name) : (s.clear names).scopes = s.scopes := rfl

@[simp] theorem scopes_assign (names : List Name) (e : Expr) :
    (s.assign context names e).scopes = s.scopes := rfl

@[simp] theorem scopes_assignZero (names : List Name) : (s.assignZero names).scopes = s.scopes :=
  rfl

@[simp] theorem scopes_joinStorage (before : TwoWayMap Name) :
    (s.joinStorage before).scopes = s.scopes := rfl

@[simp] theorem scopes_forgetStorageIf (changed : Bool) :
    (s.forgetStorageIf changed).scopes = s.scopes := by
  unfold forgetStorageIf
  split <;> rfl

@[simp] theorem scopes_closeScope : s.closeScope.scopes = s.scopes.tail := by
  unfold closeScope
  split
  next h => rw [h, List.tail_nil]
  next h => rw [h, List.tail_cons, scopes_clear]

@[simp] theorem tail_addNames (names : List Name) (scopes : List Scope) :
    (addNames names scopes).tail = scopes.tail := by
  cases scopes <;> rfl

theorem scopes_declareResults (results : List Name) (s : State σ) :
    (s.declareResults results).scopes = addNames results s.scopes := by
  induction results generalizing s with
  | nil => exact (addNames_nil s.scopes).symm
  | cons name results ih =>
      rw [declareResults, List.foldl_cons, ← declareResults, ih, scopes_assignZero,
        scopes_declare, ← addNames_append, List.singleton_append]

/-- The scopes inside a function: its own names behind a boundary. -/
theorem scopes_enterFunction (parameters results : List Name) :
    (s.enterFunction parameters results).scopes =
      addNames (parameters ++ results) (⟨∅, true⟩ :: s.scopes) := by
  rw [enterFunction, scopes_declareResults, scopes_declare, ← addNames_append]
  rfl

end State

/-- Steps that leave the scopes alone leave them alone one after another. -/
theorem scopes_andThen {α β : Type} {step : Step (State σ) α} {halted : α → β}
    {next : α → State σ → Step (State σ) β} {scopes : List Scope} (h : step.state.scopes = scopes)
    (hnext : ∀ a (s : State σ), s.scopes = scopes → (next a s).state.scopes = scopes) :
    (step.andThen halted next).state.scopes = scopes :=
  Step.state_andThen (P := fun s : State σ => s.scopes = scopes) h hnext

theorem scopes_attempt_store {α : Type} (node : α) (s : State σ) (slot value : Name) :
    (Step.attempt node s (s.store context slot value)).state.scopes = s.scopes := by
  unfold State.store
  cases s.knowledge.store (context.simplifier s.knowledge) slot value <;> rfl

mutual

theorem analyseStmt_scopes : ∀ (stmt : Stmt) (s : State σ),
    ∃ names, (analyseStmt context hook stmt s).state.scopes = addNames names s.scopes ∧
      ((analyseStmt context hook stmt s).error? = none → names = stmt.declared)
  | .expression e span, s => by
      refine ⟨[], ?_, fun _ => rfl⟩
      rw [addNames_nil]
      unfold analyseStmt
      split
      · exact scopes_andThen (scopes_analyseExpr e s) fun _ s' h =>
          (scopes_attempt_store _ s' _ _).trans h
      · exact (scopes_analyseExpr e _).trans (State.scopes_forgetStorageIf _)
  | .assign _ none _, s => ⟨[], (addNames_nil s.scopes).symm, fun _ => rfl⟩
  | .assign _ (some e) _, s => by
      refine ⟨[], ?_, fun _ => rfl⟩
      rw [addNames_nil]
      exact scopes_andThen ((scopes_analyseExpr e _).trans (State.scopes_forgetStorageIf _))
        fun _ _ h => h
  | .declare declared none _, s => ⟨declared.map Binder.name, State.scopes_declare _, fun _ => rfl⟩
  | .declare declared (some e) _, s => by
      refine ⟨declared.map Binder.name, ?_, fun _ => rfl⟩
      exact scopes_andThen ((scopes_analyseExpr e _).trans
          ((State.scopes_forgetStorageIf _).trans (State.scopes_declare _))) fun _ _ h => h
  | .ifThen condition body _, s => by
      refine ⟨[], ?_, fun _ => rfl⟩
      rw [addNames_nil]
      refine scopes_andThen
        ((scopes_analyseExpr condition _).trans (State.scopes_forgetStorageIf _)) fun _ s' h => ?_
      exact scopes_andThen ((analyseBlock_scopes body s').trans h) fun _ _ h => h
  | .switch scrutinee cases _, s => by
      refine ⟨[], ?_, fun _ => rfl⟩
      rw [addNames_nil]
      refine scopes_andThen
        ((scopes_analyseExpr scrutinee _).trans (State.scopes_forgetStorageIf _)) fun _ s' h => ?_
      refine scopes_andThen ((analyseCases_scopes cases s').trans h) fun _ s' h => ?_
      exact (State.scopes_forgetStorageIf _).trans h
  | .forLoop initial condition post body _, s => by
      refine ⟨[], ?_, fun _ => rfl⟩
      rw [addNames_nil]
      unfold analyseStmt
      split
      · refine scopes_andThen
          ((scopes_analyseExpr condition _).trans (State.scopes_forgetStorageIf _))
          fun _ s' h => ?_
        refine scopes_andThen ((analyseBlock_scopes body s').trans h) fun _ s' h => ?_
        refine scopes_andThen
          ((analyseBlock_scopes post _).trans ((State.scopes_forgetStorageIf _).trans h))
          fun _ s' h => ?_
        exact (State.scopes_forgetStorageIf _).trans h
      · rfl
  | .function _ parameters results body _, s => by
      refine ⟨[], ?_, fun _ => rfl⟩
      have hbody := analyseBlock_scopes body
        (s.enterFunction (parameters.map Binder.name) (results.map Binder.name))
      rw [addNames_nil]
      -- the scope that is closed is the one that was opened for the parameters
      show (State.closeScope _).scopes = s.scopes
      rw [State.scopes_closeScope, hbody, State.scopes_enterFunction, State.tail_addNames,
        List.tail_cons]
  | .breakLoop _, s => ⟨[], (addNames_nil s.scopes).symm, fun _ => rfl⟩
  | .continueLoop _, s => ⟨[], (addNames_nil s.scopes).symm, fun _ => rfl⟩
  | .block body, s => ⟨[], (analyseBlock_scopes body s).trans (addNames_nil s.scopes).symm,
      fun _ => rfl⟩

theorem analyseStmts_scopes : ∀ (stmts : List Stmt) (s : State σ),
    ∃ names, (analyseStmts context hook stmts s).state.scopes = addNames names s.scopes ∧
      ((analyseStmts context hook stmts s).error? = none → names = Stmt.declaredAll stmts)
  | [], s => ⟨[], (addNames_nil s.scopes).symm, fun _ => rfl⟩
  | stmt :: stmts, s => by
      obtain ⟨names, hscopes, hnames⟩ := analyseStmt_scopes stmt s
      cases herror : (analyseStmt context hook stmt s).error? with
      | none =>
          obtain ⟨more, hmore, hdeclared⟩ :=
            analyseStmts_scopes stmts (analyseStmt context hook stmt s).state
          refine ⟨names ++ more, ?_, ?_⟩
          · simp only [analyseStmts, Step.andThen, herror, Step.state_map]
            rw [hmore, hscopes, addNames_append]
          · simp only [analyseStmts, Step.andThen, herror, Step.error?_map]
            intro h
            rw [hnames herror, hdeclared h, Stmt.declaredAll_cons]
      | some error =>
          -- what comes behind the stop declares nothing
          refine ⟨names, ?_, ?_⟩
          · simp only [analyseStmts, Step.andThen, herror]
            exact hscopes
          · simp only [analyseStmts, Step.andThen, herror]
            exact nofun

theorem analyseCases_scopes : ∀ (cases : List Case) (s : State σ),
    (analyseCases context hook cases s).state.scopes = s.scopes
  | [], s => rfl
  | ⟨_, body, _⟩ :: cases, s => by
      refine scopes_andThen ?_ fun _ s' h => (analyseCases_scopes cases s').trans h
      exact scopes_andThen (analyseBlock_scopes body s)
        fun _ _ h => (State.scopes_forgetStorageIf _).trans h

/-- A block leaves the scopes as they were. -/
theorem analyseBlock_scopes : ∀ (block : Block) (s : State σ),
    (analyseBlock context hook block s).state.scopes = s.scopes
  | ⟨stmts, _⟩, s => by
      obtain ⟨names, hscopes, _⟩ := analyseStmts_scopes stmts (s.openScope false)
      show (State.closeScope _).scopes = s.scopes
      rw [State.scopes_closeScope, hscopes, State.tail_addNames]
      rfl

end

/-- The scopes of a function body are closed at its end. -/
theorem scopes_functionBody (parameters results : List Name) (body : Block) (s : State σ) :
    ∃ scope, (analyseBlock context hook body (s.enterFunction parameters results)).state.scopes =
      scope :: s.scopes := by
  rw [analyseBlock_scopes, State.scopes_enterFunction]
  exact ⟨_, rfl⟩

/-- The innermost scope at the end of a block is no boundary. -/
theorem scopes_inBlock (stmts : List Stmt) (s : State σ) :
    ∃ scope : Scope, scope.isBoundary = false ∧
      (analyseStmts context hook stmts (s.openScope false)).state.scopes = scope :: s.scopes := by
  obtain ⟨names, hscopes, _⟩ := analyseStmts_scopes stmts (s.openScope false)
  exact ⟨_, rfl, hscopes⟩

end StorageFlow.Analysis
