import StorageFlow.Proofs.Analysis.Success
import StorageFlow.Proofs.Knowledge.Erasure

/-!
# StorageFlow.Proofs.Analysis.Erasure

An analysis does not depend on source locations.

* `Step.erased` — a step with source locations erased in its node, its state and its error.
* `State.declare_withoutSpans`, `State.closeScope_withoutSpans`, … — each change of a state without
  source locations is that change, and then the erasure.
* `Hook.IgnoresSpans` — a hook makes the same of an expression without source locations.
* `analyseBlock_withoutSpans` — with standard rules and such a hook, the analysis of a block without
  source locations is the analysis of the block, and then the erasure.
-/

namespace StorageFlow

/-- The error with its source location erased. -/
def Error.withoutSpan : Error → Error
  | statementAsExpression _ => statementAsExpression .synthetic
  | missingValue names _ => missingValue names .synthetic
  | loopPrologue _ => loopPrologue .synthetic
  | contradiction detail => contradiction detail
  | unbalancedScopes expected actual => unbalancedScopes expected actual
  | refused detail _ => refused detail .synthetic

/-! ### Steps -/

namespace Step

variable {σ α β : Type}

/-- The step with its node and its state erased by the given functions, and the source location of
its error. -/
def erased (step : Step σ α) (eraseNode : α → α) (eraseState : σ → σ) : Step σ α :=
  ⟨eraseNode step.node, eraseState step.state, step.error?.map Error.withoutSpan⟩

/-- If the parts of two steps are the same but for an erasure, then so are the steps. -/
theorem andThen_erased {f : α → α} {g : β → β} {F : σ → σ} {step step' : Step σ α}
    {halted halted' : α → β} {next next' : α → σ → Step σ β} (hstep : step' = step.erased f F)
    (hhalted : halted' (f step.node) = g (halted step.node))
    (hnext : next' (f step.node) (F step.state) = (next step.node step.state).erased g F) :
    step'.andThen halted' next' = (step.andThen halted next).erased g F := by
  subst hstep
  unfold andThen erased
  cases step.error? with
  | none => exact hnext
  | some error => exact congrArg (Step.mk · _ _) hhalted

theorem mapState_erased {f : α → α} {F act act' : σ → σ} {step : Step σ α}
    (h : act' (F step.state) = F (act step.state)) :
    (step.erased f F).mapState act' = (step.mapState act).erased f F :=
  congrArg (Step.mk _ · _) h

end Step

/-! ### States -/

namespace Analysis.State

variable {σ : Type} {context : Context} {s : State σ}

/-- The state with source locations erased in what is known. -/
def withoutSpans (s : State σ) : State σ :=
  { s with knowledge := s.knowledge.withoutSpans }

theorem clear_withoutSpans (names : List Name) :
    s.withoutSpans.clear names = (s.clear names).withoutSpans :=
  congrArg (State.mk · s.scopes s.hook) (Knowledge.clear_withoutSpans names)

theorem assign_withoutSpans (names : List Name) (e : Expr) :
    s.withoutSpans.assign context names e.withoutSpans =
      (s.assign context names e).withoutSpans :=
  congrArg (State.mk · s.scopes s.hook) (Knowledge.assign_withoutSpans context.dialect names e)

theorem assignZero_withoutSpans (names : List Name) :
    s.withoutSpans.assignZero names = (s.assignZero names).withoutSpans :=
  congrArg (State.mk · s.scopes s.hook) (Knowledge.assignZero_withoutSpans names)

theorem joinStorage_withoutSpans (before : TwoWayMap Name) :
    s.withoutSpans.joinStorage before = (s.joinStorage before).withoutSpans := rfl

theorem forgetStorageIf_withoutSpans (changed : Bool) :
    s.withoutSpans.forgetStorageIf changed = (s.forgetStorageIf changed).withoutSpans := by
  cases changed <;> rfl

theorem declare_withoutSpans (names : List Name) :
    s.withoutSpans.declare names = (s.declare names).withoutSpans := by
  obtain ⟨knowledge, scopes, state⟩ := s
  cases scopes <;> rfl

theorem closeScope_withoutSpans : s.withoutSpans.closeScope = s.closeScope.withoutSpans := by
  obtain ⟨knowledge, scopes, state⟩ := s
  cases scopes with
  | nil => rfl
  | cons scope outer =>
      exact clear_withoutSpans (s := ⟨knowledge, outer, state⟩) scope.names.toList

theorem declareResults_withoutSpans (results : List Name) (s : State σ) :
    s.withoutSpans.declareResults results = (s.declareResults results).withoutSpans := by
  induction results generalizing s with
  | nil => rfl
  | cons name results ih =>
      rw [declareResults, List.foldl_cons, declare_withoutSpans, assignZero_withoutSpans]
      exact ih _

theorem enterFunction_withoutSpans (parameters results : List Name) :
    s.withoutSpans.enterFunction parameters results =
      (s.enterFunction parameters results).withoutSpans := by
  have hempty : ({ s.withoutSpans with knowledge := ∅ } : State σ).openScope true =
      (({ s with knowledge := ∅ } : State σ).openScope true).withoutSpans :=
    congrArg (State.mk · _ s.hook) Knowledge.withoutSpans_empty.symm
  rw [enterFunction, hempty, declare_withoutSpans, declareResults_withoutSpans, enterFunction]

theorem leaveFunction_withoutSpans (outer : Knowledge) :
    s.withoutSpans.leaveFunction outer.withoutSpans = (s.leaveFunction outer).withoutSpans := by
  rw [leaveFunction, closeScope_withoutSpans]
  rfl

end Analysis.State

/-! ### Hooks -/

variable {σ : Type} {context : Context} {hook : Hook σ}

/-- What is shown, with source locations erased in what is known. -/
def View.withoutSpans (view : View) : View :=
  { view with knowledge := view.knowledge.withoutSpans }

/-- The hook makes the same of an expression without source locations. -/
def Hook.IgnoresSpans (hook : Hook σ) : Prop :=
  ∀ (view : View) (e : Expr) (state : σ),
    hook view.withoutSpans e.withoutSpans state =
      (hook view e state).erased Expr.withoutSpans id

namespace Hook.IgnoresSpans

theorem idle : (Hook.idle : Hook σ).IgnoresSpans :=
  fun _ _ _ => rfl

theorem andThen {first second : Hook σ} (h : first.IgnoresSpans) (h' : second.IgnoresSpans) :
    (first.andThen second).IgnoresSpans := fun view e state =>
  Step.andThen_erased (h view e state) rfl (h' view _ _)

end Hook.IgnoresSpans

/-! ### Expressions -/

namespace Context

theorem trackedStore?_withoutSpans (context : Context) (e : Expr) :
    context.trackedStore? e.withoutSpans = context.trackedStore? e := by
  cases e with
  | literal _ => rfl
  | identifier _ => rfl
  | call callee arguments _ =>
      rcases arguments with _ | ⟨a, _ | ⟨b, _ | _⟩⟩
      · rfl
      · cases a <;> rfl
      · cases a <;> cases b <;> rfl
      · cases a <;> cases b <;> rfl
  | instruction operator arguments _ =>
      rcases arguments with _ | ⟨a, _ | ⟨b, _ | _⟩⟩
      · rfl
      · cases a <;> rfl
      · cases a <;> cases b <;> rfl
      · cases a <;> cases b <;> rfl

theorem loopChangesStorage_withoutSpans (context : Context) (condition : Expr)
    (post body : Block) :
    context.loopChangesStorage condition.withoutSpans post.withoutSpans body.withoutSpans =
      context.loopChangesStorage condition post body := by
  simp only [loopChangesStorage, Expr.mayChangeStorage_withoutSpans,
    Block.mayChangeStorage_withoutSpans]

end Context

namespace Analysis

theorem callHook_withoutSpans (h : hook.IgnoresSpans) (e : Expr) (s : State σ) :
    callHook context hook e.withoutSpans s.withoutSpans =
      (callHook context hook e s).erased Expr.withoutSpans State.withoutSpans := by
  have hcall : hook (s.withoutSpans.view context) e.withoutSpans s.withoutSpans.hook = _ :=
    h (s.view context) e s.hook
  rw [callHook, hcall]
  rfl

mutual

theorem analyseExpr_withoutSpans (h : hook.IgnoresSpans) : ∀ (e : Expr) (s : State σ),
    analyseExpr context hook e.withoutSpans s.withoutSpans =
      (analyseExpr context hook e s).erased Expr.withoutSpans State.withoutSpans
  | .literal value, s => callHook_withoutSpans h (.literal value) s
  | .identifier x, s => callHook_withoutSpans h (.identifier x) s
  | .call callee arguments span, s => by
      unfold analyseExpr
      exact Step.andThen_erased (analyseExprs_withoutSpans h arguments s) rfl
        (callHook_withoutSpans h (.call callee _ span) _)
  | .instruction operator arguments span, s => by
      unfold analyseExpr
      exact Step.andThen_erased (analyseExprs_withoutSpans h arguments s) rfl
        (callHook_withoutSpans h (.instruction operator _ span) _)

theorem analyseExprs_withoutSpans (h : hook.IgnoresSpans) : ∀ (es : List Expr) (s : State σ),
    analyseExprs context hook (Expr.allWithoutSpans es) s.withoutSpans =
      (analyseExprs context hook es s).erased Expr.allWithoutSpans State.withoutSpans
  | [], s => rfl
  | e :: es, s => by
      refine Step.andThen_erased (analyseExpr_withoutSpans h e s) rfl ?_
      rw [analyseExprs_withoutSpans h es]
      rfl

end

theorem evaluate_withoutSpans (h : hook.IgnoresSpans) (e : Expr) (s : State σ) :
    evaluate context hook e.withoutSpans s.withoutSpans =
      (evaluate context hook e s).erased Expr.withoutSpans State.withoutSpans := by
  rw [evaluate, Expr.mayChangeStorage_withoutSpans, State.forgetStorageIf_withoutSpans]
  exact analyseExpr_withoutSpans h e _

/-! ### Statements -/

theorem leaveCases_withoutSpans (cases : List Case) (s : State σ) :
    leaveCases context (Case.allWithoutSpans cases) s.withoutSpans =
      (leaveCases context cases s).withoutSpans := by
  have hchanges : ((Case.allWithoutSpans cases).any fun case =>
      case.body.mayChangeStorage context.dialect) =
        cases.any fun case => case.body.mayChangeStorage context.dialect := by
    rw [Case.allWithoutSpans_eq_map, List.any_map]
    refine congrArg cases.any (funext fun case => ?_)
    rw [Function.comp_apply, Case.body_withoutSpans, Block.mayChangeStorage_withoutSpans]
  have hassigned : ((Case.allWithoutSpans cases).flatMap fun case => case.body.assigned) =
      cases.flatMap fun case => case.body.assigned := by
    rw [Case.allWithoutSpans_eq_map, List.flatMap_map]
    refine congrArg cases.flatMap (funext fun case => ?_)
    rw [Case.body_withoutSpans, Block.assigned_withoutSpans]
  rw [leaveCases, hchanges, hassigned, State.forgetStorageIf_withoutSpans,
    State.clear_withoutSpans, leaveCases]

/-- With standard rules no store fails, and the same is stored. -/
theorem attempt_store_withoutSpans (hrules : ∀ rule ∈ context.rules, rule ∈ RuleTable.standard)
    {α : Type} {node node' : α} {f : α → α} (s : State σ) (slot value : Name)
    (hnode : node' = f node) :
    Step.attempt node' s.withoutSpans (s.withoutSpans.store context slot value) =
      (Step.attempt node s (s.store context slot value)).erased f State.withoutSpans := by
  obtain ⟨k, hstore⟩ := Knowledge.store_ok hrules s.knowledge slot value
  have hstore' : s.withoutSpans.knowledge.store
      (context.simplifier s.withoutSpans.knowledge) slot value = .ok k.withoutSpans := by
    have hignores : (context.simplifier s.knowledge).rules.IgnoresSpans := fun rule hrule =>
      RuleTable.ignoresSpans_standard rule (hrules rule hrule)
    refine (Knowledge.store_withoutSpans hignores slot value).trans ?_
    rw [hstore]
    rfl
  rw [State.store, State.store, hstore, hstore', hnode]
  rfl

mutual

theorem analyseStmt_withoutSpans (hrules : ∀ rule ∈ context.rules, rule ∈ RuleTable.standard)
    (h : hook.IgnoresSpans) : ∀ (stmt : Stmt) (s : State σ),
    analyseStmt context hook stmt.withoutSpans s.withoutSpans =
      (analyseStmt context hook stmt s).erased Stmt.withoutSpans State.withoutSpans
  | .expression e span, s => by
      rw [Stmt.withoutSpans, analyseStmt, analyseStmt, context.trackedStore?_withoutSpans]
      rcases context.trackedStore? e with _ | ⟨slot, value⟩
      · dsimp only
        rw [evaluate_withoutSpans h]
        rfl
      · exact Step.andThen_erased (analyseExpr_withoutSpans h e s) rfl
          (attempt_store_withoutSpans hrules _ slot value rfl)
  | .assign targets none span, s => by
      rw [Stmt.withoutSpans, Option.map_none, analyseStmt, targetNames_withoutSpan]
      rfl
  | .assign targets (some e) span, s => by
      rw [Stmt.withoutSpans, Option.map_some, analyseStmt, targetNames_withoutSpan]
      refine Step.andThen_erased (evaluate_withoutSpans h e s) rfl ?_
      rw [State.assign_withoutSpans]
      rfl
  | .declare declared none span, s => by
      rw [Stmt.withoutSpans, Option.map_none, analyseStmt, Binder.name_withoutSpan,
        State.declare_withoutSpans, State.assignZero_withoutSpans]
      rfl
  | .declare declared (some e) span, s => by
      rw [Stmt.withoutSpans, Option.map_some, analyseStmt, Binder.name_withoutSpan,
        State.declare_withoutSpans]
      refine Step.andThen_erased (evaluate_withoutSpans h e _) rfl ?_
      rw [State.assign_withoutSpans]
      rfl
  | .ifThen condition body span, s => by
      rw [Stmt.withoutSpans, analyseStmt, Expr.mayChangeStorage_withoutSpans,
        State.forgetStorageIf_withoutSpans]
      refine Step.andThen_erased (analyseExpr_withoutSpans h condition _) rfl ?_
      refine Step.andThen_erased (analyseBlock_withoutSpans hrules h body _) rfl ?_
      rw [Block.assigned_withoutSpans, State.joinStorage_withoutSpans, State.clear_withoutSpans]
      rfl
  | .switch scrutinee cases span, s => by
      rw [Stmt.withoutSpans, analyseStmt]
      refine Step.andThen_erased (evaluate_withoutSpans h scrutinee s) rfl ?_
      refine Step.andThen_erased (analyseCases_withoutSpans hrules h cases _) rfl ?_
      rw [leaveCases_withoutSpans]
      rfl
  | .forLoop initial condition post body span, s => by
      rw [Stmt.withoutSpans, analyseStmt, analyseStmt, Block.isEmpty_withoutSpans]
      split
      · dsimp only
        rw [Block.assigned_withoutSpans, Block.assigned_withoutSpans,
          Context.loopChangesStorage_withoutSpans, State.clear_withoutSpans,
          State.forgetStorageIf_withoutSpans]
        refine Step.andThen_erased (analyseExpr_withoutSpans h condition _) rfl ?_
        refine Step.andThen_erased (analyseBlock_withoutSpans hrules h body _) rfl ?_
        rw [Block.assignedAfterContinue_withoutSpans, Block.mayChangeStorage_withoutSpans,
          State.clear_withoutSpans, State.forgetStorageIf_withoutSpans]
        refine Step.andThen_erased (analyseBlock_withoutSpans hrules h post _) rfl ?_
        rw [Context.loopChangesStorage_withoutSpans, State.clear_withoutSpans,
          State.forgetStorageIf_withoutSpans]
        rfl
      · rw [Block.span_withoutSpans]
        rfl
  | .function name parameters results body span, s => by
      rw [Stmt.withoutSpans, analyseStmt, Binder.name_withoutSpan, Binder.name_withoutSpan,
        State.enterFunction_withoutSpans, analyseBlock_withoutSpans hrules h body]
      exact congrArg (Step.map · _)
        (Step.mapState_erased (State.leaveFunction_withoutSpans s.knowledge))
  | .breakLoop _, _ => rfl
  | .continueLoop _, _ => rfl
  | .block body, s => by
      rw [Stmt.withoutSpans, analyseStmt, analyseBlock_withoutSpans hrules h body]
      rfl

theorem analyseStmts_withoutSpans (hrules : ∀ rule ∈ context.rules, rule ∈ RuleTable.standard)
    (h : hook.IgnoresSpans) : ∀ (stmts : List Stmt) (s : State σ),
    analyseStmts context hook (Stmt.allWithoutSpans stmts) s.withoutSpans =
      (analyseStmts context hook stmts s).erased Stmt.allWithoutSpans State.withoutSpans
  | [], _ => rfl
  | stmt :: stmts, s => by
      refine Step.andThen_erased (analyseStmt_withoutSpans hrules h stmt s) rfl ?_
      rw [analyseStmts_withoutSpans hrules h stmts]
      rfl

theorem analyseCases_withoutSpans (hrules : ∀ rule ∈ context.rules, rule ∈ RuleTable.standard)
    (h : hook.IgnoresSpans) : ∀ (cases : List Case) (s : State σ),
    analyseCases context hook (Case.allWithoutSpans cases) s.withoutSpans =
      (analyseCases context hook cases s).erased Case.allWithoutSpans State.withoutSpans
  | [], _ => rfl
  | ⟨value?, body, span⟩ :: cases, s => by
      have hcase : analyseCase context hook (Case.withoutSpans ⟨value?, body, span⟩)
          s.withoutSpans =
            (analyseCase context hook ⟨value?, body, span⟩ s).erased Case.withoutSpans
              State.withoutSpans := by
        rw [Case.withoutSpans, analyseCase]
        refine Step.andThen_erased (analyseBlock_withoutSpans hrules h body s) rfl ?_
        rw [Block.assigned_withoutSpans, Block.mayChangeStorage_withoutSpans,
          State.joinStorage_withoutSpans, State.clear_withoutSpans,
          State.forgetStorageIf_withoutSpans]
        rfl
      refine Step.andThen_erased hcase rfl ?_
      rw [analyseCases_withoutSpans hrules h cases]
      rfl

/-- The analysis of a block without source locations is the analysis of the block, and then the
erasure. -/
theorem analyseBlock_withoutSpans (hrules : ∀ rule ∈ context.rules, rule ∈ RuleTable.standard)
    (h : hook.IgnoresSpans) : ∀ (block : Block) (s : State σ),
    analyseBlock context hook block.withoutSpans s.withoutSpans =
      (analyseBlock context hook block s).erased Block.withoutSpans State.withoutSpans
  | ⟨stmts, span⟩, s => by
      rw [Block.withoutSpans, analyseBlock]
      have hinner : analyseStmts context hook (Stmt.allWithoutSpans stmts)
          (s.withoutSpans.openScope false) = _ :=
        analyseStmts_withoutSpans hrules h stmts (s.openScope false)
      rw [hinner, Step.mapState_erased State.closeScope_withoutSpans]
      rfl

end

end Analysis

end StorageFlow
