import StorageFlow.Proofs.Analysis.Shape

/-!
# StorageFlow.Proofs.Analysis.Completed

Analyses that came to their end, construct by construct.

If the analysis of a construct comes to its end, then so do the analyses of its parts, and the
result is made from theirs. Each lemma says this for one construct, `analyseStmt_ifThen` for a
branch and so on, so that no later proof has to follow the steps. The knowledge is coherent in the
states in between: `coherent_evaluate`, `coherent_loopBody`, `coherent_postHead`.
-/

namespace StorageFlow.Analysis

variable {σ : Type} {context : Context} {hook : Hook σ} {s : State σ} {span : Span}

/-! ### Expressions -/

/-- An operation is analysed behind its arguments. -/
theorem analyseExpr_of_root? {e : Expr} {op : Operation} (h : e.root? = some op) :
    analyseExpr context hook e s =
      (analyseExprs context hook e.arguments s).andThen e.withArguments fun arguments s =>
        callHook context hook (e.withArguments arguments) s := by
  cases e with
  | literal _ => cases h
  | identifier _ => cases h
  | call _ _ _ => rfl
  | instruction _ _ _ => rfl

theorem analyseExpr_of_leaf {e : Expr} (h : e.root? = none) :
    analyseExpr context hook e s = callHook context hook e s := by
  cases e with
  | literal _ => rfl
  | identifier _ => rfl
  | call _ _ _ => cases h
  | instruction _ _ _ => cases h

theorem analyseExpr_operation {e : Expr} {op : Operation} (hop : e.root? = some op)
    (h : (analyseExpr context hook e s).error? = none) :
    let as := analyseExprs context hook e.arguments s
    as.error? = none ∧
      analyseExpr context hook e s = callHook context hook (e.withArguments as.node) as.state := by
  rw [analyseExpr_of_root? hop] at h ⊢
  obtain ⟨has, _, heq⟩ := Step.of_andThen h
  exact ⟨has, heq⟩

theorem analyseExprs_cons {e : Expr} {es : List Expr}
    (h : (analyseExprs context hook (e :: es) s).error? = none) :
    let first := analyseExpr context hook e s
    let rest := analyseExprs context hook es first.state
    first.error? = none ∧ rest.error? = none ∧
      analyseExprs context hook (e :: es) s = .done (first.node :: rest.node) rest.state := by
  obtain ⟨hfirst, hrest, heq⟩ := Step.of_andThen h
  refine ⟨hfirst, hrest, heq.trans ?_⟩
  rw [Step.map, show (analyseExprs context hook es _).error? = none from hrest]
  rfl

/-! ### Statements -/

/-- The store that follows an evaluation comes to its end if it is a store without error. -/
theorem attempt_store_done {α : Type} {node : α} {slot value : Name}
    (h : (Step.attempt node s (s.store context slot value)).error? = none) :
    ∃ k, s.knowledge.store (context.simplifier s.knowledge) slot value = .ok k ∧
      Step.attempt node s (s.store context slot value) = .done node { s with knowledge := k } := by
  unfold State.store at h ⊢
  cases hstore : s.knowledge.store (context.simplifier s.knowledge) slot value with
  | error e => rw [hstore] at h; cases h
  | ok k => exact ⟨k, rfl, rfl⟩

theorem analyseStmt_trackedStore {e : Expr} {slot value : Name}
    (htracked : context.trackedStore? e = some (slot, value))
    (h : (analyseStmt context hook (.expression e span) s).error? = none) :
    let value' := analyseExpr context hook e s
    value'.error? = none ∧
      ∃ k, s.knowledge.store (context.simplifier s.knowledge) slot value = .ok k ∧
        analyseStmt context hook (.expression e span) s =
          .done (.expression value'.node span) { value'.state with knowledge := k } := by
  have heq : analyseStmt context hook (.expression e span) s =
      (analyseExpr context hook e s).andThen (.expression · span) fun e s =>
        .attempt (.expression e span) s (s.store context slot value) := by
    simp only [analyseStmt, htracked]
  rw [heq] at h ⊢
  obtain ⟨hvalue, hstore, heq⟩ := Step.of_andThen h
  obtain ⟨k, hk, hdone⟩ := attempt_store_done hstore
  rw [knowledge_analyseExpr] at hk
  exact ⟨hvalue, k, hk, heq.trans hdone⟩

theorem analyseStmt_expression {e : Expr} (htracked : context.trackedStore? e = none)
    (h : (analyseStmt context hook (.expression e span) s).error? = none) :
    let value := evaluate context hook e s
    value.error? = none ∧
      analyseStmt context hook (.expression e span) s =
        .done (.expression value.node span) value.state := by
  have heq : analyseStmt context hook (.expression e span) s =
      (evaluate context hook e s).map (.expression · span) := by
    simp only [analyseStmt, htracked]
  rw [heq] at h ⊢
  refine ⟨h, ?_⟩
  rw [Step.map, show (evaluate context hook e s).error? = none from h]
  rfl

theorem analyseStmt_assign {targets : List Identifier} {e : Expr}
    (h : (analyseStmt context hook (.assign targets (some e) span) s).error? = none) :
    let value := evaluate context hook e s
    value.error? = none ∧
      analyseStmt context hook (.assign targets (some e) span) s =
        .done (.assign targets (some value.node) span)
          (value.state.assign context (targetNames targets) value.node) := by
  obtain ⟨hvalue, _, heq⟩ := Step.of_andThen h
  exact ⟨hvalue, heq⟩

theorem analyseStmt_declare {declared : List Binder} {e : Expr}
    (h : (analyseStmt context hook (.declare declared (some e) span) s).error? = none) :
    let names := declared.map Binder.name
    let value := evaluate context hook e (s.declare names)
    value.error? = none ∧
      analyseStmt context hook (.declare declared (some e) span) s =
        .done (.declare declared (some value.node) span)
          (value.state.assign context names value.node) := by
  obtain ⟨hvalue, _, heq⟩ := Step.of_andThen h
  exact ⟨hvalue, heq⟩

theorem analyseStmt_ifThen {condition : Expr} {body : Block}
    (h : (analyseStmt context hook (.ifThen condition body span) s).error? = none) :
    let c := evaluate context hook condition s
    let b := analyseBlock context hook body c.state
    c.error? = none ∧ b.error? = none ∧
      analyseStmt context hook (.ifThen condition body span) s =
        .done (.ifThen c.node b.node span)
          ((b.state.joinStorage c.state.knowledge.storage).clear b.node.assigned) := by
  obtain ⟨hc, hbody, heq⟩ := Step.of_andThen h
  obtain ⟨hb, _, heq'⟩ := Step.of_andThen hbody
  refine ⟨hc, hb, (heq.trans heq').trans ?_⟩
  simp only [evaluate, knowledge_analyseExpr]

theorem analyseStmt_switch {scrutinee : Expr} {cases : List Case}
    (h : (analyseStmt context hook (.switch scrutinee cases span) s).error? = none) :
    let e := evaluate context hook scrutinee s
    let cs := analyseCases context hook cases e.state
    e.error? = none ∧ cs.error? = none ∧
      analyseStmt context hook (.switch scrutinee cases span) s =
        .done (.switch e.node cs.node span) (leaveCases context cs.node cs.state) := by
  obtain ⟨he, hcases, heq⟩ := Step.of_andThen h
  obtain ⟨hcs, _, heq'⟩ := Step.of_andThen hcases
  exact ⟨he, hcs, heq.trans heq'⟩

/-- The state at the head of a loop, reached from the front and from the end of the post block. -/
def loopHead (context : Context) (condition : Expr) (post body : Block) (s : State σ) : State σ :=
  (s.clear (body.assigned ++ post.assigned)).forgetStorageIf
    (context.loopChangesStorage condition post body)

/-- The state at the post block of a loop, reached from the end of the body and from each
`continue` in it. -/
def postHead (context : Context) (body newBody : Block) (s : State σ) : State σ :=
  (s.clear body.assignedAfterContinue).forgetStorageIf (newBody.mayChangeStorage context.dialect)

theorem analyseStmt_forLoop_eq {initial post body : Block} {condition : Expr}
    (hinitial : initial.isEmpty = true) :
    analyseStmt context hook (.forLoop initial condition post body span) s =
      (analyseExpr context hook condition (loopHead context condition post body s)).andThen
        (.forLoop initial · post body span) fun condition s =>
      (analyseBlock context hook body s).andThen
        (.forLoop initial condition post · span) fun newBody s =>
      (analyseBlock context hook post (postHead context body newBody s)).andThen
        (.forLoop initial condition · newBody span) fun newPost s =>
      .done (.forLoop initial condition newPost newBody span)
        ((s.clear (body.assigned ++ post.assigned)).forgetStorageIf
          (context.loopChangesStorage condition newPost newBody)) := by
  simp only [analyseStmt, hinitial, if_true]
  rfl

theorem analyseStmt_forLoop {initial post body : Block} {condition : Expr}
    (h : (analyseStmt context hook (.forLoop initial condition post body span) s).error? = none) :
    let c := analyseExpr context hook condition (loopHead context condition post body s)
    let b := analyseBlock context hook body c.state
    let p := analyseBlock context hook post (postHead context body b.node b.state)
    initial.isEmpty = true ∧ c.error? = none ∧ b.error? = none ∧ p.error? = none ∧
      analyseStmt context hook (.forLoop initial condition post body span) s =
        .done (.forLoop initial c.node p.node b.node span)
          ((p.state.clear (body.assigned ++ post.assigned)).forgetStorageIf
            (context.loopChangesStorage c.node p.node b.node)) := by
  by_cases hinitial : initial.isEmpty = true
  · rw [analyseStmt_forLoop_eq hinitial] at h ⊢
    obtain ⟨hc, h, heq⟩ := Step.of_andThen h
    obtain ⟨hb, h, heq'⟩ := Step.of_andThen h
    obtain ⟨hp, _, heq''⟩ := Step.of_andThen h
    exact ⟨hinitial, hc, hb, hp, heq.trans (heq'.trans heq'')⟩
  · simp only [analyseStmt, hinitial] at h
    cases h

theorem analyseStmt_function {name : Name} {parameters results : List Binder} {body : Block}
    (h : (analyseStmt context hook (.function name parameters results body span) s).error? = none) :
    let b := analyseBlock context hook body
      (s.enterFunction (parameters.map Binder.name) (results.map Binder.name))
    b.error? = none ∧
      analyseStmt context hook (.function name parameters results body span) s =
        .done (.function name parameters results b.node span)
          (b.state.leaveFunction s.knowledge) := by
  refine ⟨h, ?_⟩
  have hb : (analyseBlock context hook body
      (s.enterFunction (parameters.map Binder.name) (results.map Binder.name))).error? = none := h
  simp only [analyseStmt, Step.map, Step.mapState, hb]
  rfl

theorem analyseStmt_block {body : Block}
    (h : (analyseStmt context hook (.block body) s).error? = none) :
    let b := analyseBlock context hook body s
    b.error? = none ∧ analyseStmt context hook (.block body) s = .done (.block b.node) b.state := by
  refine ⟨h, ?_⟩
  have hb : (analyseBlock context hook body s).error? = none := h
  simp only [analyseStmt, Step.map, hb]
  rfl

theorem analyseStmts_cons {stmt : Stmt} {stmts : List Stmt}
    (h : (analyseStmts context hook (stmt :: stmts) s).error? = none) :
    let first := analyseStmt context hook stmt s
    let rest := analyseStmts context hook stmts first.state
    first.error? = none ∧ rest.error? = none ∧
      analyseStmts context hook (stmt :: stmts) s =
        .done (first.node :: rest.node) rest.state := by
  obtain ⟨hfirst, hrest, heq⟩ := Step.of_andThen h
  refine ⟨hfirst, hrest, heq.trans ?_⟩
  rw [Step.map, show (analyseStmts context hook stmts _).error? = none from hrest]
  rfl

/-- The state behind the body of a case, whether it ran or not. -/
def caseEnd (context : Context) (newBody : Block) (before : TwoWayMap Name) (s : State σ) : State σ :=
  ((s.joinStorage before).clear newBody.assigned).forgetStorageIf
    (newBody.mayChangeStorage context.dialect)

theorem analyseCase_mk {value? : Option Literal} {body : Block}
    (h : (analyseCase context hook ⟨value?, body, span⟩ s).error? = none) :
    let b := analyseBlock context hook body s
    b.error? = none ∧
      analyseCase context hook ⟨value?, body, span⟩ s =
        .done ⟨value?, b.node, span⟩ (caseEnd context b.node s.knowledge.storage b.state) := by
  obtain ⟨hb, _, heq⟩ := Step.of_andThen h
  exact ⟨hb, heq⟩

theorem analyseCases_cons {case : Case} {cases : List Case}
    (h : (analyseCases context hook (case :: cases) s).error? = none) :
    let first := analyseCase context hook case s
    let rest := analyseCases context hook cases first.state
    first.error? = none ∧ rest.error? = none ∧
      analyseCases context hook (case :: cases) s =
        .done (first.node :: rest.node) rest.state := by
  obtain ⟨hfirst, hrest, heq⟩ := Step.of_andThen h
  refine ⟨hfirst, hrest, heq.trans ?_⟩
  rw [Step.map, show (analyseCases context hook cases _).error? = none from hrest]
  rfl

/-- The end of a block clears what was known inside of the names that it declares. -/
theorem analyseBlock_mk {stmts : List Stmt}
    (h : (analyseBlock context hook ⟨stmts, span⟩ s).error? = none) :
    let inner := analyseStmts context hook stmts (s.openScope false)
    inner.error? = none ∧
      analyseBlock context hook ⟨stmts, span⟩ s =
        .done ⟨inner.node, span⟩ inner.state.closeScope ∧
      ∃ names, (∀ x, x ∈ names ↔ x ∈ Stmt.declaredAll stmts) ∧
        inner.state.closeScope.knowledge = inner.state.knowledge.clear names := by
  have hinner : (analyseStmts context hook stmts (s.openScope false)).error? = none := h
  refine ⟨hinner, ?_, ?_⟩
  · simp only [analyseBlock, Step.map, Step.mapState, hinner]
    rfl
  · obtain ⟨names, hscopes, hnames⟩ : ∃ names,
        (analyseStmts context hook stmts (s.openScope false)).state.scopes =
          addNames names (s.openScope false).scopes ∧
        ((analyseStmts context hook stmts (s.openScope false)).error? = none →
          names = Stmt.declaredAll stmts) :=
      analyseStmts_scopes stmts (s.openScope false)
    obtain rfl := hnames hinner
    refine ⟨((∅ : NameSet).insertMany (Stmt.declaredAll stmts)).toList, fun x => ?_, ?_⟩
    · simp [Std.ExtTreeSet.mem_toList]
    · unfold State.closeScope
      rw [hscopes]
      rfl

/-! ### Coherent knowledge on the way -/

@[simp] theorem knowledge_evaluate (e : Expr) (s : State σ) :
    (evaluate context hook e s).state.knowledge =
      (s.forgetStorageIf (e.mayChangeStorage context.dialect)).knowledge :=
  knowledge_analyseExpr e _

@[simp] theorem scopes_evaluate (e : Expr) (s : State σ) :
    (evaluate context hook e s).state.scopes = s.scopes :=
  (scopes_analyseExpr e _).trans (State.scopes_forgetStorageIf _)

theorem coherent_evaluate {e : Expr} (h : s.knowledge.Coherent context.dialect) :
    (evaluate context hook e s).state.knowledge.Coherent context.dialect := by
  rw [knowledge_evaluate]
  exact coherent_forgetStorageIf _ h

theorem coherent_loopHead (condition : Expr) (post body : Block)
    (h : s.knowledge.Coherent context.dialect) :
    (loopHead context condition post body s).knowledge.Coherent context.dialect :=
  coherent_forgetStorageIf _ (h.clear _)

/-- The condition of a loop changes nothing that is known. -/
theorem coherent_loopBody (condition : Expr) (post body : Block)
    (h : s.knowledge.Coherent context.dialect) :
    (analyseExpr context hook condition
      (loopHead context condition post body s)).state.knowledge.Coherent context.dialect := by
  rw [knowledge_analyseExpr]
  exact coherent_loopHead condition post body h

theorem coherent_postHead (body newBody : Block) (h : s.knowledge.Coherent context.dialect) :
    (postHead context body newBody s).knowledge.Coherent context.dialect :=
  coherent_forgetStorageIf _ (h.clear _)

end StorageFlow.Analysis
