import StorageFlow.Proofs.Analysis.Branching
import StorageFlow.Proofs.Pass.Meaning

/-!
# StorageFlow.Proofs.Pass.Settled

What stays true of the known values all along a pass.

* `Block.isScoped` — every variable is visible where it is read or assigned.
* `Hook.WritesVisible` — a hook that puts no other than visible variables into expressions; passes
  are such hooks.
* `Knowledge.Settled` — a variable that copy propagation does not replace.
* `Pass.Ready` — the variables that known values read are visible, and for copy propagation those
  that are known to be copied are settled.
* `Pass.ready_analyseBlock` — a pass keeps this on a scoped program.
-/

namespace StorageFlow

/-! ### Scoped programs -/

/-- Whether the expression reads visible variables only. -/
def Expr.isScoped (e : Expr) (visible : List Name) : Bool :=
  e.reads.all visible.contains

theorem Expr.isScoped_iff {e : Expr} {visible : List Name} :
    e.isScoped visible = true ↔ ∀ y ∈ e.reads, y ∈ visible := by
  simp [isScoped]

mutual

/-- Whether every variable of the statement is visible where it is read or assigned, if `visible`
are in front of it. A declared name is visible in its own initialiser, a function sees its
parameters and results only. -/
def Stmt.isScoped : Stmt → List Name → Bool
  | .expression e _, visible => e.isScoped visible
  | .assign targets value? _, visible =>
      (targetNames targets).all visible.contains && value?.all (·.isScoped visible)
  | .declare declared value? _, visible =>
      value?.all (·.isScoped (declared.map Binder.name ++ visible))
  | .ifThen condition body _, visible => condition.isScoped visible && body.isScoped visible
  | .switch scrutinee cases _, visible => scrutinee.isScoped visible && Case.areScoped cases visible
  | .forLoop initial condition post body _, visible =>
      let inside := Stmt.declaredAll initial.statements ++ visible
      initial.isScoped visible && condition.isScoped inside && post.isScoped inside &&
        body.isScoped inside
  | .function _ parameters results body _, _ =>
      body.isScoped (parameters.map Binder.name ++ results.map Binder.name)
  | .breakLoop _, _ => true
  | .continueLoop _, _ => true
  | .block body, visible => body.isScoped visible

/-- Whether the statements are scoped one after another. -/
def Stmt.areScoped : List Stmt → List Name → Bool
  | [], _ => true
  | stmt :: stmts, visible =>
      stmt.isScoped visible && Stmt.areScoped stmts (stmt.declared ++ visible)

/-- Whether the bodies of all cases are scoped. -/
def Case.areScoped : List Case → List Name → Bool
  | [], _ => true
  | ⟨_, body, _⟩ :: cases, visible => body.isScoped visible && Case.areScoped cases visible

/-- Whether every variable of the block is visible where it is read or assigned, if `visible` are in
front of it. -/
def Block.isScoped : Block → List Name → Bool
  | ⟨stmts, _⟩, visible => Stmt.areScoped stmts visible

end

/-- Without an initial block, all parts of a loop see what is visible in front of it. -/
theorem Stmt.isScoped_forLoop {initial post body : Block} {condition : Expr} {span : Span}
    {visible : List Name} (hinitial : initial.isEmpty = true)
    (h : (Stmt.forLoop initial condition post body span).isScoped visible = true) :
    condition.isScoped visible = true ∧ post.isScoped visible = true ∧
      body.isScoped visible = true := by
  have hnone : Stmt.declaredAll initial.statements = [] := by
    rw [List.isEmpty_iff.1 hinitial, Stmt.declaredAll_nil]
  simp only [Stmt.isScoped, hnone, List.nil_append, Bool.and_eq_true] at h
  obtain ⟨⟨⟨_, hcondition⟩, hpost⟩, hbody⟩ := h
  exact ⟨hcondition, hpost, hbody⟩

/-! ### Names in sight -/

/-- The name is declared in some scope that is visible from the innermost one. -/
def Sees (scopes : List Scope) (x : Name) : Prop :=
  (visibleScopes scopes).any (fun scope => scope.names.contains x) = true

theorem sees_cons {scope : Scope} {outer : List Scope} {x : Name} :
    Sees (scope :: outer) x ↔ x ∈ scope.names ∨ scope.isBoundary = false ∧ Sees outer x := by
  cases hboundary : scope.isBoundary <;> simp [Sees, visibleScopes, hboundary]

theorem sees_addNames {names : List Name} {scopes : List Scope} (h : scopes ≠ []) {x : Name} :
    Sees (Analysis.addNames names scopes) x ↔ x ∈ names ∨ Sees scopes x := by
  cases scopes with
  | nil => exact absurd rfl h
  | cons scope outer =>
      rw [Analysis.addNames, sees_cons, sees_cons, Std.ExtTreeSet.mem_insertMany_list,
        List.contains_iff_mem]
      tauto

/-! ### What an analysed expression reads -/

/-- The hook makes of an expression that reads visible variables one that does. -/
def Hook.WritesVisible {σ : Type} (hook : Hook σ) : Prop :=
  ∀ (view : View) (e : Expr) (state : σ), (∀ y ∈ e.reads, view.isVisible y = true) →
    ∀ y ∈ (hook view e state).node.reads, view.isVisible y = true

namespace Analysis

variable {σ : Type} {context : Context} {hook : Hook σ}

theorem sees_callHook (hwrites : hook.WritesVisible) {e : Expr} {s : State σ}
    (h : ∀ y ∈ e.reads, Sees s.scopes y) :
    ∀ y ∈ (callHook context hook e s).node.reads, Sees s.scopes y :=
  hwrites (s.view context) e s.hook h

mutual

/-- An expression that reads visible variables still does behind its analysis, also if that was
stopped. -/
theorem sees_analyseExpr (hwrites : hook.WritesVisible) : ∀ (e : Expr) {s : State σ},
    (∀ y ∈ e.reads, Sees s.scopes y) →
      ∀ y ∈ (analyseExpr context hook e s).node.reads, Sees s.scopes y
  | .literal _, _, h => sees_callHook hwrites h
  | .identifier _, _, h => sees_callHook hwrites h
  | .call callee arguments span, s, h => by
      have harguments := sees_analyseExprs hwrites arguments h
      rw [analyseExpr]
      refine Step.node_andThen (P := fun e : Expr => ∀ y ∈ e.reads, Sees s.scopes y) harguments ?_
      rw [← scopes_analyseExprs arguments s] at harguments ⊢
      exact sees_callHook hwrites harguments
  | .instruction operator arguments span, s, h => by
      have harguments := sees_analyseExprs hwrites arguments h
      rw [analyseExpr]
      refine Step.node_andThen (P := fun e : Expr => ∀ y ∈ e.reads, Sees s.scopes y) harguments ?_
      rw [← scopes_analyseExprs arguments s] at harguments ⊢
      exact sees_callHook hwrites harguments

theorem sees_analyseExprs (hwrites : hook.WritesVisible) : ∀ (es : List Expr) {s : State σ},
    (∀ y ∈ Expr.readsAll es, Sees s.scopes y) →
      ∀ y ∈ Expr.readsAll (analyseExprs context hook es s).node, Sees s.scopes y
  | [], _, h => h
  | e :: es, s, h => by
      obtain ⟨he, hes⟩ := List.forall_mem_append.1 h
      have hfirst := sees_analyseExpr hwrites e he
      have hrest := sees_analyseExprs hwrites es (s := (analyseExpr context hook e s).state)
      rw [scopes_analyseExpr] at hrest
      rw [analyseExprs]
      refine Step.node_andThen (P := fun es => ∀ y ∈ Expr.readsAll es, Sees s.scopes y) ?_ ?_
      · exact List.forall_mem_append.2 ⟨hfirst, hes⟩
      · exact List.forall_mem_append.2 ⟨hfirst, hrest hes⟩

end

/-- The value of a statement is analysed behind the loss of storage facts. -/
theorem sees_evaluate (hwrites : hook.WritesVisible) {e : Expr} {s : State σ}
    (h : ∀ y ∈ e.reads, Sees s.scopes y) :
    ∀ y ∈ (evaluate context hook e s).node.reads, Sees s.scopes y := by
  rw [← State.scopes_forgetStorageIf (s := s) (e.mayChangeStorage context.dialect)] at h ⊢
  exact sees_analyseExpr hwrites e h

end Analysis

/-! ### Settled variables -/

/-- If a value of the variable is known, it is neither a literal nor another variable. -/
def Knowledge.Settled (k : Knowledge) (x : Name) : Prop :=
  ∀ e, k.value? x = some e → e.root?.isSome = true

theorem Knowledge.Settled.mono {k k' : Knowledge} {x : Name} (h : k'.Settled x)
    (hsub : k.Sub k') : k.Settled x :=
  fun e hx => h e (hsub.values hx)

namespace Pass

open Analysis

variable {pass : Pass} {context : Context}

/-! ### What a pass writes -/

/-- A pass replaces an expression by a literal or by a visible variable. -/
theorem replacement?_eq_some {view : View} {e e' : Expr} (h : pass.replacement? view e = some e') :
    (∃ value, e' = .literal value) ∨ ∃ y, e' = .identifier y ∧ view.isVisible y.name = true := by
  cases replaces_of_replacement? h with
  | literal => exact .inl ⟨_, rfl⟩
  | copy _ _ _ visible => exact .inr ⟨_, rfl, visible⟩
  | load _ _ _ _ visible => exact .inr ⟨_, rfl, visible⟩

theorem callHook_of_replacement {s : State PassCounts} {e e' : Expr}
    (h : pass.replacement? (s.view context) e = some e') :
    callHook context pass.hook e s = .done e' { s with hook := pass.count s.hook } := by
  simp only [callHook, hook, h]
  rfl

theorem callHook_of_not_replaced {s : State PassCounts} {e : Expr}
    (h : pass.replacement? (s.view context) e = none) :
    callHook context pass.hook e s = .done e s := by
  simp only [callHook, hook, h]
  rfl

/-- An operation is handed to the pass with what was made of its arguments. -/
theorem analyseExpr_hook {e : Expr} {op : Operation} (hroot : e.root? = some op)
    (s : State PassCounts) :
    let as := analyseExprs context pass.hook e.arguments s
    analyseExpr context pass.hook e s =
      callHook context pass.hook (e.withArguments as.node) as.state :=
  (analyseExpr_operation hroot (analyseExpr_ok (hook_total pass) e s)).2

/-- Expressions are rewritten one after another. -/
theorem analyseExprs_hook_cons (e : Expr) (es : List Expr) (s : State PassCounts) :
    let first := analyseExpr context pass.hook e s
    let rest := analyseExprs context pass.hook es first.state
    analyseExprs context pass.hook (e :: es) s = .done (first.node :: rest.node) rest.state :=
  (analyseExprs_cons (analyseExprs_ok (hook_total pass) (e :: es) s)).2.2

theorem writesVisible_hook (pass : Pass) : pass.hook.WritesVisible := by
  intro view e counts hreads
  cases hreplaced : pass.replacement? view e with
  | none =>
      simp only [hook, hreplaced]
      exact hreads
  | some e' =>
      simp only [hook, hreplaced]
      rcases replacement?_eq_some hreplaced with ⟨value, rfl⟩ | ⟨y, rfl, hvisible⟩
      · intro x hx
        cases hx
      · intro x hx
        obtain rfl := List.mem_singleton.1 hx
        exact hvisible

/-! ### The invariant of a pass -/

/-- What is known may be used by the pass: known values read visible variables, and for copy
propagation a variable that is known to be copied is settled. -/
structure Ready (pass : Pass) (visible : List Name) (s : State PassCounts) : Prop where
  opened : s.scopes ≠ []
  sees : ∀ x ∈ visible, Sees s.scopes x
  reads : ∀ {x e}, s.knowledge.value? x = some e → ∀ y ∈ e.reads, Sees s.scopes y
  settled : pass = .copyPropagation → ∀ {x y},
    s.knowledge.value? x = some (.identifier y) → s.knowledge.Settled y.name

/-- Copy propagation does not replace an operation. -/
theorem copyPropagation_operation {view : View} {e : Expr} {op : Operation}
    (hroot : e.root? = some op) : copyPropagation.replacement? view e = none := by
  cases e with
  | identifier _ => cases hroot
  | _ => rfl

/-- Copy propagation does not replace a settled variable. -/
theorem copyPropagation_settled {view : View} {x : Identifier}
    (h : view.knowledge.Settled x.name) :
    copyPropagation.replacement? view (.identifier x) = none := by
  show propagated? view x = none
  unfold propagated?
  split
  next value hvalue => cases h _ hvalue
  next y hvalue => cases h _ hvalue
  next => rfl

namespace Ready

variable {visible : List Name} {s s' : State PassCounts}

theorem mono (h : Ready pass visible s) (hscopes : s'.scopes = s.scopes)
    (hsub : s'.knowledge.Sub s.knowledge) : Ready pass visible s' where
  opened := hscopes ▸ h.opened
  sees := hscopes ▸ h.sees
  reads hx := hscopes ▸ h.reads (hsub.values hx)
  settled hpass _ _ hx := (h.settled hpass (hsub.values hx)).mono hsub

theorem of_subset (h : Ready pass visible s) {visible' : List Name} (hsub : visible' ⊆ visible) :
    Ready pass visible' s :=
  { h with sees := fun x hx => h.sees x (hsub hx) }

theorem sees_of_isScoped (h : Ready pass visible s) {e : Expr}
    (hscoped : e.isScoped visible = true) : ∀ y ∈ e.reads, Sees s.scopes y :=
  fun y hy => h.sees y (Expr.isScoped_iff.1 hscoped y hy)

/-- A variable that copy propagation does not replace is settled: what is known to be copied is
visible. -/
theorem settled_of_not_replaced (h : Ready .copyPropagation visible s) {x : Identifier}
    (hx : copyPropagation.replacement? (s.view context) (.identifier x) = none) :
    s.knowledge.Settled x.name := by
  intro e hvalue
  have hx : propagated? (s.view context) x = none := hx
  have hknown : (s.view context).knowledge.value? x.name = some e := hvalue
  rw [propagated?, hknown] at hx
  cases e with
  | literal value => cases hx
  | identifier y =>
      have hvisible : (s.view context).isVisible y.name = true :=
        h.reads hvalue y.name (List.mem_singleton_self _)
      simp [hvisible] at hx
  | call _ _ _ => rfl
  | instruction _ _ _ => rfl

/-- A variable that copy propagation writes is settled. -/
theorem settled_of_replacement (h : Ready .copyPropagation visible s) {e : Expr} {y : Identifier}
    (he : copyPropagation.replacement? (s.view context) e = some (.identifier y)) :
    s.knowledge.Settled y.name := by
  cases replaces_of_replacement? he with
  | copy x z known _ => exact h.settled rfl (y := z) known

/-- A variable that copy propagation leaves behind is settled. -/
theorem settled_analyseExpr (h : Ready .copyPropagation visible s) {e : Expr} {y : Identifier}
    (hnode : (analyseExpr context copyPropagation.hook e s).node = .identifier y) :
    s.knowledge.Settled y.name := by
  cases hroot : e.root? with
  | some op =>
      exfalso
      have hroot' := (Expr.root?_withArguments e
        (analyseExprs context copyPropagation.hook e.arguments s).node).trans hroot
      rw [analyseExpr_hook hroot,
        callHook_of_not_replaced (copyPropagation_operation hroot'), Step.node_done] at hnode
      rw [hnode] at hroot'
      cases hroot'
  | none =>
      rw [analyseExpr_of_leaf hroot] at hnode
      cases hreplaced : copyPropagation.replacement? (s.view context) e with
      | some e' =>
          rw [callHook_of_replacement hreplaced, Step.node_done] at hnode
          subst hnode
          exact h.settled_of_replacement hreplaced
      | none =>
          rw [callHook_of_not_replaced hreplaced, Step.node_done] at hnode
          subst hnode
          exact h.settled_of_not_replaced hreplaced

/-! #### Changes of the state -/

theorem clear (h : Ready pass visible s) (names : List Name) : Ready pass visible (s.clear names) :=
  h.mono rfl (Knowledge.sub_clear names)

theorem forgetStorageIf (h : Ready pass visible s) (changed : Bool) :
    Ready pass visible (s.forgetStorageIf changed) :=
  h.mono (State.scopes_forgetStorageIf changed) (sub_forgetStorageIf changed s)

theorem analyseExpr (h : Ready pass visible s) (e : Expr) :
    Ready pass visible (Analysis.analyseExpr context pass.hook e s).state :=
  h.mono (scopes_analyseExpr e s) (.of_eq (knowledge_analyseExpr e s))

theorem evaluate (h : Ready pass visible s) (e : Expr) :
    Ready pass visible (Analysis.evaluate context pass.hook e s).state :=
  h.mono (scopes_evaluate e s) (sub_evaluate e s)

theorem caseEnd (h : Ready pass visible s) (newBody : Block) (before : TwoWayMap Name) :
    Ready pass visible (Analysis.caseEnd context newBody before s) :=
  h.mono (State.scopes_forgetStorageIf _)
    ((sub_forgetStorageIf _ _).trans (sub_branchEnd _ _ _))

/-- Other facts about storage make no difference. -/
theorem store (h : Ready pass visible s) {prover : Simplifier} {slot value : Name} {k : Knowledge}
    (hstore : s.knowledge.store prover slot value = .ok k) :
    Ready pass visible { s with knowledge := k } := by
  obtain ⟨dropped, _, rfl⟩ := Knowledge.store_eq_ok hstore
  exact ⟨h.opened, h.sees, h.reads, h.settled⟩

theorem openScope (h : Ready pass visible s) : Ready pass visible (s.openScope false) where
  opened := List.cons_ne_nil _ _
  sees x hx := sees_cons.2 (.inr ⟨rfl, h.sees x hx⟩)
  reads hx y hy := sees_cons.2 (.inr ⟨rfl, h.reads hx y hy⟩)
  settled := h.settled

/-- Nothing that is known behind a block mentions a name of its scope. -/
theorem closeScope (h : Ready pass visible s) {inner : State PassCounts} {visible' : List Name}
    (hinner : Ready pass visible' inner) (hcoherent : inner.knowledge.Coherent context.dialect)
    {scope : Scope} (hscopes : inner.scopes = scope :: s.scopes) :
    Ready pass visible inner.closeScope := by
  have hclosed : inner.closeScope =
      ({ inner with scopes := s.scopes } : State PassCounts).clear scope.names.toList := by
    rw [State.closeScope, hscopes]
  rw [hclosed]
  refine ⟨h.opened, h.sees, fun {x e} hx y hy => ?_, fun hpass x y hx => ?_⟩
  · obtain ⟨_, hreads⟩ := hcoherent.not_mem_of_value?_clear hx
    have hsees := hinner.reads (Knowledge.value?_of_clear hx).1 y hy
    rw [hscopes, sees_cons] at hsees
    rcases hsees with hmem | ⟨_, hsees⟩
    · exact absurd (Std.ExtTreeSet.mem_toList.2 hmem) (hreads y hy)
    · exact hsees
  · exact (hinner.settled hpass (Knowledge.value?_of_clear hx).1).mono (Knowledge.sub_clear _)

/-- Declared names are visible from then on. -/
theorem declare (h : Ready pass visible s) (names : List Name) :
    Ready pass (names ++ visible) (s.declare names) where
  opened := by
    rw [State.scopes_declare]
    intro hnil
    cases hscopes : s.scopes with
    | nil => exact h.opened hscopes
    | cons scope outer => rw [hscopes] at hnil; cases hnil
  sees x hx := by
    rw [State.scopes_declare, sees_addNames h.opened]
    exact (List.mem_append.1 hx).imp_right (h.sees x)
  reads hx y hy := by
    rw [knowledge_declare] at hx
    rw [State.scopes_declare, sees_addNames h.opened]
    exact .inr (h.reads hx y hy)
  settled := by
    rw [knowledge_declare]
    exact h.settled

/-- An assignment of visible variables, of a settled one if it makes a copy. -/
theorem assign (h : Ready pass visible s) (hcoherent : s.knowledge.Coherent context.dialect)
    (names : List Name) {e : Expr} (hsees : ∀ y ∈ e.reads, Sees s.scopes y)
    (hsettled : pass = .copyPropagation → ∀ {y : Identifier}, e = .identifier y →
      s.knowledge.Settled y.name) : Ready pass visible (s.assign context names e) where
  opened := h.opened
  sees := h.sees
  reads {x e'} hx := by
    rcases Knowledge.value?_assign_eq_some.1 hx with ⟨_, rfl⟩ | ⟨_, hx⟩
    · exact hsees
    · exact h.reads (Knowledge.value?_of_clear hx).1
  settled hpass x y hx := by
    have hbefore : s.knowledge.Settled y.name ∧ y.name ∉ names := by
      rcases Knowledge.value?_assign_eq_some.1 hx with ⟨⟨rfl, _, hreads⟩, rfl⟩ | ⟨_, hx⟩
      · refine ⟨hsettled hpass rfl, fun hmem => hreads ?_⟩
        rw [← List.mem_singleton.1 hmem]
        exact List.mem_singleton_self _
      · exact ⟨h.settled hpass (Knowledge.value?_of_clear hx).1,
          (hcoherent.not_mem_of_value?_clear hx).2 _ (List.mem_singleton_self _)⟩
    -- what is copied is not assigned, so that nothing more is known of it
    intro e' hy
    exact hbefore.1 e' (value?_of_assign hy hbefore.2)

theorem assignZero (h : Ready pass visible s) (hcoherent : s.knowledge.Coherent context.dialect)
    (names : List Name) : Ready pass visible (s.assignZero names) := by
  have hcases : ∀ {x e}, (s.knowledge.assignZero names).value? x = some e →
      e = .literal .zero ∨ (s.knowledge.clear names).value? x = some e := by
    intro x e hx
    rw [Knowledge.value?_assignZero] at hx
    split at hx
    · exact .inl (Option.some.inj hx).symm
    · exact .inr hx
  refine ⟨h.opened, h.sees, fun {x e} hx => ?_, fun hpass x y hx e hy => ?_⟩
  · rcases hcases hx with rfl | hx
    · exact nofun
    · exact h.reads (Knowledge.value?_of_clear hx).1
  · rcases hcases hx with hzero | hx
    · cases hzero
    · have hmem : y.name ∉ names :=
        (hcoherent.not_mem_of_value?_clear hx).2 _ (List.mem_singleton_self _)
      have hy : (s.knowledge.assignZero names).value? y.name = some e := hy
      rw [Knowledge.value?_assignZero, if_neg hmem] at hy
      exact h.settled hpass (Knowledge.value?_of_clear hx).1 e (Knowledge.value?_of_clear hy).1

/-- What is known at the start of a function reads nothing. -/
theorem enterFunction (parameters results : List Name) :
    Ready pass (parameters ++ results) (s.enterFunction parameters results) := by
  have hzero : ∀ {x e}, (s.enterFunction parameters results).knowledge.value? x = some e →
      e = .literal .zero := by
    intro x e hx
    rcases value?_declareResults hx with ⟨_, rfl⟩ | hx
    · rfl
    · rw [knowledge_declare] at hx
      cases hx
  refine ⟨?_, fun x hx => ?_, fun hx y hy => ?_, fun _ x y hx => ?_⟩
  · rw [State.scopes_enterFunction]
    exact List.cons_ne_nil _ _
  · rw [State.scopes_enterFunction]
    exact (sees_addNames (List.cons_ne_nil _ _)).2 (.inl hx)
  · rw [hzero hx] at hy
    cases hy
  · cases hzero hx

theorem leaveFunction (h : Ready pass visible s) {inner : State PassCounts} {scope : Scope}
    (hscopes : inner.scopes = scope :: s.scopes) :
    Ready pass visible (inner.leaveFunction s.knowledge) := by
  have hscopes' : (inner.leaveFunction s.knowledge).scopes = s.scopes := by
    show inner.closeScope.scopes = s.scopes
    rw [State.scopes_closeScope, hscopes, List.tail_cons]
  exact h.mono hscopes' (.of_eq rfl)

end Ready

/-! ### All along a pass -/

/-- An assignment of what a pass makes of a scoped expression. -/
theorem Ready.evaluate_assign {visible : List Name} {s : State PassCounts}
    (h : Ready pass visible s) (hcoherent : s.knowledge.Coherent context.dialect) {e : Expr}
    (hscoped : e.isScoped visible = true) (names : List Name) :
    let value := Analysis.evaluate context pass.hook e s
    Ready pass visible (value.state.assign context names value.node) := by
  have hbefore := h.forgetStorageIf (e.mayChangeStorage context.dialect)
  refine (h.evaluate e).assign (coherent_evaluate hcoherent) names ?_ ?_
  · rw [scopes_evaluate]
    exact sees_evaluate pass.writesVisible_hook (h.sees_of_isScoped hscoped)
  · rintro rfl y hnode
    have hsettled := hbefore.settled_analyseExpr hnode
    rwa [knowledge_evaluate]

mutual

theorem ready_analyseStmt : ∀ (stmt : Stmt) {visible : List Name} {s : State PassCounts},
    (analyseStmt context pass.hook stmt s).error? = none →
      s.knowledge.Coherent context.dialect → stmt.isScoped visible = true →
        Ready pass visible s →
          Ready pass (stmt.declared ++ visible) (analyseStmt context pass.hook stmt s).state
  | .expression e _, _, s, h, _, _, hready => by
      cases htracked : context.trackedStore? e with
      | some store =>
          obtain ⟨_, k, hstore, heq⟩ := analyseStmt_trackedStore htracked h
          rw [heq]
          rw [← knowledge_analyseExpr e s] at hstore
          exact (hready.analyseExpr e).store hstore
      | none =>
          obtain ⟨_, heq⟩ := analyseStmt_expression htracked h
          rw [heq]
          exact hready.evaluate e
  | .assign _ none _, _, _, h, _, _, _ => by cases h
  | .assign targets (some e) _, _, _, h, hcoherent, hscoped, hready => by
      obtain ⟨_, heq⟩ := analyseStmt_assign h
      rw [Stmt.isScoped, Bool.and_eq_true] at hscoped
      rw [heq]
      exact hready.evaluate_assign hcoherent hscoped.2 (targetNames targets)
  | .declare declared none _, _, _, _, hcoherent, _, hready =>
      (hready.declare (declared.map Binder.name)).assignZero (coherent_declare _ hcoherent) _
  | .declare declared (some e) _, _, _, h, hcoherent, hscoped, hready => by
      obtain ⟨_, heq⟩ := analyseStmt_declare h
      rw [heq]
      exact (hready.declare (declared.map Binder.name)).evaluate_assign
        (coherent_declare _ hcoherent) hscoped _
  | .ifThen condition body _, _, _, h, hcoherent, hscoped, hready => by
      obtain ⟨_, hb, heq⟩ := analyseStmt_ifThen h
      rw [Stmt.isScoped, Bool.and_eq_true] at hscoped
      rw [heq]
      exact (ready_analyseBlock body hb (coherent_evaluate hcoherent) hscoped.2
        (hready.evaluate condition)).mono rfl (sub_branchEnd _ _ _)
  | .switch scrutinee cases _, _, _, h, hcoherent, hscoped, hready => by
      obtain ⟨_, hcs, heq⟩ := analyseStmt_switch h
      rw [Stmt.isScoped, Bool.and_eq_true] at hscoped
      rw [heq]
      exact (ready_analyseCases cases hcs (coherent_evaluate hcoherent) hscoped.2
        (hready.evaluate scrutinee)).mono (State.scopes_forgetStorageIf _) (sub_leaveCases _ _)
  | .forLoop initial condition post body _, visible, s, h, hcoherent, hscoped, hready => by
      obtain ⟨hinitial, _, hb, hp, heq⟩ := analyseStmt_forLoop h
      obtain ⟨_, hpost, hbody⟩ := Stmt.isScoped_forLoop hinitial hscoped
      have hhead : Ready pass visible (loopHead context condition post body s) :=
        (hready.clear _).forgetStorageIf _
      have hcoherentBody : Knowledge.Coherent context.dialect (analyseExpr context pass.hook
          condition (loopHead context condition post body s)).state.knowledge :=
        coherent_loopBody condition post body hcoherent
      have hafter := ready_analyseBlock body hb hcoherentBody hbody (hhead.analyseExpr condition)
      have hend := ready_analyseBlock post hp
        (coherent_postHead _ _ (coherent_analyseBlock body hcoherentBody)) hpost
        ((hafter.clear _).forgetStorageIf _)
      rw [heq]
      exact (hend.clear _).forgetStorageIf _
  | .function _ parameters results body _, _, s, h, _, _, hready => by
      obtain ⟨_, heq⟩ := analyseStmt_function h
      obtain ⟨_, hscopes⟩ := scopes_functionBody (parameters.map Binder.name)
        (results.map Binder.name) body s
      rw [heq]
      exact hready.leaveFunction hscopes
  | .breakLoop _, _, _, _, _, _, hready => hready
  | .continueLoop _, _, _, _, _, _, hready => hready
  | .block body, _, _, h, hcoherent, hscoped, hready => by
      obtain ⟨hb, heq⟩ := analyseStmt_block h
      rw [heq]
      exact ready_analyseBlock body hb hcoherent hscoped hready

theorem ready_analyseStmts : ∀ (stmts : List Stmt) {visible : List Name} {s : State PassCounts},
    (analyseStmts context pass.hook stmts s).error? = none →
      s.knowledge.Coherent context.dialect → Stmt.areScoped stmts visible = true →
        Ready pass visible s → Ready pass visible (analyseStmts context pass.hook stmts s).state
  | [], _, _, _, _, _, hready => hready
  | stmt :: stmts, _, _, h, hcoherent, hscoped, hready => by
      obtain ⟨hfirst, hrest, heq⟩ := analyseStmts_cons h
      rw [Stmt.areScoped, Bool.and_eq_true] at hscoped
      rw [heq]
      exact (ready_analyseStmts stmts hrest (coherent_analyseStmt stmt hcoherent) hscoped.2
        (ready_analyseStmt stmt hfirst hcoherent hscoped.1 hready)).of_subset
          (List.subset_append_right _ _)

theorem ready_analyseCases : ∀ (cases : List Case) {visible : List Name} {s : State PassCounts},
    (analyseCases context pass.hook cases s).error? = none →
      s.knowledge.Coherent context.dialect → Case.areScoped cases visible = true →
        Ready pass visible s → Ready pass visible (analyseCases context pass.hook cases s).state
  | [], _, _, _, _, _, hready => hready
  | ⟨_, body, _⟩ :: cases, _, _, h, hcoherent, hscoped, hready => by
      obtain ⟨hfirst, hrest, heq⟩ := analyseCases_cons h
      obtain ⟨hb, hcase⟩ := analyseCase_mk hfirst
      rw [Case.areScoped, Bool.and_eq_true] at hscoped
      rw [heq]
      refine ready_analyseCases cases hrest (coherent_analyseCase _ hcoherent) hscoped.2 ?_
      rw [hcase]
      exact (ready_analyseBlock body hb hcoherent hscoped.1 hready).caseEnd _ _

/-- A pass over a scoped block keeps the invariant. -/
theorem ready_analyseBlock : ∀ (block : Block) {visible : List Name} {s : State PassCounts},
    (analyseBlock context pass.hook block s).error? = none →
      s.knowledge.Coherent context.dialect → block.isScoped visible = true →
        Ready pass visible s → Ready pass visible (analyseBlock context pass.hook block s).state
  | ⟨stmts, _⟩, _, s, h, hcoherent, hscoped, hready => by
      obtain ⟨hinner, heq, _⟩ := analyseBlock_mk h
      obtain ⟨_, _, hscopes⟩ := scopes_inBlock stmts s
      have hend : Knowledge.Coherent context.dialect
          (analyseStmts context pass.hook stmts (s.openScope false)).state.knowledge :=
        coherent_analyseStmts stmts hcoherent
      rw [heq]
      exact hready.closeScope (ready_analyseStmts stmts hinner hcoherent hscoped hready.openScope)
        hend hscopes

end

end Pass

end StorageFlow
