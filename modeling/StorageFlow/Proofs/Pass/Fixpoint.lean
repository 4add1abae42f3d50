import StorageFlow.Proofs.Pass.Capture
import StorageFlow.Proofs.Pass.Echo

/-!
# StorageFlow.Proofs.Pass.Fixpoint

A pass replaces nothing in what it has made.

* `Pass.analyseExpr_again` — in a state like the one in which an expression was rewritten, the
  rewritten expression stays as it is.
* `Pass.changes_analyseBlock` — load forwarding leaves an operation that may change storage in a
  block exactly if there was one.
* `Pass.replays_analyseBlock` — so the second run goes through states like those of the first one.
* `Pass.run_reaches_fixpoint` — a second run leaves the program as it is and counts nothing.
-/

namespace StorageFlow

namespace Pass

open Analysis

variable {pass : Pass} {counts : PassCounts} {context : Context} {s t : State PassCounts}
variable {visible : List Name} {span : Span}

/-! ### Expressions -/

/-- Load forwarding does not replace a literal or a variable. -/
theorem loadForwarding_leaf {view : View} {e : Expr} (h : e.root? = none) :
    loadForwarding.replacement? view e = none := by
  cases e with
  | literal _ => rfl
  | identifier _ => rfl
  | call _ _ _ => cases h
  | instruction _ _ _ => cases h

/-- Load forwarding needs a fact about storage. -/
theorem loadForwarding_of_nothing_stored
    (h : ∀ slot, s.knowledge.storedAt? slot = none) (e : Expr) :
    loadForwarding.replacement? (s.view context) e = none := by
  show forwarded? (s.view context) e = none
  unfold forwarded?
  split
  next slot _ =>
    have hslot : (s.view context).knowledge.storedAt? slot.name = none := h slot.name
    rw [hslot]
    rfl
  next => rfl

theorem root?_of_replacement {view : View} {e e' : Expr}
    (h : pass.replacement? view e = some e') : e'.root? = none := by
  rcases replacement?_eq_some h with ⟨value, rfl⟩ | ⟨y, rfl, _⟩ <;> rfl

/-- A pass does not replace what it writes. -/
theorem Ready.replacement?_again (h : Ready pass visible s) {e e' : Expr}
    (he : pass.replacement? (s.view context) e = some e') :
    pass.replacement? (s.view context) e' = none := by
  cases pass with
  | loadForwarding => exact loadForwarding_leaf (root?_of_replacement he)
  | copyPropagation =>
      rcases replacement?_eq_some he with ⟨value, rfl⟩ | ⟨y, rfl, _⟩
      · rfl
      · exact copyPropagation_settled (h.settled_of_replacement he)

/-- What an analysis makes of a node in one state, it leaves as it is in the other. -/
def Repeats {α : Type} (analyse : α → State PassCounts → Step (State PassCounts) α) (node : α)
    (s t : State PassCounts) : Prop :=
  analyse (analyse node s).node t = .done (analyse node s).node t

theorem analyseExpr_leaf_again (h : Echoes pass counts s t) {e : Expr} (hroot : e.root? = none)
    (he : pass.replacement? (s.view context) e = none) :
    analyseExpr context pass.hook e t = .done e t := by
  rw [analyseExpr_of_leaf hroot]
  exact callHook_of_not_replaced ((h.replacement?_eq e).trans he)

/-- What a pass makes of an expression stays as it is if its arguments do. -/
theorem analyseExpr_callHook_again (hready : Ready pass visible s) (h : Echoes pass counts s t)
    {e : Expr} (harguments : analyseExprs context pass.hook e.arguments t = .done e.arguments t) :
    analyseExpr context pass.hook (callHook context pass.hook e s).node t =
      .done (callHook context pass.hook e s).node t := by
  cases hreplaced : pass.replacement? (s.view context) e with
  | some e' =>
      rw [callHook_of_replacement hreplaced]
      exact analyseExpr_leaf_again h (root?_of_replacement hreplaced)
        (hready.replacement?_again hreplaced)
  | none =>
      rw [callHook_of_not_replaced hreplaced]
      cases hroot : e.root? with
      | none => exact analyseExpr_leaf_again h hroot hreplaced
      | some op =>
          rw [Step.node_done, analyseExpr_of_root? hroot, harguments, Step.andThen_done,
            Expr.withArguments_arguments]
          exact callHook_of_not_replaced ((h.replacement?_eq e).trans hreplaced)

theorem analyseExpr_operation_again (hready : Ready pass visible s) (h : Echoes pass counts s t)
    {e : Expr} {op : Operation} (hroot : e.root? = some op)
    (harguments : Repeats (analyseExprs context pass.hook) e.arguments s t) :
    Repeats (analyseExpr context pass.hook) e s t := by
  rw [Repeats, analyseExpr_hook hroot s]
  have hscopes : (analyseExprs context pass.hook e.arguments s).state.scopes = s.scopes :=
    scopes_analyseExprs e.arguments s
  have hknowledge : (analyseExprs context pass.hook e.arguments s).state.knowledge =
      s.knowledge := knowledge_analyseExprs e.arguments s
  refine analyseExpr_callHook_again (hready.mono hscopes (.of_eq hknowledge))
    (h.of_eq hscopes hknowledge) ?_
  rw [Expr.arguments_withArguments hroot]
  exact harguments

mutual

/-- An expression that a pass has rewritten stays as it is in a state like that one. -/
theorem analyseExpr_again : ∀ (e : Expr) {s : State PassCounts}, Ready pass visible s →
    Echoes pass counts s t → Repeats (analyseExpr context pass.hook) e s t
  | .literal _, _, hready, h => analyseExpr_callHook_again hready h rfl
  | .identifier _, _, hready, h => analyseExpr_callHook_again hready h rfl
  | .call _ arguments _, _, hready, h =>
      analyseExpr_operation_again hready h rfl (analyseExprs_again arguments hready h)
  | .instruction _ arguments _, _, hready, h =>
      analyseExpr_operation_again hready h rfl (analyseExprs_again arguments hready h)

theorem analyseExprs_again : ∀ (es : List Expr) {s : State PassCounts}, Ready pass visible s →
    Echoes pass counts s t → Repeats (analyseExprs context pass.hook) es s t
  | [], _, _, _ => rfl
  | e :: es, s, hready, h => by
      have hfirst : Repeats (analyseExpr context pass.hook) e s t := analyseExpr_again e hready h
      have hrest : Repeats (analyseExprs context pass.hook) es
          (analyseExpr context pass.hook e s).state t :=
        analyseExprs_again es (hready.analyseExpr e)
          (h.of_eq (scopes_analyseExpr e s) (knowledge_analyseExpr e s))
      rw [Repeats] at hfirst hrest
      rw [Repeats, analyseExprs_hook_cons, Step.node_done, analyseExprs, hfirst,
        Step.andThen_done, hrest]
      rfl

end

/-! ### Operations that may change storage -/

theorem operations_callHook (e : Expr) (s : State PassCounts) :
    (callHook context pass.hook e s).node.operations ⊆ e.operations := by
  cases hreplaced : pass.replacement? (s.view context) e with
  | none =>
      rw [callHook_of_not_replaced hreplaced]
      exact List.Subset.refl _
  | some e' =>
      rw [callHook_of_replacement hreplaced]
      rcases replacement?_eq_some hreplaced with ⟨value, rfl⟩ | ⟨y, rfl, _⟩ <;>
        exact List.nil_subset _

mutual

/-- A pass adds no operation to an expression. -/
theorem operations_analyseExpr : ∀ (e : Expr) (s : State PassCounts),
    (analyseExpr context pass.hook e s).node.operations ⊆ e.operations
  | .literal value, s => operations_callHook (.literal value) s
  | .identifier x, s => operations_callHook (.identifier x) s
  | .call callee arguments span, s => by
      rw [analyseExpr_hook rfl]
      refine List.Subset.trans (operations_callHook _ _) ?_
      exact append_subset_append (operations_analyseExprs arguments s) (List.Subset.refl _)
  | .instruction operator arguments span, s => by
      rw [analyseExpr_hook rfl]
      refine List.Subset.trans (operations_callHook _ _) ?_
      exact append_subset_append (operations_analyseExprs arguments s) (List.Subset.refl _)

theorem operations_analyseExprs : ∀ (es : List Expr) (s : State PassCounts),
    Expr.operationsAll (analyseExprs context pass.hook es s).node ⊆ Expr.operationsAll es
  | [], _ => List.Subset.refl _
  | e :: es, s => by
      rw [analyseExprs_hook_cons]
      exact append_subset_append (operations_analyseExpr e s) (operations_analyseExprs es _)

end

mutual

/-- Where nothing is known to be stored, no load is forwarded. -/
theorem analyseExpr_of_nothing_stored (h : ∀ slot, s.knowledge.storedAt? slot = none) :
    ∀ e : Expr, analyseExpr context loadForwarding.hook e s = .done e s
  | .literal _ => callHook_of_not_replaced rfl
  | .identifier _ => callHook_of_not_replaced rfl
  | .call callee arguments span => by
      rw [analyseExpr, analyseExprs_of_nothing_stored h arguments, Step.andThen_done]
      exact callHook_of_not_replaced (loadForwarding_of_nothing_stored h _)
  | .instruction operator arguments span => by
      rw [analyseExpr, analyseExprs_of_nothing_stored h arguments, Step.andThen_done]
      exact callHook_of_not_replaced (loadForwarding_of_nothing_stored h _)

theorem analyseExprs_of_nothing_stored (h : ∀ slot, s.knowledge.storedAt? slot = none) :
    ∀ es : List Expr, analyseExprs context loadForwarding.hook es s = .done es s
  | [] => rfl
  | e :: es => by
      rw [analyseExprs, analyseExpr_of_nothing_stored h e, Step.andThen_done,
        analyseExprs_of_nothing_stored h es]
      rfl

end

/-- Load forwarding keeps the operations that may change storage: in front of them everything about
storage is forgotten. -/
theorem changes_analyseExpr {e : Expr} (h : Steady context s.knowledge e.operations) :
    context.dialect.Changes (analyseExpr context loadForwarding.hook e s).node.operations ↔
      context.dialect.Changes e.operations := by
  rcases h with hnothing | hno
  · rw [analyseExpr_of_nothing_stored hnothing, Step.node_done]
  · refine iff_of_false (fun hchanges => hno ?_) hno
    exact hchanges.mono fun _ hop => operations_analyseExpr e s hop

theorem changes_evaluate (e : Expr) (s : State PassCounts) :
    context.dialect.Changes (evaluate context loadForwarding.hook e s).node.operations ↔
      context.dialect.Changes e.operations :=
  changes_analyseExpr (steady_forgetStorageIf e s)

theorem steady_loopHead (condition : Expr) (post body : Block) (s : State PassCounts) :
    Steady context (loopHead context condition post body s).knowledge condition.operations := by
  by_cases hchanges : context.loopChangesStorage condition post body = true
  · refine .inl fun slot => ?_
    rw [loopHead, hchanges]
    exact Knowledge.storedAt?_forgetStorage slot
  · exact .inr fun hops => hchanges (loopChangesStorage_iff.2 (.inl hops))

/-- The operands of a tracked store are variables, and no store is a load. -/
theorem analyseExpr_trackedStore {e : Expr} {store : Name × Name}
    (h : context.trackedStore? e = some store) (s : State PassCounts) :
    analyseExpr context loadForwarding.hook e s = .done e s := by
  obtain ⟨slot, value⟩ := store
  obtain ⟨op, x, y, hroot, harguments, _⟩ := trackedStore?_eq_some h
  have hoperand : ∀ x : Identifier,
      analyseExpr context loadForwarding.hook (.identifier x) s = .done (.identifier x) s :=
    fun x => callHook_of_not_replaced rfl
  have hoperands : analyseExprs context loadForwarding.hook e.arguments s =
      .done e.arguments s := by
    rw [harguments]
    simp only [analyseExprs, hoperand, Step.andThen_done]
    rfl
  rw [analyseExpr_of_root? hroot, hoperands, Step.andThen_done, Expr.withArguments_arguments]
  exact callHook_of_not_replaced (replacement?_eq_none _ _ (by rw [harguments]; rfl))

/-- Load forwarding makes no tracked store. -/
theorem trackedStore?_evaluate {e : Expr} (h : context.trackedStore? e = none)
    (s : State PassCounts) :
    context.trackedStore? (evaluate context loadForwarding.hook e s).node = none := by
  have hsteady : Steady context _ e.operations := steady_forgetStorageIf e s
  rcases hsteady with hnothing | hno
  · rw [evaluate, analyseExpr_of_nothing_stored hnothing]
    exact h
  · exact trackedStore?_eq_none fun hchanges => hno ((changes_evaluate e s).1 hchanges)

mutual

theorem changes_analyseStmt : ∀ (stmt : Stmt) {s : State PassCounts},
    (analyseStmt context loadForwarding.hook stmt s).error? = none →
      (context.dialect.Changes (analyseStmt context loadForwarding.hook stmt s).node.operations ↔
        context.dialect.Changes stmt.operations)
  | .expression e _, s, h => by
      cases htracked : context.trackedStore? e with
      | some store =>
          obtain ⟨_, _, _, heq⟩ := analyseStmt_trackedStore htracked h
          rw [heq, analyseExpr_trackedStore htracked]
          exact Iff.rfl
      | none =>
          obtain ⟨_, heq⟩ := analyseStmt_expression htracked h
          rw [heq]
          exact changes_evaluate e s
  | .assign _ none _, _, h => by cases h
  | .assign _ (some e) _, s, h => by
      obtain ⟨_, heq⟩ := analyseStmt_assign h
      rw [heq]
      exact changes_evaluate e s
  | .declare _ none _, _, _ => Iff.rfl
  | .declare _ (some e) _, s, h => by
      obtain ⟨_, heq⟩ := analyseStmt_declare h
      rw [heq]
      exact changes_evaluate e _
  | .ifThen condition body _, s, h => by
      obtain ⟨_, hb, heq⟩ := analyseStmt_ifThen h
      rw [heq, Step.node_done, Stmt.operations, Stmt.operations, Dialect.changes_append,
        Dialect.changes_append, changes_evaluate, changes_analyseBlock body hb]
  | .switch scrutinee cases _, s, h => by
      obtain ⟨_, hcs, heq⟩ := analyseStmt_switch h
      rw [heq, Step.node_done, Stmt.operations, Stmt.operations, Dialect.changes_append,
        Dialect.changes_append, changes_evaluate, changes_analyseCases cases hcs]
  | .forLoop initial condition post body _, s, h => by
      obtain ⟨_, _, hb, hp, heq⟩ := analyseStmt_forLoop h
      simp only [heq, Step.node_done, Stmt.operations, Dialect.changes_append,
        changes_analyseExpr (steady_loopHead condition post body s), changes_analyseBlock body hb,
        changes_analyseBlock post hp]
  | .function _ _ _ body _, _, h => by
      obtain ⟨hb, heq⟩ := analyseStmt_function h
      rw [heq]
      exact changes_analyseBlock body hb
  | .breakLoop _, _, _ => Iff.rfl
  | .continueLoop _, _, _ => Iff.rfl
  | .block body, _, h => by
      obtain ⟨hb, heq⟩ := analyseStmt_block h
      rw [heq]
      exact changes_analyseBlock body hb

theorem changes_analyseStmts : ∀ (stmts : List Stmt) {s : State PassCounts},
    (analyseStmts context loadForwarding.hook stmts s).error? = none →
      (context.dialect.Changes
          (Stmt.operationsAll (analyseStmts context loadForwarding.hook stmts s).node) ↔
        context.dialect.Changes (Stmt.operationsAll stmts))
  | [], _, _ => Iff.rfl
  | stmt :: stmts, _, h => by
      obtain ⟨hfirst, hrest, heq⟩ := analyseStmts_cons h
      rw [heq, Step.node_done, Stmt.operationsAll, Stmt.operationsAll, Dialect.changes_append,
        Dialect.changes_append, changes_analyseStmt stmt hfirst, changes_analyseStmts stmts hrest]

theorem changes_analyseCases : ∀ (cases : List Case) {s : State PassCounts},
    (analyseCases context loadForwarding.hook cases s).error? = none →
      (context.dialect.Changes
          (Case.operationsAll (analyseCases context loadForwarding.hook cases s).node) ↔
        context.dialect.Changes (Case.operationsAll cases))
  | [], _, _ => Iff.rfl
  | ⟨_, body, _⟩ :: cases, _, h => by
      obtain ⟨hfirst, hrest, heq⟩ := analyseCases_cons h
      obtain ⟨hb, hcase⟩ := analyseCase_mk hfirst
      have hcases := changes_analyseCases cases hrest
      rw [heq, hcase]
      rw [hcase] at hcases
      rw [Step.node_done, Step.node_done, Case.operationsAll, Case.operationsAll,
        Dialect.changes_append, Dialect.changes_append, changes_analyseBlock body hb, hcases]

/-- Load forwarding leaves a block that may change storage one that may, and no other. -/
theorem changes_analyseBlock : ∀ (block : Block) {s : State PassCounts},
    (analyseBlock context loadForwarding.hook block s).error? = none →
      (context.dialect.Changes
          (analyseBlock context loadForwarding.hook block s).node.operations ↔
        context.dialect.Changes block.operations)
  | ⟨stmts, _⟩, _, h => by
      obtain ⟨hinner, heq, _⟩ := analyseBlock_mk h
      rw [heq]
      exact changes_analyseStmts stmts hinner

end

/-! ### The second run -/

/-- Analysed again in a state alike, what the analysis made of the node stays as it is, and the
states stay alike. -/
def Replays {α : Type} (pass : Pass) (counts : PassCounts)
    (analyse : α → State PassCounts → Step (State PassCounts) α) (node : α)
    (s : State PassCounts) : Prop :=
  ∀ t, Echoes pass counts s t → ∃ t',
    analyse (analyse node s).node t = .done (analyse node s).node t' ∧
      Echoes pass counts (analyse node s).state t'

theorem Replays.of_done {α : Type} {analyse : α → State PassCounts → Step (State PassCounts) α}
    {node node' : α} {s s' : State PassCounts} (hdone : analyse node s = .done node' s')
    (h : ∀ t, Echoes pass counts s t → ∃ t', analyse node' t = .done node' t' ∧
      Echoes pass counts s' t') : Replays pass counts analyse node s := by
  intro t ht
  rw [hdone]
  exact h t ht

/-- Both runs forget about storage in front of the same expressions. -/
theorem mayChangeStorage_evaluate (e : Expr) (s : State PassCounts) :
    pass = .loadForwarding →
      (evaluate context pass.hook e s).node.mayChangeStorage context.dialect =
        e.mayChangeStorage context.dialect := by
  rintro rfl
  rw [Bool.eq_iff_iff, Expr.mayChangeStorage_iff, Expr.mayChangeStorage_iff]
  exact changes_evaluate e s

theorem replays_evaluate (hready : Ready pass visible s) (e : Expr) :
    Replays pass counts (evaluate context pass.hook) e s := by
  intro t h
  have hagain : Echoes pass counts (s.forgetStorageIf (e.mayChangeStorage context.dialect))
      (t.forgetStorageIf
        ((evaluate context pass.hook e s).node.mayChangeStorage context.dialect)) :=
    h.forgetStorageIf (mayChangeStorage_evaluate e s)
  refine ⟨_, analyseExpr_again e (hready.forgetStorageIf _) hagain, ?_⟩
  exact hagain.of_eq (scopes_analyseExpr e _) (knowledge_analyseExpr e _)

/-- For copy propagation it makes no difference which stores are tracked. -/
theorem copyPropagation_expression (hrules : ∀ rule ∈ context.rules, rule ∈ RuleTable.standard)
    {e : Expr} (hagain : ∀ {t}, Echoes copyPropagation counts s t →
      analyseExpr context copyPropagation.hook e t = .done e t)
    (h : Echoes copyPropagation counts s t) :
    ∃ t', analyseStmt context copyPropagation.hook (.expression e span) t =
        .done (.expression e span) t' ∧ Echoes copyPropagation counts s t' := by
  cases htracked : context.trackedStore? e with
  | some store =>
      obtain ⟨slot, value⟩ := store
      obtain ⟨k, hstore⟩ := Knowledge.store_ok hrules t.knowledge slot value
      refine ⟨{ t with knowledge := k }, ?_, h.scopes, ?_, h.hook⟩
      · simp only [analyseStmt, htracked, hagain h, Step.andThen_done, State.store, hstore]
        rfl
      · obtain ⟨_, _, rfl⟩ := Knowledge.store_eq_ok hstore
        refine ⟨h.knowledge.values, h.knowledge.provenance, fun hpass => ?_⟩
        cases hpass
  | none =>
      have h' : Echoes copyPropagation counts (s.forgetStorageIf false)
          (t.forgetStorageIf (e.mayChangeStorage context.dialect)) := by
        refine h.forgetStorageIf fun hpass => ?_
        cases hpass
      refine ⟨_, ?_, h'⟩
      simp only [analyseStmt, htracked, evaluate, hagain h']
      rfl

theorem replays_expression (hrules : ∀ rule ∈ context.rules, rule ∈ RuleTable.standard)
    {e : Expr} (hready : Ready pass visible s)
    (hdone : (analyseStmt context pass.hook (.expression e span) s).error? = none) :
    Replays pass counts (analyseStmt context pass.hook) (.expression e span) s := by
  cases pass with
  | copyPropagation =>
      cases htracked : context.trackedStore? e with
      | some store =>
          obtain ⟨_, k, hstore, heq⟩ := analyseStmt_trackedStore htracked hdone
          refine .of_done heq fun t h => ?_
          obtain ⟨t', hrun, h'⟩ := copyPropagation_expression hrules (analyseExpr_again e hready) h
          obtain ⟨_, _, rfl⟩ := Knowledge.store_eq_ok hstore
          exact ⟨t', hrun, h'.of_copyPropagation (scopes_analyseExpr e s) rfl⟩
      | none =>
          obtain ⟨_, heq⟩ := analyseStmt_expression htracked hdone
          refine .of_done heq fun t h => ?_
          have hforget : ∀ {t}, Echoes copyPropagation counts s t →
              Echoes copyPropagation counts
                (s.forgetStorageIf (e.mayChangeStorage context.dialect)) t :=
            fun h => h.forgetStorageIf_left _
          obtain ⟨t', hrun, h'⟩ := copyPropagation_expression hrules
            (fun h => analyseExpr_again e (hready.forgetStorageIf _) (hforget h)) h
          exact ⟨t', hrun, (hforget h').of_eq (scopes_analyseExpr e _) (knowledge_analyseExpr e _)⟩
  | loadForwarding =>
      cases htracked : context.trackedStore? e with
      | some store =>
          obtain ⟨slot, value⟩ := store
          obtain ⟨_, k, hstore, heq⟩ := analyseStmt_trackedStore htracked hdone
          rw [analyseExpr_trackedStore htracked] at heq
          refine .of_done heq fun t h => ⟨{ t with knowledge := k }, ?_, h.scopes, .refl k, h.hook⟩
          have hknowledge := h.knowledge.eq_of_loadForwarding
          simp only [analyseStmt, Step.node_done, htracked, analyseExpr_trackedStore htracked,
            Step.andThen_done, State.store, hknowledge, hstore]
          rfl
      | none =>
          obtain ⟨_, heq⟩ := analyseStmt_expression htracked hdone
          refine .of_done heq fun t h => ?_
          obtain ⟨t', hrun, h'⟩ := replays_evaluate hready e t h
          refine ⟨t', ?_, h'⟩
          simp only [analyseStmt, trackedStore?_evaluate htracked, hrun]
          rfl

theorem Replays.ifThen {condition : Expr} {body : Block} (hready : Ready pass visible s)
    (hdone : (analyseStmt context pass.hook (.ifThen condition body span) s).error? = none)
    (hbody : Replays pass counts (analyseBlock context pass.hook) body
      (evaluate context pass.hook condition s).state) :
    Replays pass counts (analyseStmt context pass.hook) (.ifThen condition body span) s := by
  obtain ⟨_, _, heq⟩ := analyseStmt_ifThen hdone
  refine .of_done heq fun t h => ?_
  obtain ⟨t₁, hcondition, h₁⟩ := replays_evaluate hready condition t h
  obtain ⟨t₂, hbody, h₂⟩ := hbody t₁ h₁
  -- the storage facts to be joined are those behind the condition, which changes none
  have hknowledge : (evaluate context pass.hook
      (evaluate context pass.hook condition s).node t).state.knowledge = _ :=
    knowledge_evaluate _ t
  rw [hcondition, Step.state_done] at hknowledge
  refine ⟨(t₂.joinStorage t₁.knowledge.storage).clear _, ?_,
    (h₂.joinStorage h₁.knowledge.storage).clear _⟩
  rw [evaluate] at hcondition
  simp only [analyseStmt, hcondition, Step.andThen_done, hbody, hknowledge]

/-- Both runs forget the same at the head of a loop. -/
theorem echoes_loopHead {condition : Expr} {post body : Block}
    {c : Step (State PassCounts) Expr} {b p : Step (State PassCounts) Block}
    {bodyStart postStart : State PassCounts}
    (hc : analyseExpr context pass.hook condition (loopHead context condition post body s) = c)
    (hb : analyseBlock context pass.hook body bodyStart = b) (hbody : b.error? = none)
    (hp : analyseBlock context pass.hook post postStart = p) (hpost : p.error? = none)
    (h : Echoes pass counts s t) :
    Echoes pass counts (loopHead context condition post body s)
      (loopHead context c.node p.node b.node t) := by
  subst hc hb hp
  rw [loopHead, loopHead, assigned_analyseBlock hbody, assigned_analyseBlock hpost, ← loopHead]
  refine (h.clear _).forgetStorageIf ?_
  rintro rfl
  rw [Bool.eq_iff_iff, loopChangesStorage_iff, loopChangesStorage_iff,
    changes_analyseExpr (steady_loopHead condition post body s), changes_analyseBlock post hpost,
    changes_analyseBlock body hbody]

theorem Replays.forLoop {initial post body : Block} {condition : Expr}
    {c : Step (State PassCounts) Expr} {b : Step (State PassCounts) Block}
    (hready : Ready pass visible (loopHead context condition post body s))
    (hdone : (analyseStmt context pass.hook
      (.forLoop initial condition post body span) s).error? = none)
    (hc : analyseExpr context pass.hook condition (loopHead context condition post body s) = c)
    (hb : analyseBlock context pass.hook body c.state = b)
    (hbody : Replays pass counts (analyseBlock context pass.hook) body c.state)
    (hpost : Replays pass counts (analyseBlock context pass.hook) post
      (postHead context body b.node b.state)) :
    Replays pass counts (analyseStmt context pass.hook)
      (.forLoop initial condition post body span) s := by
  obtain ⟨hinitial, _, hbodyDone, hpostDone, heq⟩ := analyseStmt_forLoop hdone
  rw [hc] at hbodyDone hpostDone heq
  have hassigned := assigned_analyseBlock hbodyDone
  have hlate := assignedAfterContinue_analyseBlock hbodyDone
  rw [hb] at hbodyDone hpostDone heq hassigned hlate
  have hassignedPost := assigned_analyseBlock hpostDone
  generalize hp : analyseBlock context pass.hook post (postHead context body b.node b.state) = p
    at hpostDone heq hassignedPost
  refine .of_done heq fun t h => ?_
  have h₀ := echoes_loopHead hc hb hbodyDone hp hpostDone h
  have hcondition : Repeats (analyseExpr context pass.hook) condition _ _ :=
    analyseExpr_again condition hready h₀
  have hscopes : c.state.scopes = _ := hc ▸ scopes_analyseExpr condition _
  have hknowledge : c.state.knowledge = _ := hc ▸ knowledge_analyseExpr condition _
  obtain ⟨t₁, hbody, h₁⟩ := hbody _ (h₀.of_eq hscopes hknowledge)
  rw [hb] at hbody h₁
  have h₂ : Echoes pass counts (postHead context body b.node b.state)
      (postHead context b.node b.node t₁) := by
    rw [postHead, postHead, hlate]
    exact (h₁.clear _).forgetStorageIf fun _ => rfl
  obtain ⟨t₂, hpost, h₃⟩ := hpost _ h₂
  rw [hp] at hpost h₃
  rw [Repeats, hc] at hcondition
  refine ⟨(t₂.clear (b.node.assigned ++ p.node.assigned)).forgetStorageIf
    (context.loopChangesStorage c.node p.node b.node), ?_, ?_⟩
  · rw [analyseStmt_forLoop_eq hinitial, hcondition, Step.andThen_done, hbody, Step.andThen_done,
      hpost, Step.andThen_done]
  · rw [hassigned, hassignedPost]
    exact (h₃.clear _).forgetStorageIf fun _ => rfl

theorem Replays.case {value? : Option Literal} {body : Block}
    (hdone : (analyseCase context pass.hook ⟨value?, body, span⟩ s).error? = none)
    (hbody : Replays pass counts (analyseBlock context pass.hook) body s) :
    Replays pass counts (analyseCase context pass.hook) ⟨value?, body, span⟩ s := by
  obtain ⟨_, heq⟩ := analyseCase_mk hdone
  refine .of_done heq fun t h => ?_
  obtain ⟨t', hbody, h'⟩ := hbody t h
  refine ⟨_, ?_, ((h'.joinStorage h.knowledge.storage).clear _).forgetStorageIf fun _ => rfl⟩
  simp only [analyseCase, hbody, Step.andThen_done]

mutual

/-- A statement that a pass has rewritten is passed again without a replacement. -/
theorem replays_analyseStmt (hrules : ∀ rule ∈ context.rules, rule ∈ RuleTable.standard) :
    ∀ (stmt : Stmt) {visible : List Name} {s : State PassCounts},
      (analyseStmt context pass.hook stmt s).error? = none →
        s.knowledge.Coherent context.dialect → stmt.isScoped visible = true →
          Ready pass visible s → Replays pass counts (analyseStmt context pass.hook) stmt s
  | .expression e _, _, _, hdone, _, _, hready => replays_expression hrules hready hdone
  | .assign _ none _, _, _, hdone, _, _, _ => by cases hdone
  | .assign targets (some e) _, _, _, hdone, _, _, hready => by
      obtain ⟨_, heq⟩ := analyseStmt_assign hdone
      refine .of_done heq fun t h => ?_
      obtain ⟨t', hrun, h'⟩ := replays_evaluate hready e t h
      refine ⟨_, ?_, h'.assign (targetNames targets) _⟩
      rw [analyseStmt, hrun, Step.andThen_done]
  | .declare declared none _, _, _, _, _, _, _ => fun _ h =>
      ⟨_, rfl, (h.declare (declared.map Binder.name)).assignZero _⟩
  | .declare declared (some e) _, _, _, hdone, _, _, hready => by
      obtain ⟨_, heq⟩ := analyseStmt_declare hdone
      refine .of_done heq fun t h => ?_
      obtain ⟨t', hrun, h'⟩ := replays_evaluate (hready.declare (declared.map Binder.name)) e _
        (h.declare (declared.map Binder.name))
      refine ⟨_, ?_, h'.assign (declared.map Binder.name) _⟩
      simp only [analyseStmt, hrun, Step.andThen_done]
  | .ifThen condition body _, _, _, hdone, hcoherent, hscoped, hready => by
      obtain ⟨_, hb, _⟩ := analyseStmt_ifThen hdone
      rw [Stmt.isScoped, Bool.and_eq_true] at hscoped
      exact .ifThen hready hdone (replays_analyseBlock hrules body hb
        (coherent_evaluate hcoherent) hscoped.2 (hready.evaluate condition).openScope)
  | .switch scrutinee cases _, _, _, hdone, hcoherent, hscoped, hready => by
      obtain ⟨_, hcs, heq⟩ := analyseStmt_switch hdone
      rw [Stmt.isScoped, Bool.and_eq_true] at hscoped
      refine .of_done heq fun t h => ?_
      obtain ⟨t₁, hscrutinee, h₁⟩ := replays_evaluate hready scrutinee t h
      obtain ⟨t₂, hcases, h₂⟩ := replays_analyseCases hrules cases hcs
        (coherent_evaluate hcoherent) hscoped.2 (hready.evaluate scrutinee) t₁ h₁
      refine ⟨leaveCases context _ t₂, ?_, (h₂.forgetStorageIf fun _ => rfl).clear _⟩
      simp only [analyseStmt, hscrutinee, Step.andThen_done, hcases]
  | .forLoop initial condition post body _, visible, s, hdone, hcoherent, hscoped, hready => by
      obtain ⟨hinitial, _, hb, hp, _⟩ := analyseStmt_forLoop hdone
      obtain ⟨_, hpost, hbody⟩ := Stmt.isScoped_forLoop hinitial hscoped
      have hhead : Ready pass visible (loopHead context condition post body s) :=
        (hready.clear _).forgetStorageIf _
      have hcoherentBody : Knowledge.Coherent context.dialect (analyseExpr context pass.hook
          condition (loopHead context condition post body s)).state.knowledge :=
        coherent_loopBody condition post body hcoherent
      have hafter := ready_analyseBlock body hb hcoherentBody hbody (hhead.analyseExpr condition)
      exact .forLoop hhead hdone rfl rfl
        (replays_analyseBlock hrules body hb hcoherentBody hbody
          (hhead.analyseExpr condition).openScope)
        (replays_analyseBlock hrules post hp
          (coherent_postHead _ _ (coherent_analyseBlock body hcoherentBody)) hpost
          ((hafter.clear _).forgetStorageIf _).openScope)
  | .function _ parameters results body _, _, _, hdone, hcoherent, hscoped, hready => by
      obtain ⟨hb, heq⟩ := analyseStmt_function hdone
      refine .of_done heq fun t h => ?_
      obtain ⟨t', hbody, h'⟩ := replays_analyseBlock hrules body hb
        (coherent_enterFunction _ _ hcoherent) hscoped (Ready.enterFunction _ _).openScope _
        (h.enterFunction (parameters.map Binder.name) (results.map Binder.name))
      refine ⟨_, ?_, h.leaveFunction h'⟩
      simp only [analyseStmt, hbody]
      rfl
  | .breakLoop _, _, _, _, _, _, _ => fun t h => ⟨t, rfl, h⟩
  | .continueLoop _, _, _, _, _, _, _ => fun t h => ⟨t, rfl, h⟩
  | .block body, _, _, hdone, hcoherent, hscoped, hready => by
      obtain ⟨hb, heq⟩ := analyseStmt_block hdone
      refine .of_done heq fun t h => ?_
      obtain ⟨t', hbody, h'⟩ :=
        replays_analyseBlock hrules body hb hcoherent hscoped hready.openScope t h
      refine ⟨t', ?_, h'⟩
      rw [analyseStmt, hbody]
      rfl

theorem replays_analyseStmts (hrules : ∀ rule ∈ context.rules, rule ∈ RuleTable.standard) :
    ∀ (stmts : List Stmt) {visible : List Name} {s : State PassCounts},
      (analyseStmts context pass.hook stmts s).error? = none →
        s.knowledge.Coherent context.dialect → Stmt.areScoped stmts visible = true →
          Ready pass visible s → Replays pass counts (analyseStmts context pass.hook) stmts s
  | [], _, _, _, _, _, _ => fun t h => ⟨t, rfl, h⟩
  | stmt :: stmts, _, _, hdone, hcoherent, hscoped, hready => by
      obtain ⟨hfirst, hrest, heq⟩ := analyseStmts_cons hdone
      rw [Stmt.areScoped, Bool.and_eq_true] at hscoped
      refine .of_done heq fun t h => ?_
      obtain ⟨t₁, hrun₁, h₁⟩ :=
        replays_analyseStmt hrules stmt hfirst hcoherent hscoped.1 hready t h
      obtain ⟨t₂, hrun₂, h₂⟩ := replays_analyseStmts hrules stmts hrest
        (coherent_analyseStmt stmt hcoherent) hscoped.2
        (ready_analyseStmt stmt hfirst hcoherent hscoped.1 hready) t₁ h₁
      refine ⟨t₂, ?_, h₂⟩
      rw [analyseStmts, hrun₁, Step.andThen_done, hrun₂]
      rfl

theorem replays_analyseCases (hrules : ∀ rule ∈ context.rules, rule ∈ RuleTable.standard) :
    ∀ (cases : List Case) {visible : List Name} {s : State PassCounts},
      (analyseCases context pass.hook cases s).error? = none →
        s.knowledge.Coherent context.dialect → Case.areScoped cases visible = true →
          Ready pass visible s → Replays pass counts (analyseCases context pass.hook) cases s
  | [], _, _, _, _, _, _ => fun t h => ⟨t, rfl, h⟩
  | ⟨value?, body, span⟩ :: cases, visible, s, hdone, hcoherent, hscoped, hready => by
      obtain ⟨hfirst, hrest, heq⟩ := analyseCases_cons hdone
      obtain ⟨hb, hcase⟩ := analyseCase_mk hfirst
      rw [Case.areScoped, Bool.and_eq_true] at hscoped
      have hafter : Ready pass visible
          (analyseCase context pass.hook ⟨value?, body, span⟩ s).state := by
        rw [hcase]
        exact (ready_analyseBlock body hb hcoherent hscoped.1 hready).caseEnd _ _
      refine .of_done heq fun t h => ?_
      obtain ⟨t₁, hrun₁, h₁⟩ := Replays.case hfirst
        (replays_analyseBlock hrules body hb hcoherent hscoped.1 hready.openScope) t h
      obtain ⟨t₂, hrun₂, h₂⟩ := replays_analyseCases hrules cases hrest
        (coherent_analyseCase _ hcoherent) hscoped.2 hafter t₁ h₁
      refine ⟨t₂, ?_, h₂⟩
      rw [analyseCases, hrun₁, Step.andThen_done, hrun₂]
      rfl

/-- A block that a pass has rewritten is passed again without a replacement. -/
theorem replays_analyseBlock (hrules : ∀ rule ∈ context.rules, rule ∈ RuleTable.standard) :
    ∀ (block : Block) {visible : List Name} {s : State PassCounts},
      (analyseBlock context pass.hook block s).error? = none →
        s.knowledge.Coherent context.dialect → block.isScoped visible = true →
          Ready pass visible (s.openScope false) →
            Replays pass counts (analyseBlock context pass.hook) block s
  | ⟨stmts, _⟩, _, _, hdone, hcoherent, hscoped, hready => by
      obtain ⟨hinner, heq, _⟩ := analyseBlock_mk hdone
      refine .of_done heq fun t h => ?_
      obtain ⟨t', hrun, h'⟩ := replays_analyseStmts hrules stmts hinner hcoherent hscoped hready _
        (h.openScope false)
      refine ⟨_, ?_, h'.closeScope⟩
      simp only [analyseBlock, hrun]
      rfl

end

/-! ### Whole runs -/

theorem hookOf_singleton (pass : Pass) : hookOf [pass] = pass.hook := by
  funext view e counts
  show (pass.hook view e counts).andThen id (Hook.idle view) = pass.hook view e counts
  unfold hook
  split <;> rfl

/-- Nothing is known and nothing is visible when the block of a program is entered. -/
theorem Ready.start (state : PassCounts) :
    Ready pass [] ((State.initial state).openScope false) where
  opened := List.cons_ne_nil _ _
  sees := nofun
  reads hx := by cases hx
  settled _ _ _ hx := by cases hx

/-- A pass reaches its fixpoint in one run: over a program where every variable is visible where it
is read or assigned, all assignments have values and no loop has an initial block, it runs to its
end, and a second run replaces nothing. -/
theorem run_reaches_fixpoint (added : List Builtin) (pass : Pass) (program : Block)
    (counts counts' : PassCounts) (hcomplete : program.isComplete = true)
    (hscoped : program.isScoped [] = true) :
    let dialect := (added.foldl BuiltinTable.define .evm).toDialect
    let first := run dialect [pass] program counts
    first.error? = none ∧ run dialect [pass] first.node counts' = .done first.node counts' := by
  intro dialect first
  have hrules : ∀ rule ∈ RuleTable.standard, rule ∈ RuleTable.standard := fun _ h => h
  have hrun : ∀ (program : Block) (counts : PassCounts), run dialect [pass] program counts =
      (analyseBlock { dialect } pass.hook program (.initial counts)).mapState State.hook := by
    intro program counts
    rw [run, hookOf_singleton, run_eq_analyseBlock Knowledge.coherent_empty]
  have hdone : (analyseBlock { dialect } pass.hook program (.initial counts)).error? = none :=
    analyseBlock_ok (hook_total pass) hrules program _ hcomplete
  have hechoes : Echoes pass counts' (.initial counts) (.initial counts') :=
    ⟨rfl, .refl ∅, rfl⟩
  obtain ⟨t, hagain, h⟩ := replays_analyseBlock hrules program hdone Knowledge.coherent_empty
    hscoped (Ready.start counts) _ hechoes
  refine ⟨?_, ?_⟩
  · show (run dialect [pass] program counts).error? = none
    rw [hrun]
    exact hdone
  · have hfirst : first.node = _ := congrArg Step.node (hrun program counts)
    rw [hfirst, hrun, Step.node_mapState, hagain, ← h.hook]
    rfl

/-- Copy propagation makes the inner declaration of `shadowing` read itself, load forwarding uses
what `storedThenLoaded` has stored. Neither finds more to do in what it has made. -/
theorem run_reaches_fixpoint_shadowing :
    let dialect := BuiltinTable.evm.toDialect
    let propagated := run dialect [.copyPropagation] shadowing {}
    let forwarded := run dialect [.loadForwarding] storedThenLoaded {}
    shadowing.isComplete = true ∧ shadowing.isScoped [] = true ∧ propagated.state = ⟨1, 0⟩ ∧
      run dialect [.copyPropagation] propagated.node {} = .done propagated.node {} ∧
      storedThenLoaded.isComplete = true ∧ storedThenLoaded.isScoped [] = true ∧
      forwarded.state = ⟨0, 1⟩ ∧
      run dialect [.loadForwarding] forwarded.node {} = .done forwarded.node {} := by
  have hshadowing : shadowing.isScoped [] = true := by decide
  have hstored : storedThenLoaded.isScoped [] = true := by decide
  have hpropagated := run_reaches_fixpoint [] .copyPropagation shadowing {} {} rfl hshadowing
  have hforwarded := run_reaches_fixpoint [] .loadForwarding storedThenLoaded {} {} rfl hstored
  simp only [List.foldl_nil] at hpropagated hforwarded
  exact ⟨rfl, hshadowing, by decide +kernel, hpropagated.2, rfl, hstored, by decide +kernel,
    hforwarded.2⟩

end Pass

end StorageFlow
