import StorageFlow.Proofs.Analysis.Branching
import StorageFlow.Proofs.Soundness.Observed

/-!
# StorageFlow.Proofs.Analysis.StorageTransfer

Which facts about storage are known behind a branch, a switch or a loop.

* `Knowledge.Retains` — some names were written: the facts about storage that remain are those
  about variables that are not affected, and these variables keep their sources.
* `node_analyseStmt`, `node_analyseBlock` — an observing hook leaves the program as it is.
* `retains_analyseBlock` — a block that cannot change storage writes its names, and does no more.
* `branching_transfers_storage` — the facts behind a branching statement, whether it may change
  storage or not.

The sources matter as much as the facts: a later clearing drops the facts about all variables that
were computed from a cleared one, so the facts behind a sequence depend on the sources behind its
parts.
-/

namespace StorageFlow

/-! ### Writing names -/

namespace Knowledge

variable {dialect : Dialect} {k k' k'' : Knowledge} {names names' : List Name} {x : Name}

/-- What the knowledge `k` becomes when some names are written and storage stays: the facts about
storage that remain, and the sources of the variables that they are about. -/
structure Retains (k : Knowledge) (names : List Name) (k' : Knowledge) : Prop where
  stored : ∀ slot value, k'.storedAt? slot = some value ↔
    k.storedAt? slot = some value ∧ ¬ k.Affected names slot ∧ ¬ k.Affected names value
  linked : ∀ {x}, ¬ k.Affected names x → ∀ y,
    (k'.provenance.sources.Linked x y ↔ k.provenance.sources.Linked x y)

namespace Retains

theorem refl (k : Knowledge) : k.Retains [] k where
  stored slot value := by simp [Affected]
  linked _ _ := Iff.rfl

/-- A variable that the writes do not affect is affected by later writes as before. -/
theorem affected_iff (h : k.Retains names k') (hx : ¬ k.Affected names x) :
    k'.Affected names' x ↔ k.Affected names' x := by
  simp only [Affected, h.linked hx]

theorem trans (h : k.Retains names k') (h' : k'.Retains names' k'') :
    k.Retains (names ++ names') k'' where
  stored slot value := by
    rw [h'.stored, h.stored, affected_append, affected_append, not_or, not_or]
    constructor
    · rintro ⟨⟨hstored, hslot, hvalue⟩, hslot', hvalue'⟩
      exact ⟨hstored, ⟨hslot, fun ha => hslot' ((h.affected_iff hslot).2 ha)⟩, hvalue,
        fun ha => hvalue' ((h.affected_iff hvalue).2 ha)⟩
    · rintro ⟨hstored, ⟨hslot, hslot'⟩, hvalue, hvalue'⟩
      exact ⟨⟨hstored, hslot, hvalue⟩, fun ha => hslot' ((h.affected_iff hslot).1 ha),
        fun ha => hvalue' ((h.affected_iff hvalue).1 ha)⟩
  linked hx y := by
    rw [affected_append, not_or] at hx
    rw [h'.linked (fun ha => hx.2 ((h.affected_iff hx.1).1 ha)), h.linked hx.1]

theorem congr (h : k.Retains names k') (hsub : names ⊆ names') (hsub' : names' ⊆ names) :
    k.Retains names' k' := by
  have haffected : ∀ x, k.Affected names x ↔ k.Affected names' x := fun x =>
    ⟨(·.of_subset hsub), (·.of_subset hsub')⟩
  constructor
  · intro slot value
    rw [h.stored, haffected, haffected]
  · intro x hx y
    exact h.linked ((haffected x).not.2 hx) y

/-- Names that were written before may be written once more. -/
theorem absorb (h : k.Retains names k') (h' : k'.Retains names' k'') (hsub : names' ⊆ names) :
    k.Retains names k'' :=
  (h.trans h').congr (List.append_subset.2 ⟨List.Subset.refl _, hsub⟩)
    (List.subset_append_left _ _)

/-- Everything that remains was known before. -/
theorem joinStorage (h : k.Retains names k') : k.Retains names (k'.joinStorage k.storage) where
  stored slot value := by
    rw [storedAt?_joinStorage_eq_some, h.stored]
    exact and_iff_left_of_imp And.left
  linked := h.linked

end Retains

namespace Coherent

variable (h : k.Coherent dialect)

include h

theorem retains_clear (names : List Name) : k.Retains names (k.clear names) where
  stored _ _ := h.storedAt?_clear_eq_some
  linked hx _ := h.linked_clear.trans (and_iff_left hx)

theorem retains_assign (names : List Name) (value : Expr) :
    k.Retains names (k.assign dialect names value) where
  stored slot value' := by
    rw [storedAt?, storage_assign]
    exact h.storedAt?_clear_eq_some
  linked {x} hx y := by
    have hmem : x ∉ names := fun hmem => hx (.of_mem hmem)
    rw [provenance_assign, linked_derive, if_neg hmem]
    exact (h.retains_clear names).linked hx y

theorem retains_assignZero (names : List Name) : k.Retains names (k.assignZero names) where
  stored slot value := by
    rw [storedAt?, storage_assignZero]
    exact h.storedAt?_clear_eq_some
  linked {x} hx y := by
    have hmem : x ∉ names := fun hmem => hx (.of_mem hmem)
    rw [Knowledge.assignZero, linked_derive, if_neg hmem, provenance_foldl_learn]
    exact (h.retains_clear names).linked hx y

end Coherent

end Knowledge

/-! ### What a block assigns -/

theorem Block.assigned_subset_writes (block : Block) : block.assigned ⊆ block.writes :=
  fun _ hy => block.targets_subset_writes (Block.mem_assigned.1 hy)

theorem Case.assigned_subset_writes (cases : List Case) :
    (cases.flatMap fun case => case.body.assigned) ⊆ Case.writesAll cases := by
  induction cases with
  | nil => exact List.nil_subset _
  | cons case cases ih =>
      obtain ⟨_, body, _⟩ := case
      exact append_subset_append body.assigned_subset_writes ih

/-! ### Statements that cannot change storage -/

section Changes

variable {dialect : Dialect} {ops ops' : List Operation}

theorem Dialect.changes_append :
    dialect.Changes (ops ++ ops') ↔ dialect.Changes ops ∨ dialect.Changes ops' := by
  simp only [Dialect.Changes, List.mem_append, or_and_right, exists_or]

theorem Expr.mayChangeStorage_eq_false {e : Expr} (h : ¬ dialect.Changes e.operations) :
    e.mayChangeStorage dialect = false := by
  rwa [← Bool.not_eq_true, Expr.mayChangeStorage_iff]

theorem Block.mayChangeStorage_eq_false {block : Block} (h : ¬ dialect.Changes block.operations) :
    block.mayChangeStorage dialect = false := by
  rwa [← Bool.not_eq_true, Block.mayChangeStorage_iff]

theorem Block.mayChangeStorage_of_isEmpty {block : Block} (h : block.isEmpty = true) :
    block.mayChangeStorage dialect = false := by
  obtain ⟨stmts, _⟩ := block
  obtain rfl : stmts = [] := List.isEmpty_iff.1 h
  rfl

theorem Case.any_mayChangeStorage_iff {cases : List Case} :
    (cases.any fun case => case.body.mayChangeStorage dialect) = true ↔
      dialect.Changes (Case.operationsAll cases) := by
  induction cases with
  | nil => simp [Case.operationsAll, Dialect.Changes]
  | cons case cases ih =>
      obtain ⟨_, body, _⟩ := case
      rw [List.any_cons, Bool.or_eq_true, ih, Block.mayChangeStorage_iff]
      exact Dialect.changes_append.symm

/-- Whether the condition of a branching statement, or one of its blocks, may change storage. -/
def Stmt.branchChangesStorage (dialect : Dialect) : Stmt → Bool
  | .ifThen condition body _ =>
      condition.mayChangeStorage dialect || body.mayChangeStorage dialect
  | .switch scrutinee cases _ =>
      scrutinee.mayChangeStorage dialect ||
        cases.any fun case => case.body.mayChangeStorage dialect
  | .forLoop initial condition post body _ =>
      initial.mayChangeStorage dialect || condition.mayChangeStorage dialect ||
        body.mayChangeStorage dialect || post.mayChangeStorage dialect
  | _ => false

theorem Stmt.branchChangesStorage_iff {stmt : Stmt} (h : stmt.isBranching = true) :
    stmt.branchChangesStorage dialect = true ↔ dialect.Changes stmt.operations := by
  cases stmt with
  | ifThen condition body _ =>
      rw [branchChangesStorage, Stmt.operations, Bool.or_eq_true, Dialect.changes_append,
        Expr.mayChangeStorage_iff, Block.mayChangeStorage_iff]
  | switch scrutinee cases _ =>
      rw [branchChangesStorage, Stmt.operations, Bool.or_eq_true, Dialect.changes_append,
        Expr.mayChangeStorage_iff, Case.any_mayChangeStorage_iff]
  | forLoop initial condition post body _ =>
      simp only [branchChangesStorage, Stmt.operations, Bool.or_eq_true, Dialect.changes_append,
        Expr.mayChangeStorage_iff, Block.mayChangeStorage_iff]
  | _ => cases h

end Changes

namespace Analysis

variable {σ : Type} {context : Context} {hook : Hook σ} {s : State σ} {span : Span}

@[simp] theorem forgetStorageIf_false (s : State σ) : s.forgetStorageIf false = s := rfl

theorem loopChangesStorage_iff {condition : Expr} {post body : Block} :
    context.loopChangesStorage condition post body = true ↔
      context.dialect.Changes condition.operations ∨ context.dialect.Changes post.operations ∨
        context.dialect.Changes body.operations := by
  simp only [Context.loopChangesStorage, Bool.or_eq_true, Expr.mayChangeStorage_iff,
    Block.mayChangeStorage_iff, or_assoc]

theorem trackedStore?_eq_none {e : Expr} (h : ¬ context.dialect.Changes e.operations) :
    context.trackedStore? e = none := by
  cases htracked : context.trackedStore? e with
  | none => rfl
  | some store =>
      obtain ⟨op, _, _, hop, _, _, _, hwrites⟩ := trackedStore?_eq_some htracked
      refine absurd ⟨op, ?_, ?_⟩ h
      · rw [Expr.operations_of_root? hop]
        exact List.mem_append_right _ (List.mem_singleton_self op)
      · rw [Dialect.changesStorage, Effects.mayChangeStorage, hwrites, Bool.or_true]

theorem evaluate_of_not_changes {e : Expr} (h : ¬ context.dialect.Changes e.operations)
    (s : State σ) : evaluate context hook e s = analyseExpr context hook e s := by
  rw [evaluate, Expr.mayChangeStorage_eq_false h, forgetStorageIf_false]

theorem knowledge_evaluate_of_not_changes {e : Expr}
    (h : ¬ context.dialect.Changes e.operations) (s : State σ) :
    (evaluate context hook e s).state.knowledge = s.knowledge := by
  rw [knowledge_evaluate, Expr.mayChangeStorage_eq_false h, forgetStorageIf_false]

/-! ### Observing hooks leave programs as they are -/

mutual

theorem node_analyseStmt (hobserves : hook.Observes) : ∀ (stmt : Stmt) {s : State σ},
    (analyseStmt context hook stmt s).error? = none →
      (analyseStmt context hook stmt s).node = stmt
  | .expression e _, _, h => by
      cases htracked : context.trackedStore? e with
      | some store =>
          obtain ⟨hvalue, _, _, heq⟩ := analyseStmt_trackedStore htracked h
          rw [heq, Step.node_done, node_analyseExpr hobserves e hvalue]
      | none =>
          obtain ⟨hvalue, heq⟩ := analyseStmt_expression htracked h
          rw [heq, Step.node_done, evaluate, node_analyseExpr hobserves e hvalue]
  | .assign _ none _, _, h => by cases h
  | .assign _ (some value) _, _, h => by
      obtain ⟨hvalue, heq⟩ := analyseStmt_assign h
      rw [heq, Step.node_done, evaluate, node_analyseExpr hobserves value hvalue]
  | .declare _ none _, _, _ => rfl
  | .declare _ (some value) _, _, h => by
      obtain ⟨hvalue, heq⟩ := analyseStmt_declare h
      rw [heq, Step.node_done, evaluate, node_analyseExpr hobserves value hvalue]
  | .ifThen condition body _, _, h => by
      obtain ⟨hc, hb, heq⟩ := analyseStmt_ifThen h
      rw [heq, Step.node_done, node_analyseBlock hobserves body hb, evaluate,
        node_analyseExpr hobserves condition hc]
  | .switch scrutinee cases _, _, h => by
      obtain ⟨he, hcs, heq⟩ := analyseStmt_switch h
      rw [heq, Step.node_done, node_analyseCases hobserves cases hcs, evaluate,
        node_analyseExpr hobserves scrutinee he]
  | .forLoop _ condition post body _, _, h => by
      obtain ⟨_, hc, hb, hp, heq⟩ := analyseStmt_forLoop h
      rw [heq, Step.node_done, node_analyseBlock hobserves post hp,
        node_analyseBlock hobserves body hb, node_analyseExpr hobserves condition hc]
  | .function _ _ _ body _, _, h => by
      obtain ⟨hb, heq⟩ := analyseStmt_function h
      rw [heq, Step.node_done, node_analyseBlock hobserves body hb]
  | .breakLoop _, _, _ => rfl
  | .continueLoop _, _, _ => rfl
  | .block body, _, h => by
      obtain ⟨hb, heq⟩ := analyseStmt_block h
      rw [heq, Step.node_done, node_analyseBlock hobserves body hb]

theorem node_analyseStmts (hobserves : hook.Observes) : ∀ (stmts : List Stmt) {s : State σ},
    (analyseStmts context hook stmts s).error? = none →
      (analyseStmts context hook stmts s).node = stmts
  | [], _, _ => rfl
  | stmt :: stmts, _, h => by
      obtain ⟨hfirst, hrest, heq⟩ := analyseStmts_cons h
      rw [heq, Step.node_done, node_analyseStmt hobserves stmt hfirst,
        node_analyseStmts hobserves stmts hrest]

theorem node_analyseCases (hobserves : hook.Observes) : ∀ (cases : List Case) {s : State σ},
    (analyseCases context hook cases s).error? = none →
      (analyseCases context hook cases s).node = cases
  | [], _, _ => rfl
  | ⟨_, body, _⟩ :: cases, _, h => by
      obtain ⟨hfirst, hrest, heq⟩ := analyseCases_cons h
      obtain ⟨hb, hcase⟩ := analyseCase_mk hfirst
      rw [heq, Step.node_done, node_analyseCases hobserves cases hrest, hcase, Step.node_done,
        node_analyseBlock hobserves body hb]

/-- An analysis with an observing hook that comes to its end leaves a block as it is. -/
theorem node_analyseBlock (hobserves : hook.Observes) : ∀ (block : Block) {s : State σ},
    (analyseBlock context hook block s).error? = none →
      (analyseBlock context hook block s).node = block
  | ⟨stmts, _⟩, _, h => by
      obtain ⟨hinner, heq, _⟩ := analyseBlock_mk h
      rw [heq, Step.node_done, node_analyseStmts hobserves stmts hinner]

end

/-! ### Code that cannot change storage -/

/-- A loop that cannot change storage: each clearing on the way from its head through the body and
the post block forgets names that one of its blocks writes. -/
theorem retains_loop {condition : Expr} {post body : Block} {bodyEnd postEnd : State σ}
    (hno : context.loopChangesStorage condition post body = false)
    (hcoherent : s.knowledge.Coherent context.dialect)
    (hbodyEnd : bodyEnd.knowledge.Coherent context.dialect)
    (hpostEnd : postEnd.knowledge.Coherent context.dialect)
    (hbody : (loopHead context condition post body s).knowledge.Retains body.writes
      bodyEnd.knowledge)
    (hpost : (postHead context body body bodyEnd).knowledge.Retains post.writes
      postEnd.knowledge) :
    s.knowledge.Retains (body.writes ++ post.writes)
      (postEnd.clear (body.assigned ++ post.assigned)).knowledge := by
  have hsub : body.assigned ++ post.assigned ⊆ body.writes ++ post.writes :=
    append_subset_append body.assigned_subset_writes post.assigned_subset_writes
  have hlate : body.assignedAfterContinue ⊆ body.writes := fun _ hy =>
    body.targets_subset_writes (body.lateTargets_subset (Block.mem_assignedAfterContinue.1 hy))
  have hquiet : body.mayChangeStorage context.dialect = false := by
    simp only [Context.loopChangesStorage, Bool.or_eq_false_iff] at hno
    exact hno.2
  rw [loopHead, hno] at hbody
  rw [postHead, hquiet] at hpost
  have hhead := hcoherent.retains_clear (body.assigned ++ post.assigned)
  have hcontinue := hbodyEnd.retains_clear body.assignedAfterContinue
  have hend := hpostEnd.retains_clear (body.assigned ++ post.assigned)
  have hround := (hbody.absorb hcontinue hlate).trans hpost
  refine ((hhead.trans hround).congr ?_ (List.subset_append_right _ _)).absorb hend hsub
  exact List.append_subset.2 ⟨hsub, List.Subset.refl _⟩

mutual

theorem retains_analyseStmt (hobserves : hook.Observes) : ∀ (stmt : Stmt) {s : State σ},
    s.knowledge.Coherent context.dialect → ¬ context.dialect.Changes stmt.operations →
      (analyseStmt context hook stmt s).error? = none →
        s.knowledge.Retains stmt.writes (analyseStmt context hook stmt s).state.knowledge
  | .expression e _, s, _, hno, h => by
      obtain ⟨_, heq⟩ := analyseStmt_expression (trackedStore?_eq_none hno) h
      rw [heq, Step.state_done, knowledge_evaluate_of_not_changes hno]
      exact .refl _
  | .assign _ none _, _, _, _, h => by cases h
  | .assign targets (some value) _, s, hcoherent, hno, h => by
      obtain ⟨_, heq⟩ := analyseStmt_assign h
      rw [heq, Step.state_done, State.assign, knowledge_evaluate_of_not_changes hno]
      exact hcoherent.retains_assign (targetNames targets) _
  | .declare declared none _, s, hcoherent, _, _ => by
      have hdeclared := hcoherent.retains_assignZero (declared.map Binder.name)
      rw [← knowledge_declare (declared.map Binder.name) s] at hdeclared
      rw [← knowledge_declare (declared.map Binder.name) s]
      exact hdeclared
  | .declare declared (some value) _, s, hcoherent, hno, h => by
      obtain ⟨_, heq⟩ := analyseStmt_declare h
      rw [heq, Step.state_done, State.assign, knowledge_evaluate_of_not_changes hno,
        knowledge_declare]
      exact hcoherent.retains_assign (declared.map Binder.name) _
  | .ifThen condition body _, s, hcoherent, hno, h => by
      rw [Stmt.operations, Dialect.changes_append, not_or] at hno
      obtain ⟨_, hb, heq⟩ := analyseStmt_ifThen h
      have hstart : (evaluate context hook condition s).state.knowledge = s.knowledge :=
        knowledge_evaluate_of_not_changes hno.1 s
      have hbody := retains_analyseBlock hobserves body (coherent_evaluate hcoherent) hno.2 hb
      have inv := coherent_invariant context hook
      have hend := inv.analyseBlock body (inv.evaluate condition ⟨hcoherent, trivial⟩)
      rw [heq, Step.state_done, node_analyseBlock hobserves body hb, knowledge_clear,
        knowledge_joinStorage, ← hstart]
      exact hbody.joinStorage.absorb ((hend.1.joinStorage _).retains_clear _)
        body.assigned_subset_writes
  | .switch scrutinee cases _, s, hcoherent, hno, h => by
      rw [Stmt.operations, Dialect.changes_append, not_or] at hno
      obtain ⟨_, hcs, heq⟩ := analyseStmt_switch h
      have inv := coherent_invariant context hook
      have hscrutinee := inv.evaluate scrutinee ⟨hcoherent, trivial⟩
      have hend := inv.analyseCases cases hscrutinee
      have hcases := retains_analyseCases hobserves cases hscrutinee.1 hno.2 hcs
      rw [knowledge_evaluate_of_not_changes hno.1] at hcases
      have hquiet : (cases.any fun case => case.body.mayChangeStorage context.dialect) = false := by
        rw [← Bool.not_eq_true, Case.any_mayChangeStorage_iff]
        exact hno.2
      rw [heq, Step.state_done, node_analyseCases hobserves cases hcs, leaveCases, hquiet]
      exact hcases.absorb (hend.1.retains_clear _) (Case.assigned_subset_writes cases)
  | .forLoop initial condition post body _, s, hcoherent, hno, h => by
      simp only [Stmt.operations, Dialect.changes_append, not_or] at hno
      obtain ⟨⟨⟨_, hnoCondition⟩, hnoBody⟩, hnoPost⟩ := hno
      obtain ⟨hinitial, hc, hb, hp, heq⟩ := analyseStmt_forLoop h
      have hquiet : context.loopChangesStorage condition post body = false := by
        rw [← Bool.not_eq_true, loopChangesStorage_iff]
        simp only [hnoCondition, hnoBody, hnoPost, or_self, not_false_eq_true]
      rw [heq, Step.state_done, Stmt.writes, Block.writes_of_isEmpty hinitial, List.nil_append]
      rw [node_analyseBlock hobserves post hp, node_analyseExpr hobserves condition hc]
      rw [node_analyseBlock hobserves body hb] at hp ⊢
      rw [hquiet]
      have inv := coherent_invariant context hook
      have hcondition := inv.analyseExpr condition
        (inv.at_loopHead condition post body ⟨hcoherent, trivial⟩)
      have hbodyEnd := inv.analyseBlock body hcondition
      have hpostHead := inv.at_postHead body body hbodyEnd
      have hbody := retains_analyseBlock hobserves body hcondition.1 hnoBody hb
      rw [knowledge_analyseExpr] at hbody
      exact retains_loop hquiet hcoherent hbodyEnd.1 (inv.analyseBlock post hpostHead).1 hbody
        (retains_analyseBlock hobserves post hpostHead.1 hnoPost hp)
  | .function _ _ _ _ _, s, _, _, h => by
      obtain ⟨_, heq⟩ := analyseStmt_function h
      rw [heq]
      exact .refl _
  | .breakLoop _, _, _, _, _ => .refl _
  | .continueLoop _, _, _, _, _ => .refl _
  | .block body, _, hcoherent, hno, h => by
      obtain ⟨hb, heq⟩ := analyseStmt_block h
      rw [heq]
      exact retains_analyseBlock hobserves body hcoherent hno hb

theorem retains_analyseStmts (hobserves : hook.Observes) : ∀ (stmts : List Stmt) {s : State σ},
    s.knowledge.Coherent context.dialect → ¬ context.dialect.Changes (Stmt.operationsAll stmts) →
      (analyseStmts context hook stmts s).error? = none →
        s.knowledge.Retains (Stmt.writesAll stmts)
          (analyseStmts context hook stmts s).state.knowledge
  | [], _, _, _, _ => .refl _
  | stmt :: stmts, s, hcoherent, hno, h => by
      rw [Stmt.operationsAll, Dialect.changes_append, not_or] at hno
      obtain ⟨hfirst, hrest, heq⟩ := analyseStmts_cons h
      have hmiddle : (analyseStmt context hook stmt s).state.knowledge.Coherent context.dialect :=
        coherent_analyseStmt stmt hcoherent
      rw [heq]
      exact (retains_analyseStmt hobserves stmt hcoherent hno.1 hfirst).trans
        (retains_analyseStmts hobserves stmts hmiddle hno.2 hrest)

theorem retains_analyseCases (hobserves : hook.Observes) : ∀ (cases : List Case) {s : State σ},
    s.knowledge.Coherent context.dialect → ¬ context.dialect.Changes (Case.operationsAll cases) →
      (analyseCases context hook cases s).error? = none →
        s.knowledge.Retains (Case.writesAll cases)
          (analyseCases context hook cases s).state.knowledge
  | [], _, _, _, _ => .refl _
  | ⟨value?, body, span⟩ :: cases, s, hcoherent, hno, h => by
      rw [Case.operationsAll, Dialect.changes_append, not_or] at hno
      obtain ⟨hfirst, hrest, heq⟩ := analyseCases_cons h
      obtain ⟨hb, hcase⟩ := analyseCase_mk hfirst
      have hmiddle : (analyseCase context hook ⟨value?, body, span⟩ s).state.knowledge.Coherent
          context.dialect := coherent_analyseCase _ hcoherent
      have hend : (analyseBlock context hook body s).state.knowledge.Coherent context.dialect :=
        coherent_analyseBlock body hcoherent
      have hbody := retains_analyseBlock hobserves body hcoherent hno.1 hb
      have hthrough : s.knowledge.Retains body.writes
          (analyseCase context hook ⟨value?, body, span⟩ s).state.knowledge := by
        rw [hcase, Step.state_done, node_analyseBlock hobserves body hb, caseEnd,
          Block.mayChangeStorage_eq_false hno.1, forgetStorageIf_false]
        exact hbody.joinStorage.absorb ((hend.joinStorage _).retains_clear _)
          body.assigned_subset_writes
      rw [heq]
      exact hthrough.trans (retains_analyseCases hobserves cases hmiddle hno.2 hrest)

/-- A block that cannot change storage keeps the facts that its writes do not affect. -/
theorem retains_analyseBlock (hobserves : hook.Observes) : ∀ (block : Block) {s : State σ},
    s.knowledge.Coherent context.dialect → ¬ context.dialect.Changes block.operations →
      (analyseBlock context hook block s).error? = none →
        s.knowledge.Retains block.writes (analyseBlock context hook block s).state.knowledge
  | ⟨stmts, _⟩, s, hcoherent, hno, h => by
      obtain ⟨hinner, heq, names, hnames, hclear⟩ := analyseBlock_mk h
      have hstart : (s.openScope false).knowledge.Coherent context.dialect := hcoherent
      have hend : (analyseStmts context hook stmts (s.openScope false)).state.knowledge.Coherent
          context.dialect := coherent_analyseStmts stmts hstart
      rw [heq, Step.state_done, hclear]
      refine (retains_analyseStmts hobserves stmts hstart hno hinner).absorb
        (hend.retains_clear names) fun y hy => ?_
      exact Stmt.declaredAll_subset_writes stmts ((hnames y).1 hy)

end

/-! ### Branches -/

/-- Behind a branch that may run or not, whatever its body does to storage. -/
theorem storedAt?_ifThen_iff {condition : Expr} {body : Block} {slot value : Name}
    (hcoherent : s.knowledge.Coherent context.dialect)
    (h : (analyseStmt context hook (.ifThen condition body span) s).error? = none) :
    let bodyEnd :=
      (analyseBlock context hook body (evaluate context hook condition s).state).state.knowledge
    (analyseStmt context hook (.ifThen condition body span) s).state.knowledge.storedAt? slot =
        some value ↔
      condition.mayChangeStorage context.dialect = false ∧
        s.knowledge.storedAt? slot = some value ∧ bodyEnd.storedAt? slot = some value ∧
        ¬ bodyEnd.Affected body.targets slot ∧ ¬ bodyEnd.Affected body.targets value := by
  intro bodyEnd
  obtain ⟨_, hb, heq⟩ := analyseStmt_ifThen h
  have inv := coherent_invariant context hook
  have hend := inv.analyseBlock body (inv.evaluate condition ⟨hcoherent, trivial⟩)
  -- the join keeps the sources, and what is assigned are the targets of the body
  have haffected : ∀ x before, (bodyEnd.joinStorage before).Affected
      (analyseBlock context hook body (evaluate context hook condition s).state).node.assigned x ↔
        bodyEnd.Affected body.targets x := by
    intro x before
    rw [← analyseBlock_targets body hb]
    exact ⟨(·.of_subset fun _ => Block.mem_assigned.1), (·.of_subset fun _ => Block.mem_assigned.2)⟩
  have hbefore : (evaluate context hook condition s).state.knowledge.storage.get? slot =
      some value ↔ condition.mayChangeStorage context.dialect = false ∧
        s.knowledge.storedAt? slot = some value := by
    rw [knowledge_evaluate]
    exact storedAt?_forgetStorageIf_eq_some
  rw [heq, Step.state_done, knowledge_clear, knowledge_joinStorage,
    (hend.1.joinStorage _).storedAt?_clear_eq_some, haffected, haffected,
    Knowledge.storedAt?_joinStorage_eq_some, hbefore]
  constructor
  · rintro ⟨⟨hstored, hcondition, hs⟩, hfree⟩
    exact ⟨hcondition, hs, hstored, hfree⟩
  · rintro ⟨hcondition, hs, hstored, hfree⟩
    exact ⟨⟨hstored, hcondition, hs⟩, hfree⟩

/-- A switch that may change storage leaves no fact about it. -/
theorem storedAt?_switch_eq_none (hobserves : hook.Observes) {scrutinee : Expr} {cases : List Case}
    (hchanges : (Stmt.switch scrutinee cases span).branchChangesStorage context.dialect = true)
    (h : (analyseStmt context hook (.switch scrutinee cases span) s).error? = none)
    (slot : Name) :
    (analyseStmt context hook (.switch scrutinee cases span) s).state.knowledge.storedAt? slot =
      none := by
  obtain ⟨_, hcs, heq⟩ := analyseStmt_switch h
  rw [Option.eq_none_iff_forall_ne_some]
  intro value hstored
  rw [heq, Step.state_done, leaveCases, node_analyseCases hobserves cases hcs] at hstored
  obtain ⟨hquiet, hend⟩ := storedAt?_forgetStorageIf_eq_some.1
    (Knowledge.storedAt?_of_clear hstored)
  -- no case may change storage, so the scrutinee may, and no case adds a fact again
  have hbefore := storedAt?_of_analyseCases cases hcs hend
  rw [knowledge_evaluate] at hbefore
  rw [Stmt.branchChangesStorage, hquiet, Bool.or_false,
    (storedAt?_forgetStorageIf_eq_some.1 hbefore).1] at hchanges
  exact Bool.noConfusion hchanges

/-- A loop that may change storage leaves no fact about it. -/
theorem storedAt?_forLoop_eq_none (hobserves : hook.Observes) {initial post body : Block}
    {condition : Expr}
    (hchanges : (Stmt.forLoop initial condition post body span).branchChangesStorage
      context.dialect = true)
    (h : (analyseStmt context hook (.forLoop initial condition post body span) s).error? = none)
    (slot : Name) :
    (analyseStmt context hook (.forLoop initial condition post body span)
      s).state.knowledge.storedAt? slot = none := by
  obtain ⟨hinitial, hc, hb, hp, heq⟩ := analyseStmt_forLoop h
  have hloop : context.loopChangesStorage condition post body = true := by
    simp only [Stmt.branchChangesStorage, Block.mayChangeStorage_of_isEmpty hinitial,
      Bool.false_or] at hchanges
    rw [Context.loopChangesStorage, Bool.or_right_comm]
    exact hchanges
  rw [heq, Step.state_done, node_analyseBlock hobserves post hp,
    node_analyseBlock hobserves body hb, node_analyseExpr hobserves condition hc, hloop]
  exact Knowledge.storedAt?_forgetStorage slot

/-- What is known about storage behind a branching statement that may change it. Behind a branch
these are the facts from before it, if its condition does not change storage, that are also known at
the end of its body, and that what the body assigns does not affect. -/
def StoredBehind (context : Context) (hook : Hook σ) (s : State σ) (stmt : Stmt)
    (slot value : Name) : Prop :=
  match stmt with
  | .ifThen condition body _ =>
      let bodyEnd :=
        (analyseBlock context hook body (evaluate context hook condition s).state).state.knowledge
      condition.mayChangeStorage context.dialect = false ∧
        s.knowledge.storedAt? slot = some value ∧ bodyEnd.storedAt? slot = some value ∧
        ¬ bodyEnd.Affected body.targets slot ∧ ¬ bodyEnd.Affected body.targets value
  | _ => False

theorem retains_branching (hobserves : hook.Observes) {stmt : Stmt}
    (h : (analyseStmt context hook stmt s).error? = none) (hbranching : stmt.isBranching = true)
    (hcoherent : s.knowledge.Coherent context.dialect)
    (hquiet : stmt.branchChangesStorage context.dialect = false) :
    s.knowledge.Retains stmt.writes (analyseStmt context hook stmt s).state.knowledge := by
  have hno : ¬ context.dialect.Changes stmt.operations := by
    rw [← Stmt.branchChangesStorage_iff hbranching, hquiet]
    exact Bool.false_ne_true
  exact retains_analyseStmt hobserves stmt hcoherent hno h

theorem storedAt?_branching_iff (hobserves : hook.Observes) {stmt : Stmt}
    (h : (analyseStmt context hook stmt s).error? = none) (hbranching : stmt.isBranching = true)
    (hcoherent : s.knowledge.Coherent context.dialect)
    (hchanges : stmt.branchChangesStorage context.dialect = true) (slot value : Name) :
    (analyseStmt context hook stmt s).state.knowledge.storedAt? slot = some value ↔
      StoredBehind context hook s stmt slot value := by
  cases stmt with
  | ifThen condition body _ => exact storedAt?_ifThen_iff hcoherent h
  | switch scrutinee cases _ =>
      rw [storedAt?_switch_eq_none hobserves hchanges h]
      exact iff_of_false nofun id
  | forLoop initial condition post body _ =>
      rw [storedAt?_forLoop_eq_none hobserves hchanges h]
      exact iff_of_false nofun id
  | _ => cases hbranching

/-- What a branch, a switch or a loop does to facts about storage, exactly. In each reachable state,
and with any hook that only observes: if neither the condition nor a block may change storage, the
facts behind the statement are those from before it whose variables, and what these were computed
from, are neither assigned nor declared in its blocks. If some part may change storage, a switch and
a loop leave no fact; a branch leaves those from before it that its body establishes as well. -/
theorem branching_transfers_storage {dialect : Dialect} {s : State Unit} (h : Reachable dialect s)
    (rules : RuleTable) (config : Config) (hook : Hook σ) (hobserves : hook.Observes) (state : σ)
    {stmt : Stmt} (hbranching : stmt.isBranching = true)
    (hdone : (analyseStmt { dialect, rules, config } hook stmt (s.withHook state)).error? = none)
    (slot value : Name) :
    let behind := (analyseStmt { dialect, rules, config } hook stmt (s.withHook state)).state
    (stmt.branchChangesStorage dialect = false →
      (behind.knowledge.storedAt? slot = some value ↔
        s.knowledge.storedAt? slot = some value ∧ ¬ s.knowledge.Affected stmt.writes slot ∧
          ¬ s.knowledge.Affected stmt.writes value)) ∧
    (stmt.branchChangesStorage dialect = true →
      (behind.knowledge.storedAt? slot = some value ↔
        StoredBehind { dialect, rules, config } hook (s.withHook state) stmt slot value)) := by
  intro behind
  have hcoherent : (s.withHook state).knowledge.Coherent dialect :=
    h.known (coherent_preserved dialect)
  constructor
  · intro hquiet
    have hretains := retains_branching hobserves hdone hbranching hcoherent hquiet
    exact hretains.stored slot value
  · intro hchanges
    exact storedAt?_branching_iff hobserves hdone hbranching hcoherent hchanges slot value

/-- Stores the second of two words at the first one. -/
def storesSecond : Stmt :=
  .eval (.native .sstore [.ofName "first", .ofName "second"])

/-- A branch that stores the same word once more. -/
def storesAgain : Stmt :=
  .when (.ofName "flag") (.ofStatements [storesSecond])

/-- The fact about the first word outlives a store that makes it again, and no declaration of its
name. -/
theorem branching_transfers_storage_stored :
    let dialect := BuiltinTable.evm.toDialect
    let front := analyseStmts { dialect } (.idle : Hook Unit) (wordsAndFlag ++ [storesSecond])
      ((State.initial ()).openScope false)
    front.state.knowledge.storedAt? "first" = some "second" ∧
      (analyseStmt { dialect } (.idle : Hook Unit) storesAgain
        front.state).state.knowledge.storedAt? "first" = some "second" ∧
      (analyseStmt { dialect } (.idle : Hook Unit) redeclaresFirst
        front.state).state.knowledge.storedAt? "first" ≠ some "second" := by
  intro dialect front
  have hfront : front.error? = none := by decide +kernel
  have hstored : front.state.knowledge.storedAt? "first" = some "second" := by decide +kernel
  have hat : AtStmt { dialect } .idle ⟨wordsAndFlag ++ [storesSecond] ++ [storesAgain], .synthetic⟩
      (State.initial ()) storesAgain front.state := .mk hfront
  have hreachable : Reachable dialect front.state := reachable_idle (.here hat)
  have hdone : (analyseStmt { dialect } (.idle : Hook Unit) storesAgain
      (front.state.withHook ())).error? = none := by decide +kernel
  have hdone' : (analyseStmt { dialect } (.idle : Hook Unit) redeclaresFirst
      (front.state.withHook ())).error? = none := by decide +kernel
  have hstore := branching_transfers_storage hreachable .standard {} .idle
    (fun _ _ _ => rfl) () rfl hdone "first" "second"
  have hdeclaration := branching_transfers_storage hreachable .standard {} .idle
    (fun _ _ _ => rfl) () rfl hdone' "first" "second"
  rw [withHook_unit] at hstore hdeclaration
  have hchanges : storesAgain.branchChangesStorage dialect = true := by decide +kernel
  have hquiet : redeclaresFirst.branchChangesStorage dialect = false := by decide +kernel
  have hkept : StoredBehind { dialect } (.idle : Hook Unit) front.state storesAgain "first"
      "second" := by
    have hfree (k : Knowledge) (x : Name) : ¬ k.Affected [] x := by simp [Knowledge.Affected]
    refine ⟨?_, hstored, ?_, hfree _ _, hfree _ _⟩
    · decide +kernel
    · decide +kernel
  have hgone : front.state.knowledge.Affected redeclaresFirst.writes "first" :=
    .of_mem (by decide)
  refine ⟨hstored, (hstore.2 hchanges).2 hkept, fun hbehind => ?_⟩
  exact ((hdeclaration.1 hquiet).1 hbehind).2.1 hgone

end Analysis

end StorageFlow
