import StorageFlow.Proofs.Soundness.Statement

/-!
# StorageFlow.Proofs.Soundness.Program

Rewritten programs run as before.

* `holds_enterFunction` — what is known at the start of a function body holds for all arguments.
* `loopParts`, `sub_loopExit` — the knowledge of an analysis around a loop.
* `preserves_analyseBlock` — with a sound hook, running what an analysis makes of a block in place
  of the block makes no difference where its knowledge holds, and all functions keep their
  meanings.
-/

namespace StorageFlow.Analysis

variable {σ W : Type} {context : Context} {hook : Hook σ} {M : Model context.dialect W}
variable {trusted : Prop} {s : State σ} {span : Span}

/-! ### Functions -/

/-- At the start of a function body, only its results are known, and they are zero. -/
theorem value?_declareResults {results : List Name} {s : State σ} {x : Name} {e : Expr}
    (h : (s.declareResults results).knowledge.value? x = some e) :
    (x ∈ results ∧ e = .literal .zero) ∨ s.knowledge.value? x = some e := by
  induction results generalizing s with
  | nil => exact .inr h
  | cons name results ih =>
      rcases ih (s := (s.declare [name]).assignZero [name]) h with ⟨hmem, he⟩ | h
      · exact .inl ⟨List.mem_cons_of_mem _ hmem, he⟩
      · have h : ((s.declare [name]).knowledge.assignZero [name]).value? x = some e := h
        rw [Knowledge.value?_assignZero, knowledge_declare] at h
        split at h
        next hmem =>
          cases h
          exact .inl ⟨List.mem_singleton.1 hmem ▸ List.mem_cons_self, rfl⟩
        next => exact .inr (Knowledge.value?_of_clear h).1

theorem storedAt?_declareResults {results : List Name} {s : State σ} {slot value : Name}
    (h : (s.declareResults results).knowledge.storedAt? slot = some value) :
    s.knowledge.storedAt? slot = some value := by
  induction results generalizing s with
  | nil => exact h
  | cons name results ih =>
      have h := ih (s := (s.declare [name]).assignZero [name]) h
      have h : ((s.declare [name]).knowledge.assignZero [name]).storedAt? slot = some value := h
      have h := storedAt?_of_assignZero h
      rwa [knowledge_declare] at h

/-- What is known at the start of a function body holds for all arguments and machines. -/
theorem holds_enterFunction (parameters results : List Name) (words : List Word)
    (m : Machine W) :
    (s.enterFunction parameters results).knowledge.Holds M trusted
      (Env.atEntry parameters results words) m where
  values x e hx _ := by
    rcases value?_declareResults hx with ⟨hmem, rfl⟩ | hx
    · exact ⟨0, Env.bindZeros_of_mem hmem, Knowledge.valueIn_zero⟩
    · rw [knowledge_declare] at hx
      cases hx
  stored _ slot value hs := by
    have hs := storedAt?_declareResults hs
    rw [knowledge_declare] at hs
    cases hs

/-! ### Loops -/

/-- The knowledge of an analysis at the head of a loop. -/
theorem loopFrame (hcoherent : s.knowledge.Coherent context.dialect) (condition : Expr)
    (post body : Block) :
    LoopFrame context (loopHead context condition post body s).knowledge
      (body.assigned ++ post.assigned) condition post body where
  avoids := (hcoherent.avoids_clear _).of_sub (sub_forgetStorageIf _ _)
  body_targets hx := List.mem_append_left _ (Block.mem_assigned.2 hx)
  post_targets hx := List.mem_append_right _ (Block.mem_assigned.2 hx)
  steady := by
    by_cases hchanges : context.loopChangesStorage condition post body = true
    · refine .inl fun slot => ?_
      rw [loopHead, hchanges]
      exact Knowledge.storedAt?_forgetStorage slot
    · refine .inr fun ⟨op, hop, hchange⟩ => hchanges ?_
      rw [Context.loopChangesStorage, Bool.or_eq_true, Bool.or_eq_true,
        Expr.mayChangeStorage_iff, Block.mayChangeStorage_iff, Block.mayChangeStorage_iff]
      rcases List.mem_append.1 hop with hop | hop
      · rcases List.mem_append.1 hop with hop | hop
        · exact .inl (.inl ⟨op, hop, hchange⟩)
        · exact .inr ⟨op, hop, hchange⟩
      · exact .inl (.inr ⟨op, hop, hchange⟩)

/-- The knowledge of an analysis in a loop. -/
theorem loopParts (hkeeps : hook.KeepsStores) (hcoherent : s.knowledge.Coherent context.dialect)
    {condition : Expr} {post body : Block} {head : State σ}
    (hhead : head.knowledge = (loopHead context condition post body s).knowledge)
    (hb : (analyseBlock context hook body head).error? = none) :
    LoopParts context (loopHead context condition post body s).knowledge
      (analyseBlock context hook body head).state.knowledge
      (postHead context body (analyseBlock context hook body head).node
        (analyseBlock context hook body head).state).knowledge
      (body.assigned ++ post.assigned) condition post body
      (analyseBlock context hook body head).node where
  toLoopFrame := loopFrame hcoherent condition post body
  sub := (sub_forgetStorageIf _ _).trans (Knowledge.sub_clear _)
  late hx hlate := by
    rw [postHead, value?_forgetStorageIf] at hx
    exact (Knowledge.value?_of_clear hx).2 (Block.mem_assignedAfterContinue.2 hlate)
  stored hs := by
    obtain ⟨hchanges, hs⟩ := storedAt?_forgetStorageIf_eq_some.1 hs
    have hno : ¬ context.dialect.Changes (analyseBlock context hook body head).node.operations := by
      rw [← Block.mayChangeStorage_iff, hchanges]
      exact Bool.false_ne_true
    have hs := Knowledge.storedAt?_of_clear hs
    rcases storedAt?_of_analyseBlock hkeeps body hb hs with hs | hchange
    · rw [hhead] at hs
      exact ⟨hs, hno⟩
    · exact absurd hchange hno

/-- What is known behind a loop was known at its head. -/
theorem sub_loopExit (hkeeps : hook.KeepsStores) {initial post body : Block} {condition : Expr}
    (h : (analyseStmt context hook (.forLoop initial condition post body span) s).error? = none) :
    (analyseStmt context hook (.forLoop initial condition post body span) s).state.knowledge.Sub
      (loopHead context condition post body s).knowledge := by
  obtain ⟨_, _, hb, hp, heq⟩ := analyseStmt_forLoop h
  rw [heq]
  refine ⟨fun {x e} hx => ?_, fun {slot value} hs => ?_⟩
  · -- nothing is known of a variable that the loop assigns, and of others nothing new
    rw [Step.state_done, value?_forgetStorageIf] at hx
    obtain ⟨hx, hnames⟩ := Knowledge.value?_of_clear hx
    rw [List.mem_append, Block.mem_assigned, Block.mem_assigned, not_or] at hnames
    have hx := value?_of_analyseBlock post hp hnames.2 hx
    rw [postHead, value?_forgetStorageIf] at hx
    have hx := value?_of_analyseBlock body hb hnames.1 (Knowledge.value?_of_clear hx).1
    rwa [knowledge_analyseExpr] at hx
  · obtain ⟨hchanges, hs⟩ := storedAt?_forgetStorageIf_eq_some.1 hs
    rw [Context.loopChangesStorage, Bool.or_eq_false_iff, Bool.or_eq_false_iff] at hchanges
    obtain ⟨⟨_, hpost⟩, hbody⟩ := hchanges
    have hs := Knowledge.storedAt?_of_clear hs
    rcases storedAt?_of_analyseBlock hkeeps post hp hs with hs | hchange
    · have hs := Knowledge.storedAt?_of_clear (storedAt?_forgetStorageIf_eq_some.1 hs).2
      rcases storedAt?_of_analyseBlock hkeeps body hb hs with hs | hchange
      · rwa [knowledge_analyseExpr] at hs
      · rw [← Block.mayChangeStorage_iff, hbody] at hchange
        cases hchange
    · rw [← Block.mayChangeStorage_iff, hpost] at hchange
      cases hchange

/-! ### Branches -/

/-- Behind a branch, only what was known in front of it. -/
theorem sub_branch {body : Block} (hb : (analyseBlock context hook body s).error? = none) :
    ((((analyseBlock context hook body s).state.joinStorage s.knowledge.storage).clear
      (analyseBlock context hook body s).node.assigned)).knowledge.Sub s.knowledge where
  values hx := by
    obtain ⟨hx, hassigned⟩ := Knowledge.value?_of_clear hx
    rw [Block.mem_assigned, analyseBlock_targets body hb] at hassigned
    exact value?_of_analyseBlock body hb hassigned hx
  stored hs := (Knowledge.storedAt?_joinStorage_eq_some.1 (Knowledge.storedAt?_of_clear hs)).2

/-- Behind a branch, only what was known at the end of its body. -/
theorem sub_branchEnd (before : TwoWayMap Name) (names : List Name) (s : State σ) :
    ((s.joinStorage before).clear names).knowledge.Sub s.knowledge :=
  (Knowledge.sub_clear names).trans (Knowledge.sub_joinStorage before)

theorem sub_leaveCases (cases : List Case) (s : State σ) :
    (leaveCases context cases s).knowledge.Sub s.knowledge :=
  (Knowledge.sub_clear _).trans (sub_forgetStorageIf _ s)

theorem sub_analyseCases {cases : List Case}
    (h : (analyseCases context hook cases s).error? = none) :
    (analyseCases context hook cases s).state.knowledge.Sub s.knowledge where
  values hx := (value?_of_analyseCases cases h hx).1
  stored hs := storedAt?_of_analyseCases cases h hs

/-! ### Whole trees -/

theorem notMem_of_append {names more : List Name} {x : Name} (h : x ∉ names ++ more) :
    x ∉ names :=
  fun hmem => h (List.mem_append_left more hmem)

mutual

theorem preserves_analyseStmt (hsound : hook.Sound context M trusted)
    (hrules : trusted → ∀ rule ∈ context.rules, rule ∈ RuleTable.standard) :
    ∀ (stmt : Stmt) {s : State σ}, (analyseStmt context hook stmt s).error? = none →
      s.knowledge.Coherent context.dialect →
      Preserves M trusted s.knowledge (analyseStmt context hook stmt s).state.knowledge
          (stmt.lateTargets ++ stmt.declared) (fun calls => stmt.exec M calls)
          (fun calls => (analyseStmt context hook stmt s).node.exec M calls) ∧
        (analyseStmt context hook stmt s).node.meanings M = stmt.meanings M ∧
        (analyseStmt context hook stmt s).node.functions M = stmt.functions M
  | .expression e _, _, h, _ => by
      cases htracked : context.trackedStore? e with
      | some store =>
          refine ⟨preserves_trackedStore hsound hrules htracked h, ?_⟩
          obtain ⟨_, _, _, heq⟩ := analyseStmt_trackedStore htracked h
          rw [heq]
          exact ⟨rfl, rfl⟩
      | none =>
          refine ⟨preserves_expression hsound htracked h, ?_⟩
          obtain ⟨_, heq⟩ := analyseStmt_expression htracked h
          rw [heq]
          exact ⟨rfl, rfl⟩
  | .assign _ none _, _, h, _ => by cases h
  | .assign _ (some _) _, _, h, hcoherent => by
      refine ⟨preserves_assign hsound hcoherent h, ?_⟩
      obtain ⟨_, heq⟩ := analyseStmt_assign h
      rw [heq]
      exact ⟨rfl, rfl⟩
  | .declare declared none _, _, _, hcoherent =>
      ⟨(preserves_declareZeros hcoherent declared).mono ⟨id, id⟩ fun _ _ => List.not_mem_nil,
        rfl, rfl⟩
  | .declare _ (some _) _, _, h, hcoherent => by
      refine ⟨(preserves_declare hsound hcoherent h).mono ⟨id, id⟩ fun _ _ => List.not_mem_nil, ?_⟩
      obtain ⟨_, heq⟩ := analyseStmt_declare h
      rw [heq]
      exact ⟨rfl, rfl⟩
  | .ifThen _ body _, _, h, hcoherent => by
      obtain ⟨hc, hb, heq⟩ := analyseStmt_ifThen h
      obtain ⟨hbody, hfunctions⟩ :=
        preserves_analyseBlock hsound hrules body hb (coherent_evaluate hcoherent)
      rw [heq]
      refine ⟨?_, rfl, hfunctions⟩
      refine .ifThen (preservesWords_evaluate hsound hc) (hbody.mono ⟨id, id⟩ ?_) (sub_branch hb)
        (sub_branchEnd _ _ _)
      exact fun _ => notMem_of_append
  | .switch _ cases _, _, h, hcoherent => by
      obtain ⟨he, hcs, heq⟩ := analyseStmt_switch h
      obtain ⟨hcases, hfunctions⟩ :=
        preserves_analyseCases hsound hrules cases hcs (coherent_evaluate hcoherent)
      rw [heq]
      refine ⟨?_, rfl, hfunctions⟩
      refine .switch (preservesWords_evaluate hsound he)
        (fun n => (hcases n).mono ⟨id, id⟩ ?_) (analyseCases_names cases hcs).2.1
        ((sub_leaveCases _ _).trans (sub_analyseCases hcs)) (sub_leaveCases _ _)
      exact fun _ => notMem_of_append
  | .forLoop initial condition post body _, s, h, hcoherent => by
      have hexit := sub_loopExit hsound.keepsStores h
      obtain ⟨_, hc, hb, hp, heq⟩ := analyseStmt_forLoop h
      have hknowledge : (analyseExpr context hook condition
          (loopHead context condition post body s)).state.knowledge = _ :=
        knowledge_analyseExpr condition _
      have hcoherentBody : Knowledge.Coherent context.dialect (analyseExpr context hook condition
          (loopHead context condition post body s)).state.knowledge :=
        coherent_loopBody condition post body hcoherent
      have parts := loopParts hsound.keepsStores hcoherent hknowledge hb
      obtain ⟨hbody, hbodyFunctions⟩ := preserves_analyseBlock hsound hrules body hb hcoherentBody
      obtain ⟨hpost, hpostFunctions⟩ := preserves_analyseBlock hsound hrules post hp
        (coherent_postHead _ _ (coherent_analyseBlock body hcoherentBody))
      have hsteady : Steady context (loopHead context condition post body s).knowledge
          condition.operations :=
        parts.steady.mono fun _ hop => List.mem_append_left _ (List.mem_append_left _ hop)
      rw [hknowledge] at hbody
      rw [heq] at hexit ⊢
      refine ⟨?_, rfl, ?_⟩
      · -- a loop is left by `next` only, so no variable is excepted
        refine (Preserves.forLoop parts ⟨fun hholds => ?_, hsteady.eval⟩ hbody hpost
          ((sub_forgetStorageIf _ _).trans (Knowledge.sub_clear _)) hexit).mono ⟨id, id⟩
          fun _ _ => List.not_mem_nil
        exact eval_analyseExpr hsound condition hc
          (hsteady.mono fun _ hop => Expr.operationsAll_arguments hop) hholds
      · simp only [Step.node_done, Stmt.functions, hbodyFunctions, hpostFunctions]
  | .function _ parameters results body _, s, h, hcoherent => by
      obtain ⟨hb, heq⟩ := analyseStmt_function h
      obtain ⟨hbody, hfunctions⟩ :=
        preserves_analyseBlock hsound hrules body hb (coherent_enterFunction _ _ hcoherent)
      have hmeaning : meaningOf (parameters.map Binder.name) (results.map Binder.name)
            (fun calls => (analyseBlock context hook body (s.enterFunction
              (parameters.map Binder.name) (results.map Binder.name))).node.exec M calls) =
          meaningOf (parameters.map Binder.name) (results.map Binder.name)
            (fun calls => body.exec M calls) := by
        funext calls words m
        simp only [meaningOf, hbody.exec (holds_enterFunction _ _ words m)]
      rw [heq]
      refine ⟨preserves_skip _ _, ?_, ?_⟩
      · simp only [Step.node_done, Stmt.meanings, hmeaning]
      · simp only [Step.node_done, Stmt.functions, hmeaning, hfunctions]
  | .breakLoop _, _, _, _ => by
      refine ⟨⟨fun _ => rfl, fun _ hrun => ?_, fun _ hrun => ?_⟩, rfl, rfl⟩
      · cases hrun
      · cases hrun
  | .continueLoop _, _, _, _ => by
      refine ⟨⟨fun _ => rfl, fun _ hrun => ?_, fun hholds hrun x e hx _ => ?_⟩, rfl, rfl⟩
      · cases hrun
      · cases hrun
        exact hholds.values x e hx List.not_mem_nil
  | .block body, _, h, hcoherent => by
      obtain ⟨hb, heq⟩ := analyseStmt_block h
      obtain ⟨hbody, hfunctions⟩ := preserves_analyseBlock hsound hrules body hb hcoherent
      rw [heq]
      exact ⟨hbody.mono ⟨id, id⟩ fun _ => notMem_of_append, rfl, hfunctions⟩

theorem preserves_analyseStmts (hsound : hook.Sound context M trusted)
    (hrules : trusted → ∀ rule ∈ context.rules, rule ∈ RuleTable.standard) :
    ∀ (stmts : List Stmt) {s : State σ}, (analyseStmts context hook stmts s).error? = none →
      s.knowledge.Coherent context.dialect →
      Preserves M trusted s.knowledge (analyseStmts context hook stmts s).state.knowledge
          (Stmt.lateTargetsAll stmts ++ Stmt.declaredAll stmts)
          (fun calls => Stmt.execAll M calls stmts)
          (fun calls => Stmt.execAll M calls (analyseStmts context hook stmts s).node) ∧
        Stmt.meaningsAll M (analyseStmts context hook stmts s).node = Stmt.meaningsAll M stmts ∧
        Stmt.functionsAll M (analyseStmts context hook stmts s).node = Stmt.functionsAll M stmts
  | [], _, _, _ => ⟨preserves_skip _ _, rfl, rfl⟩
  | stmt :: stmts, _, h, hcoherent => by
      obtain ⟨hfirst, hrest, heq⟩ := analyseStmts_cons h
      obtain ⟨hstmt, hmeanings, hfunctions⟩ :=
        preserves_analyseStmt hsound hrules stmt hfirst hcoherent
      obtain ⟨hstmts, hmoreMeanings, hmoreFunctions⟩ :=
        preserves_analyseStmts hsound hrules stmts hrest (coherent_analyseStmt stmt hcoherent)
      rw [heq]
      refine ⟨.cons hstmt hstmts fun hx ht hd => ?_, ?_, ?_⟩
      · exact value?_of_analyseStmts stmts hrest ht hd hx
      · simp only [Step.node_done, Stmt.meaningsAll, hmeanings, hmoreMeanings]
      · simp only [Step.node_done, Stmt.functionsAll, hfunctions, hmoreFunctions]

theorem preserves_analyseCases (hsound : hook.Sound context M trusted)
    (hrules : trusted → ∀ rule ∈ context.rules, rule ∈ RuleTable.standard) :
    ∀ (cases : List Case) {s : State σ}, (analyseCases context hook cases s).error? = none →
      s.knowledge.Coherent context.dialect →
      (∀ n, Preserves M trusted s.knowledge (analyseCases context hook cases s).state.knowledge
          (Case.lateTargetsAll cases) (fun calls => Case.execNth M calls cases n)
          (fun calls => Case.execNth M calls (analyseCases context hook cases s).node n)) ∧
        Case.functionsAll M (analyseCases context hook cases s).node = Case.functionsAll M cases
  | [], _, _, _ => ⟨fun _ => preserves_skip _ _, rfl⟩
  | ⟨value?, body, span⟩ :: cases, s, h, hcoherent => by
      obtain ⟨hfirst, hrest, heq⟩ := analyseCases_cons h
      obtain ⟨hb, hcase⟩ := analyseCase_mk hfirst
      have hcoherentRest : Knowledge.Coherent context.dialect
          (analyseCase context hook ⟨value?, body, span⟩ s).state.knowledge :=
        coherent_analyseCase _ hcoherent
      obtain ⟨hbody, hfunctions⟩ := preserves_analyseBlock hsound hrules body hb hcoherent
      obtain ⟨hcases, hmoreFunctions⟩ :=
        preserves_analyseCases hsound hrules cases hrest hcoherentRest
      have hlast := sub_analyseCases hrest
      rw [heq]
      rw [hcase] at hcases hmoreFunctions hlast ⊢
      refine ⟨fun n => ?_, ?_⟩
      · cases n with
        | zero =>
            refine hbody.mono (hlast.trans ((sub_forgetStorageIf _ _).trans (sub_branchEnd _ _ _)))
              fun x => ?_
            exact notMem_of_append
        | succ n =>
            -- a later case starts from what is known in front of the first one, or less
            refine ((hcases n).of_sub ((sub_forgetStorageIf _ _).trans (sub_branch hb))).mono
              ⟨id, id⟩ fun x hx hmem => hx ?_
            rw [Case.lateTargetsAll, List.mem_append]
            right
            split
            · exact Case.lateTargetsAll_subset cases hmem
            · exact hmem
      · simp only [Step.node_done, Case.functionsAll, hfunctions, hmoreFunctions]

/-- What an analysis makes of a block runs as the block does. -/
theorem preserves_analyseBlock (hsound : hook.Sound context M trusted)
    (hrules : trusted → ∀ rule ∈ context.rules, rule ∈ RuleTable.standard) :
    ∀ (block : Block) {s : State σ}, (analyseBlock context hook block s).error? = none →
      s.knowledge.Coherent context.dialect →
      Preserves M trusted s.knowledge (analyseBlock context hook block s).state.knowledge
          block.lateTargets (fun calls => block.exec M calls)
          (fun calls => (analyseBlock context hook block s).node.exec M calls) ∧
        (analyseBlock context hook block s).node.functions M = block.functions M
  | ⟨stmts, _⟩, s, h, hcoherent => by
      obtain ⟨hinner, heq, names, hnames, hclear⟩ := analyseBlock_mk h
      obtain ⟨hstmts, hmeanings, hfunctions⟩ :=
        preserves_analyseStmts hsound hrules stmts hinner hcoherent
      have hend : Knowledge.Coherent context.dialect
          (analyseStmts context hook stmts (s.openScope false)).state.knowledge :=
        coherent_analyseStmts stmts hcoherent
      rw [heq, Step.state_done, hclear]
      exact ⟨.block hstmts hmeanings (analyseStmts_names stmts hinner).2.1 hend hnames, hfunctions⟩

end

end StorageFlow.Analysis
