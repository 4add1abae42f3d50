import StorageFlow.Proofs.Analysis.Completed

/-!
# StorageFlow.Proofs.Analysis.Growth

Where knowledge can come from.

* `analyseStmt_names`, `analyseBlock_names` — expressions are rewritten, names and `continue`
  statements stay.
* `value?_of_analyseStmt` — a value that is known behind a statement was known before it, unless
  the statement assigns or declares the variable.
* `Hook.KeepsStores`, `storedAt?_of_analyseStmt` — a fact about storage that is known behind a
  statement was known before it, unless the rewritten statement may change storage.
-/

namespace StorageFlow

/-- The hook leaves operations with two operands as they are, so no tracked store is rewritten. -/
def Hook.KeepsStores {σ : Type} (hook : Hook σ) : Prop :=
  ∀ view e state, e.arguments.length = 2 → (hook view e state).node = e

namespace Analysis

variable {σ : Type} {context : Context} {hook : Hook σ}

/-! ### Names stay -/

theorem length_analyseExprs : ∀ {es : List Expr} {s : State σ},
    (analyseExprs context hook es s).error? = none →
      (analyseExprs context hook es s).node.length = es.length
  | [], _, _ => rfl
  | _ :: es, _, h => by
      obtain ⟨_, hrest, heq⟩ := analyseExprs_cons h
      rw [heq, Step.node_done, List.length_cons, List.length_cons, length_analyseExprs hrest]

mutual

theorem analyseStmt_names : ∀ (stmt : Stmt) {s : State σ},
    (analyseStmt context hook stmt s).error? = none →
      (analyseStmt context hook stmt s).node.targets = stmt.targets ∧
        (analyseStmt context hook stmt s).node.declared = stmt.declared ∧
          (analyseStmt context hook stmt s).node.lateTargets = stmt.lateTargets ∧
            (analyseStmt context hook stmt s).node.hasContinue = stmt.hasContinue
  | .expression e _, _, h => by
      cases htracked : context.trackedStore? e with
      | some store =>
          obtain ⟨_, _, _, heq⟩ := analyseStmt_trackedStore htracked h
          rw [heq]
          exact ⟨rfl, rfl, rfl, rfl⟩
      | none =>
          obtain ⟨_, heq⟩ := analyseStmt_expression htracked h
          rw [heq]
          exact ⟨rfl, rfl, rfl, rfl⟩
  | .assign _ none _, _, _ => ⟨rfl, rfl, rfl, rfl⟩
  | .assign _ (some _) _, _, h => by
      obtain ⟨_, heq⟩ := analyseStmt_assign h
      rw [heq]
      exact ⟨rfl, rfl, rfl, rfl⟩
  | .declare _ none _, _, _ => ⟨rfl, rfl, rfl, rfl⟩
  | .declare _ (some _) _, _, h => by
      obtain ⟨_, heq⟩ := analyseStmt_declare h
      rw [heq]
      exact ⟨rfl, rfl, rfl, rfl⟩
  | .ifThen _ body _, _, h => by
      obtain ⟨_, hb, heq⟩ := analyseStmt_ifThen h
      obtain ⟨htargets, hlate, hcontinue⟩ := analyseBlock_names body hb
      rw [heq]
      exact ⟨htargets, rfl, hlate, hcontinue⟩
  | .switch _ cases _, _, h => by
      obtain ⟨_, hcs, heq⟩ := analyseStmt_switch h
      obtain ⟨htargets, _, hlate, hcontinue⟩ := analyseCases_names cases hcs
      rw [heq]
      exact ⟨htargets, rfl, hlate, hcontinue⟩
  | .forLoop _ _ post body _, _, h => by
      obtain ⟨_, _, hb, hp, heq⟩ := analyseStmt_forLoop h
      rw [heq]
      refine ⟨?_, rfl, rfl, rfl⟩
      simp only [Step.node_done, Stmt.targets, (analyseBlock_names body hb).1,
        (analyseBlock_names post hp).1]
  | .function _ _ _ _ _, _, h => by
      obtain ⟨_, heq⟩ := analyseStmt_function h
      rw [heq]
      exact ⟨rfl, rfl, rfl, rfl⟩
  | .breakLoop _, _, _ => ⟨rfl, rfl, rfl, rfl⟩
  | .continueLoop _, _, _ => ⟨rfl, rfl, rfl, rfl⟩
  | .block body, _, h => by
      obtain ⟨hb, heq⟩ := analyseStmt_block h
      obtain ⟨htargets, hlate, hcontinue⟩ := analyseBlock_names body hb
      rw [heq]
      exact ⟨htargets, rfl, hlate, hcontinue⟩

theorem analyseStmts_names : ∀ (stmts : List Stmt) {s : State σ},
    (analyseStmts context hook stmts s).error? = none →
      Stmt.targetsAll (analyseStmts context hook stmts s).node = Stmt.targetsAll stmts ∧
        Stmt.declaredAll (analyseStmts context hook stmts s).node = Stmt.declaredAll stmts ∧
          Stmt.lateTargetsAll (analyseStmts context hook stmts s).node =
            Stmt.lateTargetsAll stmts ∧
            Stmt.hasContinueAny (analyseStmts context hook stmts s).node =
              Stmt.hasContinueAny stmts
  | [], _, _ => ⟨rfl, rfl, rfl, rfl⟩
  | stmt :: stmts, _, h => by
      obtain ⟨hfirst, hrest, heq⟩ := analyseStmts_cons h
      obtain ⟨htargets, hdeclared, hlate, hcontinue⟩ := analyseStmt_names stmt hfirst
      obtain ⟨htargets', hdeclared', hlate', hcontinue'⟩ := analyseStmts_names stmts hrest
      rw [heq]
      simp only [Step.node_done, Stmt.targetsAll, Stmt.declaredAll_cons, Stmt.lateTargetsAll,
        Stmt.hasContinueAny, htargets, hdeclared, hlate, hcontinue, htargets', hdeclared', hlate',
        hcontinue', and_self]

theorem analyseCases_names : ∀ (cases : List Case) {s : State σ},
    (analyseCases context hook cases s).error? = none →
      Case.targetsAll (analyseCases context hook cases s).node = Case.targetsAll cases ∧
        (analyseCases context hook cases s).node.map Case.value? = cases.map Case.value? ∧
          Case.lateTargetsAll (analyseCases context hook cases s).node =
            Case.lateTargetsAll cases ∧
            Case.hasContinueAny (analyseCases context hook cases s).node =
              Case.hasContinueAny cases
  | [], _, _ => ⟨rfl, rfl, rfl, rfl⟩
  | ⟨_, body, _⟩ :: cases, _, h => by
      obtain ⟨hfirst, hrest, heq⟩ := analyseCases_cons h
      obtain ⟨hb, hcase⟩ := analyseCase_mk hfirst
      obtain ⟨htargets, hlate, hcontinue⟩ := analyseBlock_names body hb
      obtain ⟨htargets', hvalues', hlate', hcontinue'⟩ := analyseCases_names cases hrest
      rw [heq, hcase]
      rw [hcase] at htargets' hvalues' hlate' hcontinue'
      simp only [Step.node_done, Step.state_done, Case.targetsAll, List.map_cons,
        Case.lateTargetsAll, Case.hasContinueAny, htargets, hlate, hcontinue]
        at htargets' hvalues' hlate' hcontinue' ⊢
      rw [htargets', hvalues', hlate', hcontinue']
      exact ⟨rfl, rfl, rfl, rfl⟩

/-- A block assigns the same names as before, with `continue` statements at the same places. -/
theorem analyseBlock_names : ∀ (block : Block) {s : State σ},
    (analyseBlock context hook block s).error? = none →
      (analyseBlock context hook block s).node.targets = block.targets ∧
        (analyseBlock context hook block s).node.lateTargets = block.lateTargets ∧
          (analyseBlock context hook block s).node.hasContinue = block.hasContinue
  | ⟨stmts, _⟩, _, h => by
      obtain ⟨hinner, heq, _⟩ := analyseBlock_mk h
      obtain ⟨htargets, _, hlate, hcontinue⟩ := analyseStmts_names stmts hinner
      rw [heq]
      exact ⟨htargets, hlate, hcontinue⟩

end

theorem analyseBlock_targets (block : Block) {s : State σ}
    (h : (analyseBlock context hook block s).error? = none) :
    (analyseBlock context hook block s).node.targets = block.targets :=
  (analyseBlock_names block h).1

theorem assigned_analyseBlock {block : Block} {s : State σ}
    (h : (analyseBlock context hook block s).error? = none) :
    (analyseBlock context hook block s).node.assigned = block.assigned := by
  rw [Block.assigned_eq, Block.assigned_eq, analyseBlock_targets block h]

theorem assignedAfterContinue_analyseBlock {block : Block} {s : State σ}
    (h : (analyseBlock context hook block s).error? = none) :
    (analyseBlock context hook block s).node.assignedAfterContinue =
      block.assignedAfterContinue := by
  rw [Block.assignedAfterContinue_eq, Block.assignedAfterContinue_eq,
    (analyseBlock_names block h).2.1]

/-! ### Values -/

@[simp] theorem value?_forgetStorageIf (s : State σ) (changed : Bool) (x : Name) :
    (s.forgetStorageIf changed).knowledge.value? x = s.knowledge.value? x := by
  unfold State.forgetStorageIf
  split <;> rfl

@[simp] theorem knowledge_declare (names : List Name) (s : State σ) :
    (s.declare names).knowledge = s.knowledge := by
  unfold State.declare
  split <;> rfl

@[simp] theorem knowledge_clear (names : List Name) (s : State σ) :
    (s.clear names).knowledge = s.knowledge.clear names := rfl

@[simp] theorem knowledge_joinStorage (before : TwoWayMap Name) (s : State σ) :
    (s.joinStorage before).knowledge = s.knowledge.joinStorage before := rfl

theorem value?_of_assign {names : List Name} {e e' : Expr} {x : Name} {k : Knowledge}
    (h : (k.assign context.dialect names e).value? x = some e') (hx : x ∉ names) :
    k.value? x = some e' := by
  rcases Knowledge.value?_assign_eq_some.1 h with ⟨hlearns, _⟩ | ⟨_, hclear⟩
  · exact absurd (hlearns.1 ▸ List.mem_singleton_self x) hx
  · exact (Knowledge.value?_of_clear hclear).1

mutual

theorem value?_of_analyseStmt : ∀ (stmt : Stmt) {s : State σ} {x : Name} {e : Expr},
    (analyseStmt context hook stmt s).error? = none → x ∉ stmt.targets → x ∉ stmt.declared →
      (analyseStmt context hook stmt s).state.knowledge.value? x = some e →
        s.knowledge.value? x = some e
  | .expression e _, s, x, _, h, _, _ => by
      cases htracked : context.trackedStore? e with
      | some store =>
          obtain ⟨_, _, hstore, heq⟩ := analyseStmt_trackedStore htracked h
          rw [heq, Step.state_done, Knowledge.value?_store hstore]
          exact id
      | none =>
          obtain ⟨_, heq⟩ := analyseStmt_expression htracked h
          rw [heq, Step.state_done, knowledge_evaluate, value?_forgetStorageIf]
          exact id
  | .assign _ none _, _, _, _, _, _, _ => id
  | .assign _ (some _) _, _, _, _, h, ht, _ => by
      obtain ⟨_, heq⟩ := analyseStmt_assign h
      rw [heq]
      intro hx
      have hx := value?_of_assign hx ht
      rwa [knowledge_evaluate, value?_forgetStorageIf] at hx
  | .declare declared none _, s, x, _, _, _, hd => fun hx => by
      have hd : x ∉ declared.map Binder.name := hd
      have hx : ((s.declare (declared.map Binder.name)).knowledge.assignZero
        (declared.map Binder.name)).value? x = _ := hx
      rw [Knowledge.value?_assignZero, if_neg hd, knowledge_declare] at hx
      exact (Knowledge.value?_of_clear hx).1
  | .declare _ (some _) _, _, _, _, h, _, hd => by
      obtain ⟨_, heq⟩ := analyseStmt_declare h
      rw [heq]
      intro hx
      have hx := value?_of_assign hx hd
      rwa [knowledge_evaluate, value?_forgetStorageIf, knowledge_declare] at hx
  | .ifThen _ body _, _, _, _, h, ht, _ => by
      obtain ⟨_, hb, heq⟩ := analyseStmt_ifThen h
      rw [heq]
      intro hx
      have hx := value?_of_analyseBlock body hb ht (Knowledge.value?_of_clear hx).1
      rwa [knowledge_evaluate, value?_forgetStorageIf] at hx
  | .switch _ cases _, _, _, _, h, ht, _ => by
      obtain ⟨_, hcs, heq⟩ := analyseStmt_switch h
      rw [heq]
      intro hx
      have hx := (Knowledge.value?_of_clear hx).1
      rw [value?_forgetStorageIf] at hx
      have hx := (value?_of_analyseCases cases hcs hx).1
      rwa [knowledge_evaluate, value?_forgetStorageIf] at hx
  | .forLoop _ condition post body _, _, _, _, h, ht, _ => by
      obtain ⟨_, _, hb, hp, heq⟩ := analyseStmt_forLoop h
      simp only [Stmt.targets, List.mem_append, not_or] at ht
      rw [heq]
      intro hx
      -- from behind the loop back through the post block and the body to its head
      rw [Step.state_done, value?_forgetStorageIf] at hx
      have hx := value?_of_analyseBlock post hp ht.2 (Knowledge.value?_of_clear hx).1
      rw [postHead, value?_forgetStorageIf] at hx
      have hx := value?_of_analyseBlock body hb ht.1.2 (Knowledge.value?_of_clear hx).1
      rw [knowledge_analyseExpr, loopHead, value?_forgetStorageIf] at hx
      exact (Knowledge.value?_of_clear hx).1
  | .function _ _ _ _ _, _, _, _, h, _, _ => by
      obtain ⟨_, heq⟩ := analyseStmt_function h
      rw [heq]
      exact id
  | .breakLoop _, _, _, _, _, _, _ => id
  | .continueLoop _, _, _, _, _, _, _ => id
  | .block body, _, _, _, h, ht, _ => by
      obtain ⟨hb, heq⟩ := analyseStmt_block h
      rw [heq]
      exact value?_of_analyseBlock body hb ht

theorem value?_of_analyseStmts : ∀ (stmts : List Stmt) {s : State σ} {x : Name} {e : Expr},
    (analyseStmts context hook stmts s).error? = none → x ∉ Stmt.targetsAll stmts →
      x ∉ Stmt.declaredAll stmts →
      (analyseStmts context hook stmts s).state.knowledge.value? x = some e →
        s.knowledge.value? x = some e
  | [], _, _, _, _, _, _ => id
  | stmt :: stmts, _, _, _, h, ht, hd => by
      obtain ⟨hfirst, hrest, heq⟩ := analyseStmts_cons h
      simp only [Stmt.targetsAll, Stmt.declaredAll_cons, List.mem_append, not_or] at ht hd
      rw [heq]
      intro hx
      exact value?_of_analyseStmt stmt hfirst ht.1 hd.1
        (value?_of_analyseStmts stmts hrest ht.2 hd.2 hx)

/-- Behind the cases of a switch, no value is known of a variable that one of them assigns. -/
theorem value?_of_analyseCases : ∀ (cases : List Case) {s : State σ} {x : Name} {e : Expr},
    (analyseCases context hook cases s).error? = none →
      (analyseCases context hook cases s).state.knowledge.value? x = some e →
        s.knowledge.value? x = some e ∧ x ∉ Case.targetsAll cases
  | [], _, _, _, _ => fun hx => ⟨hx, List.not_mem_nil⟩
  | ⟨_, body, _⟩ :: cases, s, x, e, h => by
      obtain ⟨hfirst, hrest, heq⟩ := analyseCases_cons h
      obtain ⟨hb, hcase⟩ := analyseCase_mk hfirst
      rw [heq]
      intro hx
      obtain ⟨hx, hrest⟩ := value?_of_analyseCases cases hrest hx
      rw [hcase, Step.state_done, caseEnd, value?_forgetStorageIf] at hx
      obtain ⟨hx, hassigned⟩ := Knowledge.value?_of_clear hx
      rw [Block.mem_assigned, analyseBlock_targets body hb] at hassigned
      refine ⟨value?_of_analyseBlock body hb hassigned hx, ?_⟩
      rw [Case.targetsAll, List.mem_append, not_or]
      exact ⟨hassigned, hrest⟩

/-- A value that is known behind a block was known before it, unless the block assigns the
variable. -/
theorem value?_of_analyseBlock : ∀ (block : Block) {s : State σ} {x : Name} {e : Expr},
    (analyseBlock context hook block s).error? = none → x ∉ block.targets →
      (analyseBlock context hook block s).state.knowledge.value? x = some e →
        s.knowledge.value? x = some e
  | ⟨stmts, _⟩, _, x, _, h, ht => by
      obtain ⟨hinner, heq, names, hnames, hclear⟩ := analyseBlock_mk h
      rw [heq, Step.state_done, hclear]
      intro hx
      obtain ⟨hx, hmem⟩ := Knowledge.value?_of_clear hx
      have hbefore :=
        value?_of_analyseStmts stmts hinner ht (fun hd => hmem ((hnames x).2 hd)) hx
      exact hbefore

end

/-! ### Facts about storage -/

theorem storedAt?_forgetStorageIf_eq_some {s : State σ} {changed : Bool} {slot value : Name} :
    (s.forgetStorageIf changed).knowledge.storedAt? slot = some value ↔
      changed = false ∧ s.knowledge.storedAt? slot = some value := by
  unfold State.forgetStorageIf
  cases changed <;> simp

theorem storedAt?_of_assign {names : List Name} {e : Expr} {slot value : Name} {k : Knowledge}
    (h : (k.assign context.dialect names e).storedAt? slot = some value) :
    k.storedAt? slot = some value := by
  rw [Knowledge.storedAt?, Knowledge.storage_assign] at h
  exact Knowledge.storedAt?_of_clear h

theorem storedAt?_of_assignZero {names : List Name} {slot value : Name} {k : Knowledge}
    (h : (k.assignZero names).storedAt? slot = some value) : k.storedAt? slot = some value := by
  rw [Knowledge.storedAt?, Knowledge.storage_assignZero] at h
  exact Knowledge.storedAt?_of_clear h

/-- A tracked store is an operation that writes a slot, on two variables. -/
theorem trackedStore?_eq_some {e : Expr} {slot value : Name}
    (h : context.trackedStore? e = some (slot, value)) :
    ∃ op x y, e.root? = some op ∧ e.arguments = [.identifier x, .identifier y] ∧ x.name = slot ∧
      y.name = value ∧ (context.dialect.effectsOf op).writesSlot = true := by
  unfold Context.trackedStore? at h
  split at h
  next callee x y _ =>
    split at h
    next hwrites =>
      cases h
      refine ⟨.call callee.name, x, y, rfl, rfl, rfl, rfl, ?_⟩
      rw [Dialect.effectsOf, Dialect.callEffects]
      cases heffects : context.dialect.callEffects? callee.name with
      | none => simp [heffects] at hwrites
      | some effects => simpa [heffects] using hwrites
    next => cases h
  next operator x y _ =>
    split at h
    next hwrites =>
      cases h
      exact ⟨.instruction operator, x, y, rfl, rfl, rfl, rfl, hwrites⟩
    next => cases h
  next => cases h

/-- A tracked store is still there, and may change storage, behind a hook that keeps stores. -/
theorem changes_trackedStore {e : Expr} {s : State σ} {store : Name × Name}
    (hkeeps : hook.KeepsStores) (htracked : context.trackedStore? e = some store)
    (h : (analyseExpr context hook e s).error? = none) :
    context.dialect.Changes (analyseExpr context hook e s).node.operations := by
  obtain ⟨slot, value⟩ := store
  obtain ⟨op, x, y, hop, hargs, _, _, hwrites⟩ := trackedStore?_eq_some htracked
  obtain ⟨has, heq⟩ := analyseExpr_operation hop h
  have hlength := length_analyseExprs has
  have hargs' := Expr.arguments_withArguments hop
    (analyseExprs context hook e.arguments s).node
  have hnode : (analyseExpr context hook e s).node =
      e.withArguments (analyseExprs context hook e.arguments s).node := by
    rw [heq]
    exact hkeeps _ _ _ (by rw [hargs', hlength, hargs]; rfl)
  have hroot := (Expr.root?_withArguments e (analyseExprs context hook e.arguments s).node).trans
    hop
  rw [hnode, Expr.operations_of_root? hroot]
  refine ⟨op, by simp, ?_⟩
  rw [Dialect.changesStorage, Effects.mayChangeStorage, hwrites, Bool.or_true]

mutual

theorem storedAt?_of_analyseStmt (hkeeps : hook.KeepsStores) :
    ∀ (stmt : Stmt) {s : State σ} {slot value : Name},
      (analyseStmt context hook stmt s).error? = none →
        (analyseStmt context hook stmt s).state.knowledge.storedAt? slot = some value →
          s.knowledge.storedAt? slot = some value ∨
            context.dialect.Changes (analyseStmt context hook stmt s).node.operations
  | .expression e _, s, _, _, h => by
      cases htracked : context.trackedStore? e with
      | some store =>
          obtain ⟨hvalue, _, _, heq⟩ := analyseStmt_trackedStore htracked h
          rw [heq]
          exact fun _ => .inr (changes_trackedStore hkeeps htracked hvalue)
      | none =>
          obtain ⟨_, heq⟩ := analyseStmt_expression htracked h
          rw [heq, Step.state_done, knowledge_evaluate]
          exact fun hs => .inl (storedAt?_forgetStorageIf_eq_some.1 hs).2
  | .assign _ none _, _, _, _, _ => .inl
  | .assign _ (some _) _, _, _, _, h => by
      obtain ⟨_, heq⟩ := analyseStmt_assign h
      rw [heq]
      intro hs
      have hs := storedAt?_of_assign hs
      rw [knowledge_evaluate] at hs
      exact .inl (storedAt?_forgetStorageIf_eq_some.1 hs).2
  | .declare declared none _, s, _, _, _ => fun hs => by
      have hs : ((s.declare (declared.map Binder.name)).knowledge.assignZero
        (declared.map Binder.name)).storedAt? _ = _ := hs
      have hs := storedAt?_of_assignZero hs
      rw [knowledge_declare] at hs
      exact .inl hs
  | .declare _ (some _) _, _, _, _, h => by
      obtain ⟨_, heq⟩ := analyseStmt_declare h
      rw [heq]
      intro hs
      have hs := storedAt?_of_assign hs
      rw [knowledge_evaluate, storedAt?_forgetStorageIf_eq_some, knowledge_declare] at hs
      exact .inl hs.2
  | .ifThen _ _ _, _, _, _, h => by
      obtain ⟨_, _, heq⟩ := analyseStmt_ifThen h
      rw [heq]
      intro hs
      have hs := Knowledge.storedAt?_of_clear hs
      -- whatever the body may store, the join keeps only what was known in front of it
      have hbefore := (Knowledge.storedAt?_joinStorage_eq_some.1 hs).2
      rw [knowledge_evaluate] at hbefore
      exact .inl (storedAt?_forgetStorageIf_eq_some.1 hbefore).2
  | .switch _ cases _, _, _, _, h => by
      obtain ⟨_, hcs, heq⟩ := analyseStmt_switch h
      rw [heq]
      intro hs
      have hs := (storedAt?_forgetStorageIf_eq_some.1 (Knowledge.storedAt?_of_clear hs)).2
      have hs := storedAt?_of_analyseCases cases hcs hs
      rw [knowledge_evaluate] at hs
      exact .inl (storedAt?_forgetStorageIf_eq_some.1 hs).2
  | .forLoop _ condition post body _, _, _, _, h => by
      obtain ⟨_, _, hb, hp, heq⟩ := analyseStmt_forLoop h
      rw [heq]
      intro hs
      have hs := Knowledge.storedAt?_of_clear (storedAt?_forgetStorageIf_eq_some.1 hs).2
      rcases storedAt?_of_analyseBlock hkeeps post hp hs with hs | hchanges
      · have hs := Knowledge.storedAt?_of_clear (storedAt?_forgetStorageIf_eq_some.1 hs).2
        rcases storedAt?_of_analyseBlock hkeeps body hb hs with hs | hchanges
        · rw [knowledge_analyseExpr] at hs
          exact .inl (Knowledge.storedAt?_of_clear (storedAt?_forgetStorageIf_eq_some.1 hs).2)
        · exact .inr (hchanges.mono fun _ hop =>
            List.mem_append_left _ (List.mem_append_right _ hop))
      · exact .inr (hchanges.mono fun _ hop => List.mem_append_right _ hop)
  | .function _ _ _ _ _, _, _, _, h => by
      obtain ⟨_, heq⟩ := analyseStmt_function h
      rw [heq]
      exact .inl
  | .breakLoop _, _, _, _, _ => .inl
  | .continueLoop _, _, _, _, _ => .inl
  | .block body, _, _, _, h => by
      obtain ⟨hb, heq⟩ := analyseStmt_block h
      rw [heq]
      exact storedAt?_of_analyseBlock hkeeps body hb

theorem storedAt?_of_analyseStmts (hkeeps : hook.KeepsStores) :
    ∀ (stmts : List Stmt) {s : State σ} {slot value : Name},
      (analyseStmts context hook stmts s).error? = none →
        (analyseStmts context hook stmts s).state.knowledge.storedAt? slot = some value →
          s.knowledge.storedAt? slot = some value ∨
            context.dialect.Changes (Stmt.operationsAll (analyseStmts context hook stmts s).node)
  | [], _, _, _, _ => .inl
  | stmt :: stmts, _, _, _, h => by
      obtain ⟨hfirst, hrest, heq⟩ := analyseStmts_cons h
      rw [heq]
      intro hs
      rcases storedAt?_of_analyseStmts hkeeps stmts hrest hs with hs | hchanges
      · rcases storedAt?_of_analyseStmt hkeeps stmt hfirst hs with hs | hchanges
        · exact .inl hs
        · exact .inr (hchanges.mono fun _ hop => List.mem_append_left _ hop)
      · exact .inr (hchanges.mono fun _ hop => List.mem_append_right _ hop)

/-- Behind the cases of a switch, no more is known about storage than before them. -/
theorem storedAt?_of_analyseCases :
    ∀ (cases : List Case) {s : State σ} {slot value : Name},
      (analyseCases context hook cases s).error? = none →
        (analyseCases context hook cases s).state.knowledge.storedAt? slot = some value →
          s.knowledge.storedAt? slot = some value
  | [], _, _, _, _ => id
  | ⟨_, _, _⟩ :: cases, _, _, _, h => by
      obtain ⟨hfirst, hrest, heq⟩ := analyseCases_cons h
      obtain ⟨_, hcase⟩ := analyseCase_mk hfirst
      rw [heq]
      intro hs
      have hs := storedAt?_of_analyseCases cases hrest hs
      rw [hcase] at hs
      have hs := Knowledge.storedAt?_of_clear (storedAt?_forgetStorageIf_eq_some.1 hs).2
      exact (Knowledge.storedAt?_joinStorage_eq_some.1 hs).2

/-- A fact about storage that is known behind a block was known before it, unless the rewritten
block may change storage. -/
theorem storedAt?_of_analyseBlock (hkeeps : hook.KeepsStores) :
    ∀ (block : Block) {s : State σ} {slot value : Name},
      (analyseBlock context hook block s).error? = none →
        (analyseBlock context hook block s).state.knowledge.storedAt? slot = some value →
          s.knowledge.storedAt? slot = some value ∨
            context.dialect.Changes (analyseBlock context hook block s).node.operations
  | ⟨stmts, _⟩, _, _, _, h => by
      obtain ⟨hinner, heq, _, _, hclear⟩ := analyseBlock_mk h
      rw [heq, Step.state_done, hclear]
      intro hs
      exact storedAt?_of_analyseStmts hkeeps stmts hinner (Knowledge.storedAt?_of_clear hs)

end

end Analysis

end StorageFlow
