import StorageFlow.Proofs.Syntax.Occurrences

/-!
# StorageFlow.Proofs.Syntax.Collectors

The traversals of the library compute what occurs in a tree.

* `Expr.mayChangeStorage_eq`, `Block.mayChangeStorage_eq` — some operation may change storage.
* `EffectSummary.movable_ofExpr`, `EffectSummary.reads_ofExpr` — all operations are movable, and
  the variables read.
* `collectAssigned_eq` — the targets of the assignments, each once.
* `AfterContinue.names_collect` — those behind the first `continue`.
-/

namespace StorageFlow

variable {dialect : Dialect}

/-! ### Lists that hold each name once -/

@[simp] theorem appendAllNew_nil (names : List Name) : appendAllNew names [] = names := rfl

theorem appendAllNew_append (names as bs : List Name) :
    appendAllNew names (as ++ bs) = appendAllNew (appendAllNew names as) bs := by
  simp [appendAllNew, List.foldl_append]

theorem appendAllNew_singleton (names : List Name) (name : Name) :
    appendAllNew names [name] = appendNew names name := rfl

/-- The new names come behind the old ones, each where it occurs first. -/
theorem appendAllNew_eq (names more : List Name) :
    appendAllNew names more = names ++ (more.filter (· ∉ names)).eraseDups := by
  induction more generalizing names with
  | nil => simp
  | cons m ms ih =>
      rw [appendAllNew, List.foldl_cons, ← appendAllNew, ih, appendNew]
      by_cases h : m ∈ names
      · simp [h]
      · have hfilter : ms.filter (· ∉ names ++ [m]) = (ms.filter (· ∉ names)).filter (!· == m) := by
          rw [List.filter_filter]
          refine List.filter_congr fun n _ => ?_
          by_cases hn : n = m <;> simp [hn]
        simp only [if_neg h, hfilter]
        rw [List.filter_cons_of_pos (by simpa using h), List.eraseDups_cons, List.append_assoc]
        rfl

/-- Names that are collected from the start are listed in the order of their first occurrences. -/
theorem appendAllNew_nil_left (names : List Name) : appendAllNew [] names = names.eraseDups := by
  rw [appendAllNew_eq, List.nil_append, List.filter_eq_self.2 (by simp)]

/-! ### Operations that may change storage -/

/-- Whether an operation may change storage, as the dialect says. -/
def Dialect.changesStorage (dialect : Dialect) (op : Operation) : Bool :=
  (dialect.effectsOf op).mayChangeStorage

/-- Some operation of a list may change storage. -/
def Dialect.Changes (dialect : Dialect) (ops : List Operation) : Prop :=
  ∃ op ∈ ops, dialect.changesStorage op = true

theorem Dialect.Changes.mono {ops ops' : List Operation} (h : dialect.Changes ops)
    (hsub : ∀ op ∈ ops, op ∈ ops') : dialect.Changes ops' := by
  obtain ⟨op, hop, hchanges⟩ := h
  exact ⟨op, hsub op hop, hchanges⟩

namespace Expr

mutual

theorem run_visit_storageChange : ∀ (e : Expr) (found : Bool),
    (e.visit (storageChangeVisitor dialect)).run found =
      ((), found || e.operations.any dialect.changesStorage)
  | .literal _, found => by simp only [operations, List.any_nil, Bool.or_false]; rfl
  | .identifier _, found => by simp only [operations, List.any_nil, Bool.or_false]; rfl
  | .call callee arguments _, found => by
      -- the handler comes in front of the arguments, and the list has the operation behind them
      have ih := run_visitAll_storageChange arguments
        (found || dialect.changesStorage (.call callee.name))
      simp only [operations, List.any_append, List.any_cons, List.any_nil, Bool.or_false]
      rw [Bool.or_comm (List.any _ _), ← Bool.or_assoc]
      exact ih
  | .instruction operator arguments _, found => by
      have ih := run_visitAll_storageChange arguments
        (found || dialect.changesStorage (.instruction operator))
      simp only [operations, List.any_append, List.any_cons, List.any_nil, Bool.or_false]
      rw [Bool.or_comm (List.any _ _), ← Bool.or_assoc]
      exact ih

theorem run_visitAll_storageChange : ∀ (es : List Expr) (found : Bool),
    (visitAll (storageChangeVisitor dialect) es).run found =
      ((), found || (operationsAll es).any dialect.changesStorage)
  | [], found => by simp only [operationsAll, List.any_nil, Bool.or_false]; rfl
  | e :: es, found => by
      simp only [visitAll, operationsAll, List.any_append, StateT.run_bind,
        run_visit_storageChange e, ← Bool.or_assoc]
      exact run_visitAll_storageChange es _

end

theorem run_visitOption_storageChange (value? : Option Expr) (found : Bool) :
    (visitOption (storageChangeVisitor dialect) value?).run found =
      ((), found || (operationsOption value?).any dialect.changesStorage) := by
  cases value? with
  | none => simp only [operationsOption, List.any_nil, Bool.or_false]; rfl
  | some e => exact run_visit_storageChange e found

/-- An expression may change storage if one of its operations may. -/
theorem mayChangeStorage_eq (e : Expr) :
    e.mayChangeStorage dialect = e.operations.any dialect.changesStorage := by
  simp [mayChangeStorage, run_visit_storageChange]

theorem mayChangeStorage_iff {e : Expr} :
    e.mayChangeStorage dialect = true ↔ dialect.Changes e.operations := by
  rw [mayChangeStorage_eq, List.any_eq_true, Dialect.Changes]

end Expr

mutual

theorem Stmt.run_visit_storageChange : ∀ (s : Stmt) (found : Bool),
    (s.visit (storageChangeVisitor dialect)).run found =
      ((), found || s.operations.any dialect.changesStorage)
  | .expression e _, found => e.run_visit_storageChange found
  | .assign _ value? _, found => Expr.run_visitOption_storageChange value? found
  | .declare _ value? _, found => Expr.run_visitOption_storageChange value? found
  | .ifThen condition body _, found => by
      show (do condition.visit (storageChangeVisitor dialect)
               body.visit (storageChangeVisitor dialect) : StateM Bool Unit).run found = _
      simp only [Stmt.operations, List.any_append, StateT.run_bind, ← Bool.or_assoc,
        Expr.run_visit_storageChange]
      exact body.run_visit_storageChange _
  | .switch scrutinee cases _, found => by
      show (do scrutinee.visit (storageChangeVisitor dialect)
               Case.visitAll (storageChangeVisitor dialect) cases : StateM Bool Unit).run found = _
      simp only [Stmt.operations, List.any_append, StateT.run_bind, ← Bool.or_assoc,
        Expr.run_visit_storageChange]
      exact Case.run_visitAll_storageChange cases _
  | .forLoop initial condition post body _, found => by
      show (do initial.visit (storageChangeVisitor dialect)
               condition.visit (storageChangeVisitor dialect)
               body.visit (storageChangeVisitor dialect)
               post.visit (storageChangeVisitor dialect) : StateM Bool Unit).run found = _
      simp only [Stmt.operations, List.any_append, StateT.run_bind, ← Bool.or_assoc,
        Expr.run_visit_storageChange, initial.run_visit_storageChange,
        body.run_visit_storageChange]
      exact post.run_visit_storageChange _
  | .function _ _ _ body _, found => body.run_visit_storageChange found
  | .breakLoop _, found => by simp only [Stmt.operations, List.any_nil, Bool.or_false]; rfl
  | .continueLoop _, found => by simp only [Stmt.operations, List.any_nil, Bool.or_false]; rfl
  | .block body, found => body.run_visit_storageChange found

theorem Stmt.run_visitAll_storageChange : ∀ (ss : List Stmt) (found : Bool),
    (Stmt.visitAll (storageChangeVisitor dialect) ss).run found =
      ((), found || (Stmt.operationsAll ss).any dialect.changesStorage)
  | [], found => by simp only [Stmt.operationsAll, List.any_nil, Bool.or_false]; rfl
  | s :: ss, found => by
      simp only [Stmt.visitAll, Stmt.operationsAll, List.any_append, StateT.run_bind,
        s.run_visit_storageChange, ← Bool.or_assoc]
      exact Stmt.run_visitAll_storageChange ss _

theorem Case.run_visitAll_storageChange : ∀ (cases : List Case) (found : Bool),
    (Case.visitAll (storageChangeVisitor dialect) cases).run found =
      ((), found || (Case.operationsAll cases).any dialect.changesStorage)
  | [], found => by simp only [Case.operationsAll, List.any_nil, Bool.or_false]; rfl
  | ⟨_, body, _⟩ :: cases, found => by
      simp only [Case.visitAll, Case.visit, Case.operationsAll, List.any_append, StateT.run_bind,
        body.run_visit_storageChange, ← Bool.or_assoc]
      exact Case.run_visitAll_storageChange cases _

theorem Block.run_visit_storageChange : ∀ (b : Block) (found : Bool),
    (b.visit (storageChangeVisitor dialect)).run found =
      ((), found || b.operations.any dialect.changesStorage)
  | ⟨stmts, _⟩, found => Stmt.run_visitAll_storageChange stmts found

end

/-- A block may change storage if one of its operations may. -/
theorem Block.mayChangeStorage_eq (b : Block) :
    b.mayChangeStorage dialect = b.operations.any dialect.changesStorage := by
  simp [mayChangeStorage, run_visit_storageChange]

theorem Block.mayChangeStorage_iff {b : Block} :
    b.mayChangeStorage dialect = true ↔ dialect.Changes b.operations := by
  rw [mayChangeStorage_eq, List.any_eq_true, Dialect.Changes]

/-! ### Summaries of expressions -/

namespace EffectSummary

/-- The summary that takes in all operations and reads of an expression. -/
def addAll (dialect : Dialect) (summary : EffectSummary) (ops : List Operation)
    (names : List Name) : EffectSummary where
  movable := summary.movable && ops.all fun op => (dialect.effectsOf op).movable
  sideEffectFree :=
    summary.sideEffectFree && ops.all fun op => (dialect.effectsOf op).sideEffectFree
  clobbersStorage :=
    summary.clobbersStorage || ops.any fun op => (dialect.effectsOf op).clobbersStorage
  reads := appendAllNew summary.reads names

theorem addAll_nil (summary : EffectSummary) : summary.addAll dialect [] [] = summary := by
  simp [addAll]

theorem addAll_addAll (summary : EffectSummary) (ops ops' : List Operation)
    (names names' : List Name) :
    (summary.addAll dialect ops names).addAll dialect ops' names' =
      summary.addAll dialect (ops ++ ops') (names ++ names') := by
  simp [addAll, appendAllNew_append, Bool.and_assoc, Bool.or_assoc]

theorem addOperation_addAll (summary : EffectSummary) (ops : List Operation) (names : List Name)
    (op : Operation) :
    (summary.addAll dialect ops names).addOperation (dialect.effectsOf op) =
      summary.addAll dialect (ops ++ [op]) names := by
  simp [addAll, addOperation, Bool.and_assoc, Bool.or_assoc]

/-- A computation that succeeded hands its state to the next one. -/
theorem run_bind_of_ok {σ : Type} {x y : ExceptT Error (StateM σ) Unit} {s s' : σ}
    (h : x.run.run s = (.ok (), s')) : (do x; y).run.run s = y.run.run s' := by
  simp only [ExceptT.run_bind, StateT.run_bind, h]
  rfl

mutual

theorem run_visit : ∀ (e : Expr) (summary : EffectSummary),
    (e.visit (visitor dialect)).run.run summary =
      (.ok (), summary.addAll dialect e.operations e.reads)
  | .literal _, summary => by
      simp only [Expr.operations, Expr.reads, addAll_nil]
      rfl
  | .identifier x, summary => by
      show (Except.ok (), summary.addRead x.name) = _
      simp [Expr.operations, Expr.reads, addAll, addRead, appendAllNew_singleton]
  | .call callee arguments _, summary => by
      simp only [Expr.operations, Expr.reads]
      rw [← addOperation_addAll]
      exact run_bind_of_ok (run_visitAll arguments summary)
  | .instruction operator arguments _, summary => by
      simp only [Expr.operations, Expr.reads]
      rw [← addOperation_addAll]
      exact run_bind_of_ok (run_visitAll arguments summary)

theorem run_visitAll : ∀ (es : List Expr) (summary : EffectSummary),
    (Expr.visitAll (visitor dialect) es).run.run summary =
      (.ok (), summary.addAll dialect (Expr.operationsAll es) (Expr.readsAll es))
  | [], summary => by
      simp only [Expr.operationsAll, Expr.readsAll, addAll_nil]
      rfl
  | e :: es, summary => by
      simp only [Expr.visitAll, Expr.operationsAll, Expr.readsAll, ← addAll_addAll]
      rw [run_bind_of_ok (run_visit e summary)]
      exact run_visitAll es _

end

theorem ofExpr_eq (e : Expr) :
    ofExpr dialect e = ({} : EffectSummary).addAll dialect e.operations e.reads := by
  rw [ofExpr, run_visit]

/-- An expression is movable if all its operations are. -/
theorem movable_ofExpr (e : Expr) :
    (ofExpr dialect e).movable = e.operations.all fun op => (dialect.effectsOf op).movable := by
  simp [ofExpr_eq, addAll]

/-- An expression is free of side effects if all its operations are. -/
theorem sideEffectFree_ofExpr (e : Expr) :
    (ofExpr dialect e).sideEffectFree =
      e.operations.all fun op => (dialect.effectsOf op).sideEffectFree := by
  simp [ofExpr_eq, addAll]

/-- The summary lists the variables that the expression reads. -/
theorem mem_reads_ofExpr {e : Expr} {x : Name} :
    x ∈ (ofExpr dialect e).reads ↔ x ∈ e.reads := by
  simp [ofExpr_eq, addAll, mem_appendAllNew]

end EffectSummary

/-! ### Assigned names -/

mutual

theorem Expr.run_visit_assigned : ∀ (e : Expr) (found : List Name),
    (e.visit assignedVisitor).run found = ((), found)
  | .literal _, _ => rfl
  | .identifier _, _ => rfl
  | .call _ arguments _, found => Expr.run_visitAll_assigned arguments found
  | .instruction _ arguments _, found => Expr.run_visitAll_assigned arguments found

theorem Expr.run_visitAll_assigned : ∀ (es : List Expr) (found : List Name),
    (Expr.visitAll assignedVisitor es).run found = ((), found)
  | [], _ => rfl
  | e :: es, found => by
      simp only [Expr.visitAll, StateT.run_bind, Expr.run_visit_assigned e]
      exact Expr.run_visitAll_assigned es found

end

theorem Expr.run_visitOption_assigned (value? : Option Expr) (found : List Name) :
    (Expr.visitOption assignedVisitor value?).run found = ((), found) := by
  cases value? with
  | none => rfl
  | some e => exact e.run_visit_assigned found

mutual

theorem Stmt.run_visit_assigned : ∀ (s : Stmt) (found : List Name),
    (s.visit assignedVisitor).run found = ((), appendAllNew found s.targets)
  | .expression e _, found => e.run_visit_assigned found
  | .assign targets value? _, found =>
      Expr.run_visitOption_assigned value? (appendAllNew found (targetNames targets))
  | .declare _ value? _, found => Expr.run_visitOption_assigned value? found
  | .ifThen condition body _, found => by
      show (do condition.visit assignedVisitor
               body.visit assignedVisitor : StateM (List Name) Unit).run found = _
      simp only [Stmt.targets, StateT.run_bind, Expr.run_visit_assigned]
      exact body.run_visit_assigned found
  | .switch scrutinee cases _, found => by
      show (do scrutinee.visit assignedVisitor
               Case.visitAll assignedVisitor cases : StateM (List Name) Unit).run found = _
      simp only [Stmt.targets, StateT.run_bind, Expr.run_visit_assigned]
      exact Case.run_visitAll_assigned cases found
  | .forLoop initial condition post body _, found => by
      show (do initial.visit assignedVisitor
               condition.visit assignedVisitor
               body.visit assignedVisitor
               post.visit assignedVisitor : StateM (List Name) Unit).run found = _
      simp only [Stmt.targets, StateT.run_bind, Expr.run_visit_assigned,
        initial.run_visit_assigned, body.run_visit_assigned, appendAllNew_append]
      exact post.run_visit_assigned _
  | .function _ _ _ _ _, _ => rfl
  | .breakLoop _, _ => rfl
  | .continueLoop _, _ => rfl
  | .block body, found => body.run_visit_assigned found

theorem Stmt.run_visitAll_assigned : ∀ (ss : List Stmt) (found : List Name),
    (Stmt.visitAll assignedVisitor ss).run found = ((), appendAllNew found (Stmt.targetsAll ss))
  | [], _ => rfl
  | s :: ss, found => by
      simp only [Stmt.visitAll, Stmt.targetsAll, StateT.run_bind, s.run_visit_assigned,
        appendAllNew_append]
      exact Stmt.run_visitAll_assigned ss _

theorem Case.run_visitAll_assigned : ∀ (cases : List Case) (found : List Name),
    (Case.visitAll assignedVisitor cases).run found =
      ((), appendAllNew found (Case.targetsAll cases))
  | [], _ => rfl
  | ⟨_, body, _⟩ :: cases, found => by
      simp only [Case.visitAll, Case.visit, Case.targetsAll, StateT.run_bind,
        body.run_visit_assigned, appendAllNew_append]
      exact Case.run_visitAll_assigned cases _

theorem Block.run_visit_assigned : ∀ (b : Block) (found : List Name),
    (b.visit assignedVisitor).run found = ((), appendAllNew found b.targets)
  | ⟨stmts, _⟩, found => Stmt.run_visitAll_assigned stmts found

end

/-- The collector adds the targets of a block, each once. -/
theorem collectAssigned_eq (found : List Name) (b : Block) :
    collectAssigned found b = appendAllNew found b.targets := by
  rw [collectAssigned, b.run_visit_assigned]

/-- The assigned names are the targets, each once. -/
theorem Block.assigned_eq (b : Block) : b.assigned = appendAllNew [] b.targets :=
  collectAssigned_eq [] b

theorem Block.mem_assigned {b : Block} {x : Name} : x ∈ b.assigned ↔ x ∈ b.targets := by
  simp [Block.assigned_eq, mem_appendAllNew]

/-! ### Names assigned behind a `continue` -/

namespace AfterContinue

/-- What is known behind a part of a tree with the given targets, late targets and `continue`. -/
def behind (found : AfterContinue) (targets late : List Name) (continues : Bool) :
    AfterContinue where
  names := appendAllNew found.names
    (if found.passed then targets else if found.loopDepth = 0 then late else [])
  loopDepth := found.loopDepth
  passed := found.passed || (found.loopDepth == 0 && continues)

theorem behind_nothing (found : AfterContinue) : found.behind [] [] false = found := by
  simp [behind]

theorem behind_behind (found : AfterContinue) (targets late targets' late' : List Name)
    (continues continues' : Bool) :
    (found.behind targets late continues).behind targets' late' continues' =
      found.behind (targets ++ targets') (late ++ if continues then targets' else late')
        (continues || continues') := by
  obtain ⟨names, depth, passed⟩ := found
  by_cases hd : depth = 0 <;> cases passed <;> cases continues <;>
    simp [behind, hd, appendAllNew_append]

/-- Inside a loop no `continue` counts, so that only the targets behind an earlier one do. -/
theorem leave_behind_enter (found : AfterContinue) (targets late : List Name) (continues : Bool) :
    (fun s : AfterContinue => { s with loopDepth := s.loopDepth - 1 })
        (AfterContinue.behind { found with loopDepth := found.loopDepth + 1 } targets late
          continues) =
      found.behind targets [] false := by
  simp [behind]

end AfterContinue

open AfterContinue (behind_nothing behind_behind leave_behind_enter)

mutual

theorem Expr.run_visit_afterContinue : ∀ (e : Expr) (found : AfterContinue),
    (e.visit AfterContinue.visitor).run found = ((), found)
  | .literal _, _ => rfl
  | .identifier _, _ => rfl
  | .call _ arguments _, found => Expr.run_visitAll_afterContinue arguments found
  | .instruction _ arguments _, found => Expr.run_visitAll_afterContinue arguments found

theorem Expr.run_visitAll_afterContinue : ∀ (es : List Expr) (found : AfterContinue),
    (Expr.visitAll AfterContinue.visitor es).run found = ((), found)
  | [], _ => rfl
  | e :: es, found => by
      simp only [Expr.visitAll, StateT.run_bind, Expr.run_visit_afterContinue e]
      exact Expr.run_visitAll_afterContinue es found

end

theorem Expr.run_visitOption_afterContinue (value? : Option Expr) (found : AfterContinue) :
    (Expr.visitOption AfterContinue.visitor value?).run found = ((), found) := by
  cases value? with
  | none => rfl
  | some e => exact e.run_visit_afterContinue found

mutual

theorem Stmt.run_visit_afterContinue : ∀ (s : Stmt) (found : AfterContinue),
    (s.visit AfterContinue.visitor).run found =
      ((), found.behind s.targets s.lateTargets s.hasContinue)
  | .expression e _, found => by
      simp only [Stmt.targets, Stmt.lateTargets, Stmt.hasContinue, behind_nothing]
      exact e.run_visit_afterContinue found
  | .assign targets value? _, found => by
      have hvalue := Expr.run_visitOption_afterContinue value?
        (if found.passed then
          { found with names := appendAllNew found.names (targetNames targets) } else found)
      refine hvalue.trans (congrArg (Prod.mk ()) ?_)
      obtain ⟨names, depth, passed⟩ := found
      cases passed <;>
        simp [Stmt.targets, Stmt.lateTargets, Stmt.hasContinue, AfterContinue.behind]
  | .declare _ value? _, found => by
      simp only [Stmt.targets, Stmt.lateTargets, Stmt.hasContinue, behind_nothing]
      exact Expr.run_visitOption_afterContinue value? found
  | .ifThen condition body _, found => by
      show (do condition.visit AfterContinue.visitor
               body.visit AfterContinue.visitor : StateM AfterContinue Unit).run found = _
      simp only [Stmt.targets, Stmt.lateTargets, Stmt.hasContinue, StateT.run_bind,
        Expr.run_visit_afterContinue]
      exact body.run_visit_afterContinue found
  | .switch scrutinee cases _, found => by
      show (do scrutinee.visit AfterContinue.visitor
               Case.visitAll AfterContinue.visitor cases :
            StateM AfterContinue Unit).run found = _
      simp only [Stmt.targets, Stmt.lateTargets, Stmt.hasContinue, StateT.run_bind,
        Expr.run_visit_afterContinue]
      exact Case.run_visitAll_afterContinue cases found
  | .forLoop initial condition post body _, found => by
      have hparts (s : AfterContinue) : ∃ late continues,
          (do initial.visit AfterContinue.visitor
              condition.visit AfterContinue.visitor
              body.visit AfterContinue.visitor
              post.visit AfterContinue.visitor : StateM AfterContinue Unit).run s =
            ((), s.behind (initial.targets ++ body.targets ++ post.targets) late continues) := by
        simp only [StateT.run_bind, Expr.run_visit_afterContinue,
          initial.run_visit_afterContinue, body.run_visit_afterContinue, List.append_assoc]
        exact ⟨_, _, by rw [← behind_behind, ← behind_behind]; exact post.run_visit_afterContinue _⟩
      obtain ⟨late, continues, hparts⟩ := hparts { found with loopDepth := found.loopDepth + 1 }
      refine (congrArg (fun r : Unit × AfterContinue =>
        ((), { r.2 with loopDepth := r.2.loopDepth - 1 })) hparts).trans ?_
      exact congrArg (Prod.mk ()) (leave_behind_enter found _ late continues)
  | .function _ _ _ _ _, found => by
      simp only [Stmt.targets, Stmt.lateTargets, Stmt.hasContinue, behind_nothing]
      rfl
  | .breakLoop _, found => by
      simp only [Stmt.targets, Stmt.lateTargets, Stmt.hasContinue, behind_nothing]
      rfl
  | .continueLoop _, found => by
      show ((), { found with passed := found.passed || found.loopDepth == 0 }) = _
      simp [Stmt.targets, Stmt.lateTargets, Stmt.hasContinue, AfterContinue.behind]
  | .block body, found => body.run_visit_afterContinue found

theorem Stmt.run_visitAll_afterContinue : ∀ (ss : List Stmt) (found : AfterContinue),
    (Stmt.visitAll AfterContinue.visitor ss).run found =
      ((), found.behind (Stmt.targetsAll ss) (Stmt.lateTargetsAll ss) (Stmt.hasContinueAny ss))
  | [], found => by
      simp only [Stmt.targetsAll, Stmt.lateTargetsAll, Stmt.hasContinueAny, behind_nothing]
      rfl
  | s :: ss, found => by
      simp only [Stmt.visitAll, Stmt.targetsAll, Stmt.lateTargetsAll, Stmt.hasContinueAny,
        StateT.run_bind, s.run_visit_afterContinue, ← behind_behind]
      exact Stmt.run_visitAll_afterContinue ss _

theorem Case.run_visitAll_afterContinue : ∀ (cases : List Case) (found : AfterContinue),
    (Case.visitAll AfterContinue.visitor cases).run found =
      ((), found.behind (Case.targetsAll cases) (Case.lateTargetsAll cases)
        (Case.hasContinueAny cases))
  | [], found => by
      simp only [Case.targetsAll, Case.lateTargetsAll, Case.hasContinueAny, behind_nothing]
      rfl
  | ⟨_, body, _⟩ :: cases, found => by
      simp only [Case.visitAll, Case.visit, Case.targetsAll, Case.lateTargetsAll,
        Case.hasContinueAny, StateT.run_bind, body.run_visit_afterContinue, ← behind_behind]
      exact Case.run_visitAll_afterContinue cases _

theorem Block.run_visit_afterContinue : ∀ (b : Block) (found : AfterContinue),
    (b.visit AfterContinue.visitor).run found =
      ((), found.behind b.targets b.lateTargets b.hasContinue)
  | ⟨stmts, _⟩, found => Stmt.run_visitAll_afterContinue stmts found

end

/-- The names assigned behind a `continue` are the late targets, each once. -/
theorem Block.assignedAfterContinue_eq (b : Block) :
    b.assignedAfterContinue = appendAllNew [] b.lateTargets := by
  simp [Block.assignedAfterContinue, AfterContinue.collect, b.run_visit_afterContinue,
    AfterContinue.behind]

theorem Block.mem_assignedAfterContinue {b : Block} {x : Name} :
    x ∈ b.assignedAfterContinue ↔ x ∈ b.lateTargets := by
  simp [Block.assignedAfterContinue_eq, mem_appendAllNew]

end StorageFlow
