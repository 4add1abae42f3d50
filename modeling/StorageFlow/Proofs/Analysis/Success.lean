import StorageFlow.Proofs.Analysis.Shape
import StorageFlow.Proofs.Rewriting.Comparison

/-!
# StorageFlow.Proofs.Analysis.Success

Where an analysis is stopped, and when it comes to its end.

* `Block.isComplete` — every assignment has a value, and no loop has an initial block.
* `Block.visited` — the statements of a block at any depth, in the order in which an analysis gets
  to them; `firstFault?` is the first error that one of them causes by itself.
* `Hook.Total` — the hook never stops the analysis.
* `error?_analyseBlock` — with standard rules and a total hook, the analysis of a block is stopped
  by its first fault, and by nothing else; so that of a complete block comes to its end
  (`analyseBlock_ok`).
* `run_eq`, `run_state` — a run leaves the state behind its program.
* `run_ok` — a run that got through its program comes to its end: the scopes are balanced and the
  knowledge passes its test.
* `run_eq_analyseBlock` — so a run stops only where the analysis of its program does.
-/

namespace StorageFlow

mutual

/-- Whether every assignment of the statement has a value and every loop an empty initial block. -/
def Stmt.isComplete : Stmt → Bool
  | .expression _ _ => true
  | .assign _ value? _ => value?.isSome
  | .declare _ _ _ => true
  | .ifThen _ body _ => body.isComplete
  | .switch _ cases _ => Case.areComplete cases
  | .forLoop initial _ post body _ => initial.isEmpty && post.isComplete && body.isComplete
  | .function _ _ _ body _ => body.isComplete
  | .breakLoop _ => true
  | .continueLoop _ => true
  | .block body => body.isComplete

/-- Whether all statements of the list are complete. -/
def Stmt.areComplete : List Stmt → Bool
  | [] => true
  | stmt :: stmts => stmt.isComplete && Stmt.areComplete stmts

/-- Whether the bodies of all cases are complete. -/
def Case.areComplete : List Case → Bool
  | [] => true
  | ⟨_, body, _⟩ :: cases => body.isComplete && Case.areComplete cases

/-- Whether every assignment of the block has a value and every loop an empty initial block. -/
def Block.isComplete : Block → Bool
  | ⟨stmts, _⟩ => Stmt.areComplete stmts

end

theorem Stmt.areComplete_iff {stmts : List Stmt} :
    Stmt.areComplete stmts = true ↔ ∀ stmt ∈ stmts, stmt.isComplete = true := by
  induction stmts with
  | nil => simp [Stmt.areComplete]
  | cons stmt stmts ih => simp [Stmt.areComplete, ih]

/-! ### Faults -/

mutual

/-- The statement and all statements in it, in the order in which an analysis gets to them: a loop
in front of its body, and the body in front of the post block. Those in the initial block of a loop
are left out. -/
def Stmt.visited : Stmt → List Stmt
  | .expression e span => [.expression e span]
  | .assign targets value? span => [.assign targets value? span]
  | .declare declared value? span => [.declare declared value? span]
  | .ifThen condition body span => .ifThen condition body span :: body.visited
  | .switch scrutinee cases span => .switch scrutinee cases span :: Case.visitedAll cases
  | .forLoop initial condition post body span =>
      .forLoop initial condition post body span :: (body.visited ++ post.visited)
  | .function name parameters results body span =>
      .function name parameters results body span :: body.visited
  | .breakLoop span => [.breakLoop span]
  | .continueLoop span => [.continueLoop span]
  | .block body => .block body :: body.visited

/-- The statements of a list and all statements in them. -/
def Stmt.visitedAll : List Stmt → List Stmt
  | [] => []
  | stmt :: stmts => stmt.visited ++ Stmt.visitedAll stmts

/-- All statements in the bodies of cases. -/
def Case.visitedAll : List Case → List Stmt
  | [] => []
  | ⟨_, body, _⟩ :: cases => body.visited ++ Case.visitedAll cases

/-- All statements in a block. -/
def Block.visited : Block → List Stmt
  | ⟨stmts, _⟩ => Stmt.visitedAll stmts

end

/-- The error that the statement causes by itself. -/
def Stmt.fault? : Stmt → Option Error
  | .assign targets none span =>
      some (.missingValue (", ".intercalate (targets.map Identifier.name)) span)
  | .forLoop initial _ _ _ _ => if initial.isEmpty then none else some (.loopPrologue initial.span)
  | _ => none

/-- The first error that one of the statements causes. -/
def firstFault? (stmts : List Stmt) : Option Error :=
  stmts.findSome? Stmt.fault?

theorem firstFault?_append (stmts stmts' : List Stmt) :
    firstFault? (stmts ++ stmts') = (firstFault? stmts).or (firstFault? stmts') :=
  List.findSome?_append

variable {σ : Type} {context : Context} {hook : Hook σ}

/-- Two steps are stopped by the first of them that is stopped. -/
theorem Step.error?_andThen_eq {τ α β : Type} (step : Step τ α) (halted : α → β)
    (next : α → τ → Step τ β) :
    (step.andThen halted next).error? = step.error?.or (next step.node step.state).error? := by
  unfold Step.andThen
  cases step.error? <;> rfl

/-! ### What stops an analysis -/

/-- The hook never stops the analysis. -/
def Hook.Total (hook : Hook σ) : Prop :=
  ∀ view e state, (hook view e state).error? = none

/-- With standard rules, no proof fails, so no store does. -/
theorem Knowledge.store_ok (hrules : ∀ rule ∈ context.rules, rule ∈ RuleTable.standard)
    (k : Knowledge) (slot value : Name) :
    ∃ k', k.store (context.simplifier k) slot value = .ok k' := by
  cases h : k.store (context.simplifier k) slot value with
  | ok k' => exact ⟨k', rfl⟩
  | error e => exact absurd (store_error h) (RuleTable.not_raises_of_standard hrules)

namespace Analysis

mutual

theorem analyseExpr_ok (htotal : hook.Total) : ∀ (e : Expr) (s : State σ),
    (analyseExpr context hook e s).error? = none
  | .literal _, _ => htotal _ _ _
  | .identifier _, _ => htotal _ _ _
  | .call _ arguments _, s =>
      Step.error?_andThen (analyseExprs_ok htotal arguments s) (htotal _ _ _)
  | .instruction _ arguments _, s =>
      Step.error?_andThen (analyseExprs_ok htotal arguments s) (htotal _ _ _)

theorem analyseExprs_ok (htotal : hook.Total) : ∀ (es : List Expr) (s : State σ),
    (analyseExprs context hook es s).error? = none
  | [], _ => rfl
  | e :: es, s => Step.error?_andThen (analyseExpr_ok htotal e s) (analyseExprs_ok htotal es _)

end

/-- With standard rules, a store does not fail. -/
theorem error?_attempt_store (hrules : ∀ rule ∈ context.rules, rule ∈ RuleTable.standard)
    {α : Type} (node : α) (s : State σ) (slot value : Name) :
    (Step.attempt node s (s.store context slot value)).error? = none := by
  obtain ⟨k, hstore⟩ := Knowledge.store_ok hrules s.knowledge slot value
  rw [State.store, hstore]
  rfl

/-- What comes behind an expression decides whether the analysis is stopped. -/
theorem error?_andThen_analyseExpr (htotal : hook.Total) {β : Type} (e : Expr) (s : State σ)
    (halted : Expr → β) (next : Expr → State σ → Step (State σ) β) :
    ((analyseExpr context hook e s).andThen halted next).error? =
      (next (analyseExpr context hook e s).node (analyseExpr context hook e s).state).error? := by
  rw [Step.error?_andThen_eq, analyseExpr_ok htotal, Option.none_or]

mutual

theorem error?_analyseStmt (htotal : hook.Total)
    (hrules : ∀ rule ∈ context.rules, rule ∈ RuleTable.standard) : ∀ (stmt : Stmt) (s : State σ),
    (analyseStmt context hook stmt s).error? = firstFault? stmt.visited
  | .expression e _, s => by
      unfold analyseStmt
      split
      next =>
        exact (error?_andThen_analyseExpr htotal e s _ _).trans (error?_attempt_store hrules ..)
      next => exact analyseExpr_ok htotal e _
  | .assign _ none _, _ => rfl
  | .assign _ (some e) _, _ => error?_andThen_analyseExpr htotal e _ _ _
  | .declare _ none _, _ => rfl
  | .declare _ (some e) _, _ => error?_andThen_analyseExpr htotal e _ _ _
  | .ifThen condition body _, s => by
      refine (error?_andThen_analyseExpr htotal condition _ _ _).trans ?_
      rw [Step.error?_andThen_eq, Step.error?_done, Option.or_none]
      exact error?_analyseBlock htotal hrules body _
  | .switch scrutinee cases _, s => by
      refine (error?_andThen_analyseExpr htotal scrutinee _ _ _).trans ?_
      rw [Step.error?_andThen_eq, Step.error?_done, Option.or_none]
      exact error?_analyseCases htotal hrules cases _
  | .forLoop initial condition post body span, s => by
      unfold analyseStmt
      split
      next hinitial =>
        rw [error?_andThen_analyseExpr htotal, Step.error?_andThen_eq, Step.error?_andThen_eq,
          Step.error?_done, Option.or_none, error?_analyseBlock htotal hrules body,
          error?_analyseBlock htotal hrules post, ← firstFault?_append]
        simp [firstFault?, Stmt.visited, Stmt.fault?, hinitial]
      next hinitial => simp [firstFault?, Stmt.visited, Stmt.fault?, hinitial]
  | .function _ _ _ body _, _ => error?_analyseBlock htotal hrules body _
  | .breakLoop _, _ => rfl
  | .continueLoop _, _ => rfl
  | .block body, s => error?_analyseBlock htotal hrules body s

theorem error?_analyseStmts (htotal : hook.Total)
    (hrules : ∀ rule ∈ context.rules, rule ∈ RuleTable.standard) :
    ∀ (stmts : List Stmt) (s : State σ),
      (analyseStmts context hook stmts s).error? = firstFault? (Stmt.visitedAll stmts)
  | [], _ => rfl
  | stmt :: stmts, s => by
      unfold analyseStmts
      rw [Step.error?_andThen_eq, Step.error?_map, error?_analyseStmt htotal hrules stmt,
        error?_analyseStmts htotal hrules stmts, ← firstFault?_append, Stmt.visitedAll]

theorem error?_analyseCases (htotal : hook.Total)
    (hrules : ∀ rule ∈ context.rules, rule ∈ RuleTable.standard) :
    ∀ (cases : List Case) (s : State σ),
      (analyseCases context hook cases s).error? = firstFault? (Case.visitedAll cases)
  | [], _ => rfl
  | ⟨_, body, _⟩ :: cases, s => by
      unfold analyseCases analyseCase
      rw [Step.error?_andThen_eq, Step.error?_andThen_eq, Step.error?_map, Step.error?_done,
        Option.or_none, error?_analyseBlock htotal hrules body,
        error?_analyseCases htotal hrules cases, ← firstFault?_append, Case.visitedAll]

/-- The analysis of a block is stopped by its first malformed statement, and by nothing else. -/
theorem error?_analyseBlock (htotal : hook.Total)
    (hrules : ∀ rule ∈ context.rules, rule ∈ RuleTable.standard) : ∀ (block : Block) (s : State σ),
    (analyseBlock context hook block s).error? = firstFault? block.visited
  | ⟨stmts, _⟩, _ => error?_analyseStmts htotal hrules stmts _

end

/-! ### Complete programs -/

mutual

theorem firstFault?_of_isComplete : ∀ stmt : Stmt,
    stmt.isComplete = true → firstFault? stmt.visited = none
  | .expression _ _, _ => rfl
  | .assign _ none _, h => by cases h
  | .assign _ (some _) _, _ => rfl
  | .declare _ _ _, _ => rfl
  | .ifThen _ body _, h => firstFault?_of_isComplete_block body h
  | .switch _ cases _, h => firstFault?_of_areComplete_cases cases h
  | .forLoop initial condition post body span, h => by
      rw [Stmt.isComplete, Bool.and_eq_true, Bool.and_eq_true] at h
      obtain ⟨⟨hinitial, hpost⟩, hbody⟩ := h
      have hfault : (Stmt.forLoop initial condition post body span).fault? = none :=
        if_pos hinitial
      rw [Stmt.visited, firstFault?, List.findSome?_cons, hfault]
      show firstFault? (body.visited ++ post.visited) = none
      rw [firstFault?_append, firstFault?_of_isComplete_block body hbody,
        firstFault?_of_isComplete_block post hpost, Option.or_none]
  | .function _ _ _ body _, h => firstFault?_of_isComplete_block body h
  | .breakLoop _, _ => rfl
  | .continueLoop _, _ => rfl
  | .block body, h => firstFault?_of_isComplete_block body h

theorem firstFault?_of_areComplete : ∀ stmts : List Stmt,
    Stmt.areComplete stmts = true → firstFault? (Stmt.visitedAll stmts) = none
  | [], _ => rfl
  | stmt :: stmts, h => by
      rw [Stmt.areComplete, Bool.and_eq_true] at h
      rw [Stmt.visitedAll, firstFault?_append, firstFault?_of_isComplete stmt h.1,
        firstFault?_of_areComplete stmts h.2, Option.or_none]

theorem firstFault?_of_areComplete_cases : ∀ cases : List Case,
    Case.areComplete cases = true → firstFault? (Case.visitedAll cases) = none
  | [], _ => rfl
  | ⟨_, body, _⟩ :: cases, h => by
      rw [Case.areComplete, Bool.and_eq_true] at h
      rw [Case.visitedAll, firstFault?_append, firstFault?_of_isComplete_block body h.1,
        firstFault?_of_areComplete_cases cases h.2, Option.or_none]

theorem firstFault?_of_isComplete_block : ∀ block : Block,
    block.isComplete = true → firstFault? block.visited = none
  | ⟨stmts, _⟩, h => firstFault?_of_areComplete stmts h

end

/-- The analysis of a complete block comes to its end. -/
theorem analyseBlock_ok (htotal : hook.Total)
    (hrules : ∀ rule ∈ context.rules, rule ∈ RuleTable.standard) (block : Block) (s : State σ)
    (h : block.isComplete = true) : (analyseBlock context hook block s).error? = none :=
  (error?_analyseBlock htotal hrules block s).trans (firstFault?_of_isComplete_block block h)

/-! ### Runs -/

/-- A block leaves the scopes as they were, so no run is stopped for that. -/
theorem run_eq (program : Block) (s : State σ) :
    run context hook program s = (analyseBlock context hook program s).andThen id fun program s =>
      .attempt program s ((if context.config.testsKnowledge then s.knowledge.check else .ok ()).map
        fun _ => s) := by
  simp only [run, analyseBlock_scopes, if_true]

/-- The state behind a run is the one behind its program. -/
theorem run_state (program : Block) (s : State σ) :
    (run context hook program s).state = (analyseBlock context hook program s).state := by
  rw [run_eq]
  refine Step.state_andThen (P := (· = (analyseBlock context hook program s).state)) rfl
    fun program s h => ?_
  cases (if context.config.testsKnowledge then s.knowledge.check else .ok ()) with
  | error error => exact h
  | ok _ => exact h

/-- A run that got through its program comes to its end with what was made of it. -/
theorem run_ok {program : Block} {s : State σ} (hcoherent : s.knowledge.Coherent context.dialect)
    (h : (analyseBlock context hook program s).error? = none) :
    run context hook program s = analyseBlock context hook program s := by
  have hend : (analyseBlock context hook program s).state.knowledge.Coherent context.dialect :=
    coherent_analyseBlock program hcoherent
  have hcheck := hend.check
  simp only [run_eq, Step.andThen, h, hcheck]
  cases context.config.testsKnowledge <;>
    simp [Step.attempt, Except.map, Step.done, ← h]

/-- The tests behind a program never stop a run. -/
theorem run_eq_analyseBlock {program : Block} {s : State σ}
    (hcoherent : s.knowledge.Coherent context.dialect) :
    run context hook program s = analyseBlock context hook program s := by
  cases h : (analyseBlock context hook program s).error? with
  | none => exact run_ok hcoherent h
  | some error =>
      simp only [run_eq, Step.andThen, h]
      rw [Step.stopped, ← h, id]

end Analysis

end StorageFlow
