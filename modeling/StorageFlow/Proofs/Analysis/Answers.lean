import StorageFlow.Proofs.Analysis.Session
import StorageFlow.Proofs.Soundness.Observed
import StorageFlow.Proofs.Syntax.Positions

/-!
# StorageFlow.Proofs.Analysis.Answers

An analysis gets to the expressions of a program as a traversal does.

* `Hook.answered` — a hook together with a record of its calls and of its answers to them.
* `Analysis.Asks` — a step calls the hook for given expressions, one after another, until the hook
  stops it; and nothing else stops it.
* `Analysis.asks_analyseBlock` — so does the analysis of a complete block, for all expressions in
  it.
* `Analysis.calls_pass_expressions` — the calls of a run, whether its hook stops it or not, and the
  leaves that a traversal finds.
-/

namespace StorageFlow

variable {σ : Type}

namespace Node

mutual

theorem expressions_expr : ∀ e : Expr, (Node.expr e).expressions = e.nodes
  | .literal _ => expressions_eq _
  | .identifier _ => expressions_eq _
  | .call _ arguments _ => by
      rw [expressions_eq, Expr.nodes]
      exact congrArg (· ++ [_]) (flatMap_expressions_exprs arguments)
  | .instruction _ arguments _ => by
      rw [expressions_eq, Expr.nodes]
      exact congrArg (· ++ [_]) (flatMap_expressions_exprs arguments)

/-- The expressions in expressions are their nodes. -/
theorem flatMap_expressions_exprs : ∀ es : List Expr,
    (es.map Node.expr).flatMap expressions = Expr.nodesAll es
  | [] => rfl
  | e :: es => congrArg₂ (· ++ ·) (expressions_expr e) (flatMap_expressions_exprs es)

end

end Node

/-! ### Answers of a hook -/

namespace Hook

/-- The calls of a hook in order: what it was shown, the expression, and the error with which it
stopped the analysis, if it did. -/
abbrev Answers := List ((View × Expr) × Option Error)

/-- The hook that also records its calls and its answers. -/
def answered (hook : Hook σ) : Hook (σ × Answers) := fun view e state =>
  let step := hook view e state.1
  step.mapState (·, state.2 ++ [((view, e), step.error?)])

theorem Observes.answered {hook : Hook σ} (h : hook.Observes) : hook.answered.Observes :=
  fun view e state => h view e state.1

theorem refines_answered (hook : Hook σ) :
    Hook.Refines (fun state => (state.1, state.2.map Prod.fst)) hook.answered hook.recorded := by
  intro view e state
  simp [answered, recorded, Step.mapState]

/-- The hook, made to fail at its call with the given number, counted from one. -/
def failingAt (hook : Hook σ) (number : Nat) (error : Error) : Hook (σ × Nat) :=
  fun view e state =>
    let step := (hook view e state.1).mapState (·, state.2 + 1)
    if state.2 + 1 = number then .stopped step.node step.state error else step

theorem state_failingAt (hook : Hook σ) (number : Nat) (error : Error) (view : View) (e : Expr)
    (state : σ × Nat) : (hook.failingAt number error view e state).state.2 = state.2 + 1 := by
  unfold failingAt
  dsimp only
  split <;> rfl

theorem error?_failingAt {hook : Hook σ} (htotal : hook.Total) (number : Nat) (error : Error)
    (view : View) (e : Expr) (state : σ × Nat) :
    (hook.failingAt number error view e state).error? =
      if state.2 + 1 = number then some error else none := by
  unfold failingAt
  dsimp only
  split
  · rfl
  · exact htotal view e state.1

theorem Observes.failingAt {hook : Hook σ} (h : hook.Observes) (number : Nat) (error : Error) :
    (hook.failingAt number error).Observes := by
  intro view e state
  unfold Hook.failingAt
  dsimp only
  split <;> exact h view e state.1

/-- The expressions that a hook was called for, each with its answer. -/
def Answers.asked (answers : Answers) : List (Expr × Option Error) :=
  answers.map fun answer => (answer.1.2, answer.2)

theorem Answers.map_fst_asked (answers : Answers) :
    (answers.map Prod.fst).map Prod.snd = answers.asked.map Prod.fst := by
  simp [asked]

theorem Answers.map_snd_asked (answers : Answers) :
    answers.map Prod.snd = answers.asked.map Prod.snd := by
  simp [asked]

/-- The hook was called for each of the expressions and went on, or it was called up to one of them
and stopped there with an error. -/
inductive Passed : List Expr → List (Expr × Option Error) → Option Error → Prop
  | all (es : List Expr) : Passed es (es.map (·, none)) none
  | stopped (before : List Expr) (last : Expr) (after : List Expr) (error : Error) :
      Passed (before ++ last :: after) (before.map (·, none) ++ [(last, some error)]) (some error)

namespace Passed

variable {es es' : List Expr} {asked asked' : List (Expr × Option Error)} {error? : Option Error}

/-- Expressions one after another. -/
theorem append (h : Passed es asked none) (h' : Passed es' asked' error?) :
    Passed (es ++ es') (asked ++ asked') error? := by
  cases h
  cases h' with
  | all =>
      rw [← List.map_append]
      exact .all _
  | stopped before last after error =>
      rw [← List.append_assoc, ← List.append_assoc, ← List.map_append]
      exact .stopped _ last after error

/-- A hook that goes on at each call is called for all expressions. -/
theorem of_goesOn (h : Passed es asked error?)
    (hanswers : ∀ answer ∈ asked.map Prod.snd, answer = none) :
    error? = none ∧ asked.map Prod.fst = es := by
  cases h with
  | all => exact ⟨rfl, by simp [Function.comp_def]⟩
  | stopped before last after error =>
      cases hanswers (some error) (by simp)

/-- The hook is called for each of the expressions unless it stopped before. -/
theorem reaches {k : Nat} (h : Passed es asked error?) (hk : k < es.length) :
    k < asked.length ∨ ∃ i < k, ∃ error, (asked.map Prod.snd)[i]? = some (some error) := by
  cases h with
  | all => exact .inl (by simpa using hk)
  | stopped before last after error =>
      by_cases hreached : k < before.length + 1
      · exact .inl (by simpa using hreached)
      · exact .inr ⟨before.length, by omega, error, by simp⟩

/-- A hook that answers with an error at some call is called no more. -/
theorem stops {k : Nat} {error : Error} (h : Passed es asked error?)
    (hanswer : (asked.map Prod.snd)[k]? = some (some error)) :
    error? = some error ∧ asked.length = k + 1 ∧ asked.map Prod.fst = es.take (k + 1) := by
  cases h with
  | all => simp at hanswer
  | stopped before last after error' =>
      rw [List.map_append, List.map_map, List.getElem?_append] at hanswer
      split at hanswer
      next hlt => simp at hanswer
      next hge =>
        obtain ⟨hlast, herror⟩ := List.getElem?_eq_some_iff.1 hanswer
        obtain rfl : k = before.length := by simp at hge hlast; omega
        obtain rfl : error' = error := by simpa using herror
        refine ⟨rfl, by simp, ?_⟩
        rw [List.take_length_add_append]
        simp [Function.comp_def]

/-- What comes behind the expression at which the hook stopped is not reached. -/
theorem append_stopped {error : Error} (h : Passed es asked (some error)) :
    Passed (es ++ es') asked (some error) := by
  cases h with
  | stopped before last after =>
      rw [List.append_assoc, List.cons_append]
      exact .stopped before last _ error

end Passed

end Hook

namespace Analysis

open Hook (Passed Answers)

variable {context : Context} {hook : Hook σ}

/-- A step calls the hook once for each of the expressions, in their order, until the hook stops it,
and nothing else stops it. -/
def Asks {α : Type} (before : Answers) (es : List Expr) (step : Step (State (σ × Answers)) α) :
    Prop :=
  ∃ answers : Answers, step.state.hook.2 = before ++ answers ∧
    Passed es answers.asked step.error?

namespace Asks

variable {α β : Type} {before : Answers} {es es' : List Expr}
  {step : Step (State (σ × Answers)) α}

theorem done {a : α} {s s' : State (σ × Answers)} (h : s'.hook = s.hook) :
    Asks s.hook.2 [] (.done a s') := by
  rw [← h]
  exact ⟨[], (List.append_nil _).symm, .all []⟩

theorem map (h : Asks before es step) (f : α → β) : Asks before es (step.map f) := h

theorem mapState (h : Asks before es step) {f : State (σ × Answers) → State (σ × Answers)}
    (hf : ∀ s, (f s).hook = s.hook) : Asks before es (step.mapState f) := by
  obtain ⟨answers, hafter, h⟩ := h
  refine ⟨answers, ?_, h⟩
  rw [Step.state_mapState, hf, hafter]

/-- Steps one after another call the hook one after another. -/
theorem andThen {halted : α → β} {next : α → State (σ × Answers) → Step (State (σ × Answers)) β}
    (h : Asks before es step)
    (hnext : step.error? = none → Asks step.state.hook.2 es' (next step.node step.state)) :
    Asks before (es ++ es') (step.andThen halted next) := by
  obtain ⟨answers, hafter, hpassed⟩ := h
  unfold Step.andThen
  split
  next hdone =>
    obtain ⟨answers', hafter', hpassed'⟩ := hnext hdone
    rw [hdone] at hpassed
    refine ⟨answers ++ answers', ?_, ?_⟩
    · rw [hafter', hafter, List.append_assoc]
    · rw [Answers.asked, List.map_append]
      exact hpassed.append hpassed'
  next error herror =>
    rw [herror] at hpassed
    exact ⟨answers, hafter, hpassed.append_stopped⟩

/-- A last step that calls no hook. -/
theorem andThen_silent {halted : α → β}
    {next : α → State (σ × Answers) → Step (State (σ × Answers)) β} (h : Asks before es step)
    (hnext : ∀ a s, Asks s.hook.2 [] (next a s)) : Asks before es (step.andThen halted next) := by
  rw [← List.append_nil es]
  exact h.andThen fun _ => hnext _ _

end Asks

/-- The hook goes on or stops at the expression. -/
theorem asks_callHook (e : Expr) (s : State (σ × Answers)) :
    Asks s.hook.2 [e] (callHook context hook.answered e s) := by
  refine ⟨[((s.view context, e), (hook (s.view context) e s.hook.1).error?)], rfl, ?_⟩
  show Passed [e] [(e, _)] (hook (s.view context) e s.hook.1).error?
  cases (hook (s.view context) e s.hook.1).error? with
  | none => exact .all [e]
  | some error => exact .stopped [] e [] error

/-- With rules that do not fail, a store does not fail. -/
theorem asks_store (hrules : ∀ error, ¬ context.rules.Raises context.dialect error) {α : Type}
    (node : α) (s : State (σ × Answers)) (slot value : Name) :
    Asks s.hook.2 [] (Step.attempt node s (s.store context slot value)) := by
  unfold State.store
  cases hstore : s.knowledge.store (context.simplifier s.knowledge) slot value with
  | error error => exact absurd (Knowledge.store_error hstore) (hrules error)
  | ok k => exact .done rfl

/-! ### Whole trees -/

theorem asks_operation (hobserves : hook.Observes) {e : Expr} {op : Operation}
    (hroot : e.root? = some op) {s : State (σ × Answers)}
    (harguments : Asks s.hook.2 (Expr.nodesAll e.arguments)
      (analyseExprs context hook.answered e.arguments s)) :
    Asks s.hook.2 e.nodes (analyseExpr context hook.answered e s) := by
  rw [analyseExpr_of_root? hroot, Expr.nodes_eq]
  refine harguments.andThen fun hdone => ?_
  rw [node_analyseExprs hobserves.answered _ hdone, Expr.withArguments_arguments]
  exact asks_callHook e _

mutual

theorem asks_nodes (hobserves : hook.Observes) : ∀ (e : Expr) (s : State (σ × Answers)),
    Asks s.hook.2 e.nodes (analyseExpr context hook.answered e s)
  | .literal _, s => asks_callHook _ s
  | .identifier _, s => asks_callHook _ s
  | .call _ arguments _, s => asks_operation hobserves rfl (asks_nodesAll hobserves arguments s)
  | .instruction _ arguments _, s =>
      asks_operation hobserves rfl (asks_nodesAll hobserves arguments s)

theorem asks_nodesAll (hobserves : hook.Observes) : ∀ (es : List Expr) (s : State (σ × Answers)),
    Asks s.hook.2 (Expr.nodesAll es) (analyseExprs context hook.answered es s)
  | [], _ => .done rfl
  | e :: es, s => (asks_nodes hobserves e s).andThen fun _ => (asks_nodesAll hobserves es _).map _

end

theorem asks_analyseExpr (hobserves : hook.Observes) (e : Expr) (s : State (σ × Answers)) :
    Asks s.hook.2 (Node.expr e).expressions (analyseExpr context hook.answered e s) := by
  rw [Node.expressions_expr]
  exact asks_nodes hobserves e s

theorem asks_evaluate (hobserves : hook.Observes) (e : Expr) (s : State (σ × Answers)) :
    Asks s.hook.2 (Node.expr e).expressions (evaluate context hook.answered e s) := by
  rw [← hook_forgetStorageIf (s := s) (e.mayChangeStorage context.dialect)]
  exact asks_analyseExpr hobserves e _

mutual

theorem asks_analyseStmt (hobserves : hook.Observes)
    (hrules : ∀ error, ¬ context.rules.Raises context.dialect error) : ∀ (stmt : Stmt)
    (s : State (σ × Answers)), stmt.isComplete = true →
      Asks s.hook.2 (Node.stmt stmt).expressions (analyseStmt context hook.answered stmt s)
  | .expression e _, s, _ => by
      rw [Node.expressions_of_children rfl]
      unfold analyseStmt
      split
      next =>
        exact (asks_analyseExpr hobserves e s).andThen_silent fun _ _ => asks_store hrules _ _ _ _
      next => exact (asks_evaluate hobserves e s).map _
  | .assign _ none _, _, h => by cases h
  | .assign _ (some e) _, s, _ => by
      rw [Node.expressions_of_children rfl]
      exact (asks_evaluate hobserves e s).andThen_silent fun _ _ => .done rfl
  | .declare declared none _, s, _ => by
      rw [Node.expressions_stmt]
      exact .done (hook_declare _ s)
  | .declare declared (some e) _, s, _ => by
      rw [Node.expressions_of_children rfl, ← hook_declare (declared.map Binder.name) s]
      exact (asks_evaluate hobserves e _).andThen_silent fun _ _ => .done rfl
  | .ifThen condition body _, s, h => by
      rw [Node.expressions_stmt,
        ← hook_forgetStorageIf (s := s) (condition.mayChangeStorage context.dialect)]
      refine (asks_analyseExpr hobserves condition _).andThen fun _ => ?_
      exact (asks_analyseBlock hobserves hrules body _ h).andThen fun _ => .done rfl
  | .switch scrutinee cases _, s, h => by
      rw [Node.expressions_stmt]
      refine (asks_evaluate hobserves scrutinee s).andThen fun _ => ?_
      exact (asks_analyseCases hobserves hrules cases _ h).andThen_silent fun _ _ =>
        .done (hook_forgetStorageIf _)
  | .forLoop initial condition post body _, s, h => by
      rw [Stmt.isComplete, Bool.and_eq_true, Bool.and_eq_true] at h
      obtain ⟨⟨hinitial, hpost⟩, hbody⟩ := h
      rw [Node.expressions_stmt, Node.children, List.flatMap_cons,
        Node.expressions_of_isEmpty hinitial, List.nil_append, analyseStmt_forLoop_eq hinitial,
        ← hook_loopHead condition post body s]
      refine (asks_analyseExpr hobserves condition _).andThen fun _ => ?_
      refine (asks_analyseBlock hobserves hrules body _ hbody).andThen fun _ => ?_
      rw [← hook_postHead body _ _]
      exact (asks_analyseBlock hobserves hrules post _ hpost).andThen fun _ =>
        .done (hook_forgetStorageIf _)
  | .function _ parameters results body _, s, h => by
      rw [Node.expressions_of_children rfl, ← hook_enterFunction (parameters.map Binder.name)
        (results.map Binder.name) s]
      have hbody := asks_analyseBlock hobserves hrules body
        (s.enterFunction (parameters.map Binder.name) (results.map Binder.name)) h
      exact hbody.mapState (f := (·.leaveFunction s.knowledge)) hook_closeScope
  | .breakLoop _, _, _ => by
      rw [Node.expressions_stmt]
      exact .done rfl
  | .continueLoop _, _, _ => by
      rw [Node.expressions_stmt]
      exact .done rfl
  | .block body, s, h => by
      rw [Node.expressions_of_children rfl]
      exact (asks_analyseBlock hobserves hrules body s h).map _

theorem asks_analyseStmts (hobserves : hook.Observes)
    (hrules : ∀ error, ¬ context.rules.Raises context.dialect error) : ∀ (stmts : List Stmt)
    (s : State (σ × Answers)), Stmt.areComplete stmts = true →
      Asks s.hook.2 ((stmts.map Node.stmt).flatMap Node.expressions)
        (analyseStmts context hook.answered stmts s)
  | [], _, _ => .done rfl
  | stmt :: stmts, s, h => by
      rw [Stmt.areComplete, Bool.and_eq_true] at h
      exact (asks_analyseStmt hobserves hrules stmt s h.1).andThen fun _ =>
        (asks_analyseStmts hobserves hrules stmts _ h.2).map _

theorem asks_analyseCases (hobserves : hook.Observes)
    (hrules : ∀ error, ¬ context.rules.Raises context.dialect error) : ∀ (cases : List Case)
    (s : State (σ × Answers)), Case.areComplete cases = true →
      Asks s.hook.2 ((cases.map (Node.block ·.body)).flatMap Node.expressions)
        (analyseCases context hook.answered cases s)
  | [], _, _ => .done rfl
  | ⟨value?, body, span⟩ :: cases, s, h => by
      rw [Case.areComplete, Bool.and_eq_true] at h
      have hfirst : Asks s.hook.2 (Node.block body).expressions
          (analyseCase context hook.answered ⟨value?, body, span⟩ s) :=
        (asks_analyseBlock hobserves hrules body s h.1).andThen_silent fun _ _ =>
          .done (hook_forgetStorageIf _)
      exact hfirst.andThen fun _ => (asks_analyseCases hobserves hrules cases _ h.2).map _

/-- The analysis of a complete block calls the hook for all expressions in it. -/
theorem asks_analyseBlock (hobserves : hook.Observes)
    (hrules : ∀ error, ¬ context.rules.Raises context.dialect error) : ∀ (block : Block)
    (s : State (σ × Answers)), block.isComplete = true →
      Asks s.hook.2 (Node.block block).expressions (analyseBlock context hook.answered block s)
  | ⟨stmts, span⟩, s, h => by
      rw [Node.expressions_block]
      exact ((asks_analyseStmts hobserves hrules stmts (s.openScope false) h).mapState
        hook_closeScope).map _

end

/-! ### Whole runs -/

/-- How the hook answers its calls in a run: with an error, or by going on. -/
def runAnswers (context : Context) (hook : Hook σ) (program : Block) (s : State σ) :
    List (Option Error) :=
  (run context hook.answered program (s.withHook (s.hook, []))).state.hook.2.map Prod.snd

/-- What a run does, by the answers of its hook. -/
theorem run_passes (hobserves : hook.Observes)
    (hrules : ∀ error, ¬ context.rules.Raises context.dialect error) {program : Block}
    (hcomplete : program.isComplete = true) {s : State σ}
    (hcoherent : s.knowledge.Coherent context.dialect) :
    ∃ asked, (runCalls context hook program s).map Prod.snd = asked.map Prod.fst ∧
      runAnswers context hook program s = asked.map Prod.snd ∧
      Passed (Node.block program).expressions asked (run context hook program s).error? := by
  have hanswered : Asks [] (Node.block program).expressions
      (run context hook.answered program (s.withHook (s.hook, []))) := by
    rw [run_eq_analyseBlock (s := s.withHook (s.hook, [])) hcoherent]
    exact asks_analyseBlock hobserves hrules program (s.withHook (s.hook, [])) hcomplete
  have hstart : (s.withHook (s.hook, ([] : Answers))).inside
      (fun state => (state.1, state.2.map Prod.fst)) [] = s.withHook (s.hook, ([] : Hook.Log)) := by
    simp only [State.inside, State.withHook, List.append_nil, List.map_nil]
  have hrecorded : run context hook.recorded program (s.withHook (s.hook, [])) = _ :=
    hstart ▸ run_inside hook.refines_answered program (s.withHook (s.hook, []))
  obtain ⟨answers, hafter, hpassed⟩ := hanswered
  rw [List.nil_append] at hafter
  refine ⟨answers.asked, ?_, ?_, ?_⟩
  · rw [runCalls, hrecorded, ← Answers.map_fst_asked, ← hafter]
    rfl
  · rw [runAnswers, hafter, Answers.map_snd_asked]
  · rw [run_recorded program s [], hrecorded]
    exact hpassed

/-- What holds of the state of a hook whatever it is called with holds behind a run. -/
theorem kept_of_run (Kept : σ → Prop)
    (hcall : ∀ view e state, Kept state → Kept (hook view e state).state) (program : Block)
    {s : State σ} (h : Kept s.hook) : Kept (run context hook program s).state.hook := by
  have inv : Invariant context hook (fun _ => True) Kept :=
    { empty := trivial
      clear := fun _ _ => trivial
      assign := fun _ _ _ => trivial
      assignZero := fun _ _ => trivial
      store := fun _ _ => trivial
      joinStorage := fun _ _ => trivial
      forgetStorage := fun _ => trivial
      call := fun _ h => hcall _ _ _ h }
  exact (inv.run program ⟨trivial, h⟩).2

theorem runAnswers_total (htotal : hook.Total) (program : Block) (s : State σ) :
    ∀ answer ∈ runAnswers context hook program s, answer = none := by
  refine kept_of_run (fun state : σ × Answers => ∀ answer ∈ state.2.map Prod.snd, answer = none)
    (fun view e state h answer hmem => ?_) program nofun
  rcases List.mem_append.1 (List.map_append ▸ hmem) with hmem | hmem
  · exact h answer hmem
  · obtain rfl := List.mem_singleton.1 hmem
    exact htotal view e state.1

/-- The calls are counted, and only the one with the number was answered with the error. -/
def Counts (number : Nat) (error : Error) (state : (σ × Nat) × Answers) : Prop :=
  state.1.2 = state.2.length ∧ ∀ i answer, (state.2.map Prod.snd)[i]? = some answer →
    answer = if i + 1 = number then some error else none

theorem counts_failingAt (htotal : hook.Total) {number : Nat} {error : Error} (view : View)
    (e : Expr) (state : (σ × Nat) × Answers) (h : Counts number error state) :
    Counts number error ((hook.failingAt number error).answered view e state).state := by
  obtain ⟨hcount, hanswers⟩ := h
  refine ⟨?_, fun i answer hanswer => ?_⟩
  · show ((hook.failingAt number error view e state.1).state).2 = (state.2 ++ [_]).length
    rw [Hook.state_failingAt, hcount, List.length_append, List.length_singleton]
  · have hlast := Hook.error?_failingAt htotal number error view e state.1
    change ((state.2 ++ [((view, e), (hook.failingAt number error view e state.1).error?)]).map
      Prod.snd)[i]? = some answer at hanswer
    rw [hlast, hcount, List.map_append, List.getElem?_append] at hanswer
    split at hanswer
    next => exact hanswers i answer hanswer
    next hge =>
      obtain ⟨hi, hanswer⟩ := List.getElem?_eq_some_iff.1 hanswer
      obtain rfl : i = state.2.length := by simp at hge hi; omega
      rw [← hanswer]
      simp

theorem runAnswers_failingAt (htotal : hook.Total) {number : Nat} {error : Error}
    {program : Block} {s : State Unit} {start : σ} {k : Nat} {answer : Option Error}
    (h : (runAnswers context (hook.failingAt number error) program (s.withHook (start, 0)))[k]? =
      some answer) : answer = if k + 1 = number then some error else none :=
  (kept_of_run (Counts number error) (counts_failingAt htotal) program
    ⟨rfl, fun _ _ h => by simp [State.withHook] at h⟩).2 _ _ h

section Complete

variable {program : Block} {s : State σ} (hobserves : hook.Observes)
  (hrules : ∀ error, ¬ context.rules.Raises context.dialect error)
  (hcomplete : program.isComplete = true) (hcoherent : s.knowledge.Coherent context.dialect)
include hobserves hrules hcomplete hcoherent

/-- A hook that never stops is called for all expressions. -/
theorem run_total (htotal : hook.Total) :
    (run context hook program s).error? = none ∧
      (runCalls context hook program s).map Prod.snd = (Node.block program).expressions := by
  obtain ⟨asked, hcalls, hanswers, hpassed⟩ := run_passes hobserves hrules hcomplete hcoherent
  have hgoesOn : ∀ answer ∈ runAnswers context hook program s, answer = none :=
    runAnswers_total htotal program s
  rw [hanswers] at hgoesOn
  obtain ⟨herror, hexpressions⟩ := hpassed.of_goesOn hgoesOn
  exact ⟨herror, hcalls.trans hexpressions⟩

/-- A hook that stops at some call stops the run there. -/
theorem run_stopped {k : Nat} {error : Error}
    (hanswer : (runAnswers context hook program s)[k]? = some (some error)) :
    (run context hook program s).error? = some error ∧
      (runCalls context hook program s).length = k + 1 ∧
      (runCalls context hook program s).map Prod.snd =
        (Node.block program).expressions.take (k + 1) := by
  obtain ⟨asked, hcalls, hanswers, hpassed⟩ := run_passes hobserves hrules hcomplete hcoherent
  rw [hanswers] at hanswer
  obtain ⟨herror, hlength, hexpressions⟩ := hpassed.stops hanswer
  refine ⟨herror, ?_, hcalls.trans hexpressions⟩
  rw [← hlength, ← List.length_map, hcalls, List.length_map]

end Complete

/-- A hook that is made to fail at a call gets to that call. -/
theorem failingAt_reached {program : Block} {s : State Unit} (hobserves : hook.Observes)
    (htotal : hook.Total) (hrules : ∀ error, ¬ context.rules.Raises context.dialect error)
    (hcomplete : program.isComplete = true) (hcoherent : s.knowledge.Coherent context.dialect)
    (start : σ) {k : Nat} (error : Error) (hk : k < (Node.block program).expressions.length) :
    (runAnswers context (hook.failingAt (k + 1) error) program (s.withHook (start, 0)))[k]? =
      some (some error) := by
  obtain ⟨asked, hcalls, hanswers, hpassed⟩ :=
    run_passes (s := s.withHook (start, 0)) (hobserves.failingAt (k + 1) error) hrules hcomplete
      hcoherent
  have hcounts {i : Nat} {answer : Option Error} (h : (asked.map Prod.snd)[i]? = some answer) :
      answer = if i = k then some error else none := by
    rw [← hanswers] at h
    simpa using runAnswers_failingAt htotal h
  rcases hpassed.reaches hk with hreached | ⟨i, hi, error', hearlier⟩
  · rw [← List.length_map] at hreached
    rw [hanswers, List.getElem?_eq_getElem hreached, hcounts (List.getElem?_eq_getElem hreached),
      if_pos rfl]
  · have hnone := hcounts hearlier
    rw [if_neg (by omega)] at hnone
    cases hnone

/-- **An analysis gets to the expressions of a program as a traversal does**, whatever was analysed
before. In a complete program, a hook that changes nothing and always goes on is called for each
expression once, behind the arguments; made to fail at a call, it is called up to this one, and the
run fails with its error. The leaves among the expressions are those that a traversal gets to. And
whenever a hook that changes nothing fails at a call, the run fails with that error and the hook is
called no more. -/
theorem calls_pass_expressions {dialect : Dialect} {s : State Unit} (h : BetweenRuns dialect s)
    {rules : RuleTable} (hrules : ∀ error, ¬ rules.Raises dialect error) (config : Config)
    {program : Block} (hcomplete : program.isComplete = true) :
    let context : Context := { dialect, rules, config }
    let expressions := (Node.block program).expressions
    (∀ {σ : Type} (hook : Hook σ) (start : σ), hook.Observes → hook.Total →
      (run context hook program (s.withHook start)).error? = none ∧
        (runCalls context hook program (s.withHook start)).map Prod.snd = expressions ∧
        ∀ number error, 0 < number → number ≤ expressions.length →
          let failing := hook.failingAt number error
          let before := s.withHook (start, 0)
          (run context failing program before).error? = some error ∧
            (runCalls context failing program before).length = number) ∧
      (program.visit leafVisitor).run [] = ((), expressions.filter Expr.isLeaf) ∧
      ∀ {σ : Type} (hook : Hook σ) (start : σ), hook.Observes → ∀ k error,
        let before := s.withHook start
        (runAnswers context hook program before)[k]? = some (some error) →
          (run context hook program before).error? = some error ∧
            (runCalls context hook program before).length = k + 1 ∧
            (runCalls context hook program before).map Prod.snd = expressions.take (k + 1) := by
  intro context expressions
  have hcoherent : s.knowledge.Coherent context.dialect := h.known (coherent_preserved dialect)
  refine ⟨fun hook start hobserves htotal => ?_, ?_, fun hook start hobserves _ _ => ?_⟩
  · have htotalRun := run_total (s := s.withHook start) hobserves hrules hcomplete hcoherent htotal
    refine ⟨htotalRun.1, htotalRun.2, ?_⟩
    intro number error hpos hle failing before
    obtain ⟨k, rfl⟩ := Nat.exists_eq_add_one.2 hpos
    have hanswer := failingAt_reached hobserves htotal hrules hcomplete hcoherent start error hle
    have hstopped := run_stopped (s := before) (hobserves.failingAt (k + 1) error) hrules hcomplete
      hcoherent hanswer
    exact ⟨hstopped.1, hstopped.2.1⟩
  · exact (Node.block program).run_visit_leafVisitor []
  · exact run_stopped (s := s.withHook start) hobserves hrules hcomplete hcoherent

/-- A function, and a loop whose body chooses between a call and a `continue`. -/
def callsInLoop : Block :=
  .ofStatements [
    .define "next" ["i"] ["j"] (.ofStatements [
      .assignTo ["j"] (.native .add [.ofName "i", .number 1])]),
    .loop (.native .lt [.ofName "i", .number 4])
      (.ofStatements [.assignTo ["i"] (.call (.ofName "next") [.ofName "i"] .synthetic)])
      (.ofStatements [.switchOn (.ofName "i") [
        .ofValue (.number 2) (.ofStatements [.continueLoop .synthetic]),
        .otherwise (.ofStatements [.eval (.native .sstore [.ofName "i", .number 0])])]])]

/-- The seventh call, behind a run that was stopped, is the one for the scrutinee. -/
theorem calls_pass_expressions_stopped :
    let dialect := BuiltinTable.evm.toDialect
    let stopped := run { dialect } (.idle : Hook Unit) stopsInFunction (.initial ())
    let refusal := Error.refused "no" .synthetic
    let failing := (Hook.idle : Hook Unit).failingAt 7 refusal
    let before := stopped.state.withHook ((), 0)
    stopped.error?.isSome = true ∧
      (run { dialect } failing callsInLoop before).error? = some refusal ∧
      (runCalls { dialect } failing callsInLoop before).map Prod.snd =
        (Node.block callsInLoop).expressions.take 7 ∧
      (Node.block callsInLoop).expressions.length = 12 := by
  intro dialect stopped refusal failing before
  have hidle : (Hook.idle : Hook Unit).Observes := fun _ _ _ => rfl
  obtain ⟨htotal, _, hfails⟩ := calls_pass_expressions (betweenRuns_idle dialect stopsInFunction)
    (fun _ => RuleTable.not_raises_of_standard fun _ hrule => hrule) {}
    (show callsInLoop.isComplete = true by decide)
  obtain ⟨_, hcalls, hstops⟩ := htotal Hook.idle () hidle fun _ _ _ => rfl
  have hlength : (Node.block callsInLoop).expressions.length = 12 := by
    rw [← hcalls]
    decide +kernel
  obtain ⟨_, _, hexpressions⟩ := hfails failing ((), 0) (hidle.failingAt 7 refusal) 6 refusal
    (by decide +kernel)
  exact ⟨by decide +kernel, (hstops 7 refusal (by omega) (by omega)).1, hexpressions, hlength⟩

end Analysis

end StorageFlow
