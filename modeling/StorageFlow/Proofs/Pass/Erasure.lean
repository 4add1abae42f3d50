import Mathlib.Data.List.Forall2
import StorageFlow.Pass
import StorageFlow.Proofs.Analysis.Erasure

/-!
# StorageFlow.Proofs.Pass.Erasure

Source locations never influence what passes do.

* `Pass.replacement?_withoutSpans`, `Pass.ignoresSpans_hookOf` — passes make the same of expressions
  without source locations.
* `Pass.Job`, `Pass.runJobs` — runs of passes one after another, each from the state that the last
  one left behind.
* `Pass.AgreeButSpans`, `Pass.spans_irrelevant` — runs over programs that differ in their source
  locations only differ in nothing else.
-/

namespace StorageFlow.Pass

open Analysis

/-! ### Replacements -/

theorem propagated?_withoutSpans (view : View) (x : Identifier) :
    propagated? view.withoutSpans x.withoutSpan = (propagated? view x).map Expr.withoutSpans := by
  have hvalue : view.withoutSpans.knowledge.value? x.name =
      (view.knowledge.value? x.name).map Expr.withoutSpans :=
    Knowledge.value?_withoutSpans x.name
  simp only [propagated?, Identifier.withoutSpan, Identifier.ofName, hvalue]
  rcases view.knowledge.value? x.name with _ | value | y | _ | _
  · rfl
  · rfl
  · show (if view.isVisible y.name then _ else _) =
      Option.map _ (if view.isVisible y.name then _ else _)
    split <;> rfl
  · rfl
  · rfl

theorem forwarded?_withoutSpans (view : View) (e : Expr) :
    forwarded? view.withoutSpans e.withoutSpans = (forwarded? view e).map Expr.withoutSpans := by
  have hoperation := view.context.dialect.operation?_withoutSpans e
  unfold forwarded?
  rw [show view.withoutSpans.context = view.context from rfl, hoperation]
  rcases view.context.dialect.operation? e with _ | ⟨operator, arguments⟩
  · rfl
  · by_cases hload : operator = .sload
    · subst hload
      rcases arguments with _ | ⟨a, _ | ⟨b, arguments⟩⟩
      · rfl
      · cases a with
        | identifier slot =>
            show (((view.knowledge.storedAt? slot.name).filter view.isVisible).map fun value =>
              Expr.identifier ⟨value, e.withoutSpans.span⟩) = _
            rw [e.span_withoutSpans]
            dsimp only
            cases (view.knowledge.storedAt? slot.name).filter view.isVisible <;> rfl
        | _ => rfl
      · cases a <;> rfl
    · -- no other instruction is replaced
      cases operator <;> first | rfl | exact absurd rfl hload

theorem replacement?_withoutSpans (pass : Pass) (view : View) (e : Expr) :
    pass.replacement? view.withoutSpans e.withoutSpans =
      (pass.replacement? view e).map Expr.withoutSpans := by
  cases pass with
  | copyPropagation =>
      cases e with
      | identifier x => exact propagated?_withoutSpans view x
      | _ => rfl
  | loadForwarding => exact forwarded?_withoutSpans view e

theorem ignoresSpans_hook (pass : Pass) : pass.hook.IgnoresSpans := by
  intro view e counts
  rw [hook, hook, replacement?_withoutSpans]
  cases pass.replacement? view e <;> rfl

theorem ignoresSpans_hookOf : ∀ passes : List Pass, (hookOf passes).IgnoresSpans
  | [] => .idle
  | pass :: passes => pass.ignoresSpans_hook.andThen (ignoresSpans_hookOf passes)

/-! ### Runs one after another -/

/-- A run of passes over a program, with the counts that they start from. Without them, the passes
go on counting. -/
structure Job where
  config : Config
  passes : List Pass
  counts? : Option PassCounts
  program : Block

variable {dialect : Dialect}

/-- Does the job, with standard rules. -/
def Job.run (dialect : Dialect) (job : Job) (s : State PassCounts) :
    Step (State PassCounts) Block :=
  let context : Context := { dialect, config := job.config }
  Analysis.run context (hookOf job.passes) job.program
    { s with hook := job.counts?.getD s.hook }

/-- Does jobs one after another, each from the state that the last one left behind. -/
def runJobs (dialect : Dialect) : List Job → State PassCounts → List (Step (State PassCounts) Block)
  | [], _ => []
  | job :: jobs, s =>
      let result := job.run dialect s
      result :: runJobs dialect jobs result.state

/-- The jobs differ at most in the source locations of their programs. -/
structure Job.SameButSpans (job job' : Job) : Prop where
  config : job'.config = job.config
  passes : job'.passes = job.passes
  counts : job'.counts? = job.counts?
  program : job'.program.withoutSpans = job.program.withoutSpans

/-- The runs ended the same way, with the same error up to its source location. The programs that
they left differ at most in source locations, the passes have replaced as much, and what is known
differs at most in source locations of recorded values. -/
structure AgreeButSpans (result result' : Step (State PassCounts) Block) : Prop where
  error : result'.error?.map Error.withoutSpan = result.error?.map Error.withoutSpan
  program : result'.node.withoutSpans = result.node.withoutSpans
  counts : result'.state.hook = result.state.hook
  knowledge : result'.state.knowledge.withoutSpans = result.state.knowledge.withoutSpans

theorem AgreeButSpans.of_erased {result result' : Step (State PassCounts) Block}
    (h : result'.erased Block.withoutSpans State.withoutSpans =
      result.erased Block.withoutSpans State.withoutSpans) : AgreeButSpans result result' where
  error := congrArg Step.error? h
  program := congrArg Step.node h
  counts := congrArg (·.state.hook) h
  knowledge := congrArg (·.state.knowledge) h

/-- A job without source locations is the job, and then the erasure. -/
theorem Job.run_erased (job : Job) {s : State PassCounts}
    (hcoherent : s.knowledge.Coherent dialect) :
    (job.run dialect s).erased Block.withoutSpans State.withoutSpans =
      analyseBlock { dialect, config := job.config } (hookOf job.passes) job.program.withoutSpans
        { s.withoutSpans with hook := job.counts?.getD s.hook } := by
  have hstart : ({ s with hook := job.counts?.getD s.hook } :
      State PassCounts).knowledge.Coherent dialect := hcoherent
  rw [Job.run, run_eq_analyseBlock hstart]
  exact (analyseBlock_withoutSpans (fun _ hrule => hrule) (ignoresSpans_hookOf job.passes)
    job.program _).symm

theorem coherent_runJob (job : Job) {s : State PassCounts}
    (hcoherent : s.knowledge.Coherent dialect) :
    (job.run dialect s).state.knowledge.Coherent dialect := by
  let context : Context := { dialect, config := job.config }
  let start : State PassCounts := { s with hook := job.counts?.getD s.hook }
  have hcoherent : start.knowledge.Coherent context.dialect := hcoherent
  rw [Job.run, run_state]
  exact coherent_analyseBlock job.program hcoherent

theorem runJobs_agree {jobs jobs' : List Job} (h : List.Forall₂ Job.SameButSpans jobs jobs')
    {s s' : State PassCounts} (hcoherent : s.knowledge.Coherent dialect)
    (hcoherent' : s'.knowledge.Coherent dialect) (hstates : s'.withoutSpans = s.withoutSpans) :
    List.Forall₂ AgreeButSpans (runJobs dialect jobs s) (runJobs dialect jobs' s') := by
  induction h generalizing s s' with
  | nil => exact .nil
  | @cons job job' jobs jobs' hjob _ ih =>
      have hresults : (job'.run dialect s').erased Block.withoutSpans State.withoutSpans =
          (job.run dialect s).erased Block.withoutSpans State.withoutSpans := by
        have hcounts : s'.hook = s.hook :=
          show s'.withoutSpans.hook = s.withoutSpans.hook by rw [hstates]
        rw [job'.run_erased hcoherent', job.run_erased hcoherent, hjob.config, hjob.passes,
          hjob.counts, hjob.program, hstates, hcounts]
      exact .cons (.of_erased hresults) (ih (coherent_runJob job hcoherent)
        (coherent_runJob job' hcoherent') (congrArg Step.state hresults))

/-- Source locations never influence passes. Whatever the dialect, the limits and the passes of
each run, two sequences of runs over programs that differ in their source locations only agree, run
by run. -/
theorem spans_irrelevant (dialect : Dialect) (counts : PassCounts) {jobs jobs' : List Job}
    (h : List.Forall₂ Job.SameButSpans jobs jobs') :
    List.Forall₂ AgreeButSpans (runJobs dialect jobs (.initial counts))
      (runJobs dialect jobs' (.initial counts)) :=
  runJobs_agree h Knowledge.coherent_empty Knowledge.coherent_empty rfl

/-- A run that is stopped, and one that stores the same word twice, found in the source at `p` and
`q`. -/
def locatedJobs (p q : Span) : List Job :=
  let x (span : Span) : Expr := .identifier ⟨"x", span⟩
  let stopped : Block := .ofStatements [
    .assign [⟨"u", p⟩] (some (x q)) p,
    .assign [⟨"r", p⟩] none q]
  let stores : Block := .ofStatements [
    .declareAs ["a", "b", "x"] (some (.callOf "f" [])),
    .declareAs ["v"] (some (x p)),
    .declareAs ["w"] (some (x q)),
    .eval (.native .sstore [.ofName "a", .ofName "v"]),
    .eval (.native .sstore [.ofName "b", .ofName "w"]),
    .declareAs ["c"] (some (.instruction .sload [.ofName "a"] p))]
  [⟨{}, [.copyPropagation], some {}, stopped⟩, ⟨{}, [.loadForwarding], none, stores⟩]

/-- Wherever the two occurrences are, the second store keeps what is known of the first one. -/
theorem spans_irrelevant_located :
    let dialect := BuiltinTable.evm.toDialect
    let results := runJobs dialect (locatedJobs ⟨1, 2⟩ ⟨3, 4⟩) (.initial {})
    let results' := runJobs dialect (locatedJobs ⟨5, 6⟩ ⟨5, 6⟩) (.initial {})
    List.Forall₂ Job.SameButSpans (locatedJobs ⟨1, 2⟩ ⟨3, 4⟩) (locatedJobs ⟨5, 6⟩ ⟨5, 6⟩) ∧
      results.map Step.error? = [some (.missingValue "r" ⟨3, 4⟩), none] ∧
      results'.map Step.error? = [some (.missingValue "r" ⟨5, 6⟩), none] ∧
      results.map (·.state.hook.forwarded) = [0, 1] ∧
      List.Forall₂ AgreeButSpans results results' := by
  intro dialect results results'
  have hjobs : List.Forall₂ Job.SameButSpans (locatedJobs ⟨1, 2⟩ ⟨3, 4⟩)
      (locatedJobs ⟨5, 6⟩ ⟨5, 6⟩) :=
    .cons ⟨rfl, rfl, rfl, rfl⟩ (.cons ⟨rfl, rfl, rfl, rfl⟩ .nil)
  exact ⟨hjobs, by decide +kernel, by decide +kernel, by decide +kernel,
    spans_irrelevant dialect {} hjobs⟩

end StorageFlow.Pass
