import StorageFlow.Analysis.Transfer

/-!
# StorageFlow.Analysis.Run

Whole runs of an analysis.

* `Analysis.run` — analyses a program and lets a hook rewrite it. The state can be carried on to the
  next program, also after an error.
-/

namespace StorageFlow.Analysis

variable {σ : Type}

/-- Analyses a program and lets the hook rewrite it. A run that came to its end is tested as the
configuration asks. -/
def run (context : Context) (hook : Hook σ) (program : Block) (s : State σ) :
    Step (State σ) Block :=
  let step := analyseBlock context hook program s
  let (expected, actual) := (s.scopes.length, step.state.scopes.length)
  if actual = expected then
    step.andThen id fun program s =>
    .attempt program s ((if context.config.testsKnowledge then s.knowledge.check else .ok ()).map
      fun _ => s)
  else .stopped step.node step.state (.unbalancedScopes expected actual)

end StorageFlow.Analysis
