import StorageFlow.Proofs.Analysis.Session
import StorageFlow.Proofs.Pass.Meaning

/-!
# StorageFlow.Proofs.Analysis.Faults

The programs on which passes fail.

* `Stmt.IsMalformed` — an assignment without a value, or a loop with an initial block.
* `Analysis.fails_at_first_fault` — a run of passes is stopped by the first such statement that it
  gets to, and by nothing else, whatever was analysed before.
-/

namespace StorageFlow

/-- An assignment without a value, or a loop with a statement in its initial block. -/
inductive Stmt.IsMalformed : Stmt → Prop
  | missingValue (targets : List Identifier) (span : Span) : IsMalformed (.assign targets none span)
  | loopPrologue {initial : Block} (condition : Expr) (post body : Block) (span : Span)
      (h : initial.statements ≠ []) : IsMalformed (.forLoop initial condition post body span)

/-- Only malformed statements cause errors. -/
theorem Stmt.isSome_fault?_iff {stmt : Stmt} : stmt.fault?.isSome = true ↔ stmt.IsMalformed := by
  constructor
  · intro h
    cases stmt with
    | assign targets value? span =>
        cases value? with
        | none => exact .missingValue targets span
        | some _ => cases h
    | forLoop initial condition post body span =>
        refine .loopPrologue condition post body span fun hnil => ?_
        rw [Stmt.fault?, Block.isEmpty, hnil] at h
        cases h
    | _ => cases h
  · intro h
    cases h with
    | missingValue targets span => rfl
    | loopPrologue condition post body span h =>
        rw [Stmt.fault?, Block.isEmpty, if_neg (by rwa [List.isEmpty_iff])]
        rfl

theorem isSome_firstFault?_iff {stmts : List Stmt} :
    (firstFault? stmts).isSome = true ↔ ∃ stmt ∈ stmts, stmt.IsMalformed := by
  rw [firstFault?, List.findSome?_isSome_iff]
  simp only [Stmt.isSome_fault?_iff]

namespace Analysis

/-- A run of passes fails exactly on malformed programs, whatever was analysed before and within any
bounds: if some statement that it gets to is an assignment without a value or a loop with an initial
block, and then with the error of the first of these. Nothing else stops it; in particular, no
expression is refused when its effects are summed up. -/
theorem fails_at_first_fault {dialect : Dialect} {s : State Unit} (h : BetweenRuns dialect s)
    (config : Config) (passes : List Pass) (counts : PassCounts) (program : Block) :
    let result := run { dialect, config } (Pass.hookOf passes) program (s.withHook counts)
    (result.error?.isSome = true ↔ ∃ stmt ∈ program.visited, stmt.IsMalformed) ∧
      result.error? = firstFault? program.visited ∧
      ∀ e : Expr, ((e.visit (EffectSummary.visitor dialect)).run.run {}).1 = .ok () := by
  intro result
  have hcoherent : (s.withHook counts).knowledge.Coherent dialect :=
    h.known (coherent_preserved dialect)
  have herror : result.error? = firstFault? program.visited := by
    rw [show result = _ from run_eq_analyseBlock hcoherent]
    exact error?_analyseBlock (Pass.hookOf_total passes) (fun _ hrule => hrule) program _
  refine ⟨?_, herror, fun e => ?_⟩
  · rw [herror, isSome_firstFault?_iff]
  · rw [EffectSummary.run_visit]

/-- A function with a loop whose body holds a loop with an initial block, in front of a post block
and a last statement that assign nothing. -/
def faultyFunction : Block :=
  let unassigned := Stmt.assign [.ofName "i", .ofName "j"] none .synthetic
  let prologue : Block := ⟨[.declareAs ["k"] none], ⟨7, 9⟩⟩
  let inner := Stmt.forLoop prologue (.number 1) (.ofStatements [unassigned]) .empty .synthetic
  .ofStatements [
    .define "f" ["i", "j"] [] (.ofStatements [
      .loop (.ofName "i") (.ofStatements [unassigned]) (.ofStatements [
        .switchOn (.ofName "j") [.otherwise (.ofStatements [.breakLoop .synthetic, inner])]])]),
    unassigned]

/-- The loop in the body is what stops the run, behind a run that was stopped too. -/
theorem fails_at_first_fault_loopBody :
    let dialect := BuiltinTable.evm.toDialect
    let stopped := run { dialect } (.idle : Hook Unit) stopsInFunction (.initial ())
    let config : Config := { limits := { depth := 1, rewrites := 0 } }
    let result := run { dialect, config } (Pass.hookOf [.copyPropagation, .loadForwarding])
      faultyFunction (stopped.state.withHook {})
    stopped.error?.isSome = true ∧ result.error? = some (.loopPrologue ⟨7, 9⟩) ∧
      ∃ stmt ∈ faultyFunction.visited, stmt.IsMalformed := by
  intro dialect stopped config result
  obtain ⟨hmalformed, hfirst, _⟩ := fails_at_first_fault
    (betweenRuns_idle dialect stopsInFunction) config [.copyPropagation, .loadForwarding] {}
    faultyFunction
  have herror : result.error? = some (.loopPrologue ⟨7, 9⟩) := hfirst.trans (by decide +kernel)
  exact ⟨by decide +kernel, herror, hmalformed.1 (congrArg Option.isSome herror)⟩

end Analysis

end StorageFlow
