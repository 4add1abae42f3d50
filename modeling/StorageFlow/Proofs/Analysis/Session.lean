import StorageFlow.Proofs.Analysis.Cause
import StorageFlow.Proofs.Knowledge.Grounded

/-!
# StorageFlow.Proofs.Analysis.Session

Runs one after another, each from the state that the last one left behind.

* `Analysis.BetweenRuns` — the states between runs, whatever was analysed and however it ended.
* `Analysis.snapshots` — what is known at the calls of the hook in a run, and behind the run.
* `Analysis.Preserved`, `BetweenRuns.snapshots` — what every analysis keeps holds in all snapshots
  of all runs.
* `Analysis.runs_consistent` — the data of an analysis never breaks, and no run stops for it.
* `Analysis.recorded_values_exact` — known values are recorded exactly and without a cycle.
-/

namespace StorageFlow.Analysis

variable {σ : Type} {context : Context} {hook : Hook σ} {dialect : Dialect}

/-- The states of an analysis between its runs. The rules, the hook and the program may be others
in each run, and each run may have been stopped by an error. -/
inductive BetweenRuns (dialect : Dialect) : State Unit → Prop
  | start : BetweenRuns dialect (.initial ())
  | run {σ : Type} {s : State Unit} (h : BetweenRuns dialect s) (rules : RuleTable)
      (config : Config) (hook : Hook σ) (state : σ) (program : Block) :
      BetweenRuns dialect ((Analysis.run { dialect, rules, config } hook program
        (s.withHook state)).state.withHook ())

@[simp] theorem withHook_unit (s : State Unit) : s.withHook () = s := rfl

theorem betweenRuns_idle (dialect : Dialect) (program : Block) :
    BetweenRuns dialect (run { dialect } .idle program (.initial ())).state :=
  .run .start .standard {} (.idle : Hook Unit) () program

/-- What is known at each call of the hook in a run, and behind the run. -/
def snapshots (context : Context) (hook : Hook σ) (program : Block) (s : State σ) :
    List Knowledge :=
  (runCalls context hook program s).map (fun call => call.1.knowledge) ++
    [(run context hook program s).state.knowledge]

theorem Invariant.snapshots {Known : Knowledge → Prop} {Kept : σ → Prop}
    (inv : Invariant context hook Known Kept) (program : Block) {s : State σ} (h : inv.At s) :
    ∀ k ∈ snapshots context hook program s, Known k := by
  intro k hk
  rcases List.mem_append.1 hk with hk | hk
  · obtain ⟨call, hcall, rfl⟩ := List.mem_map.1 hk
    have hstart : inv.recorded.At (s.withHook (s.hook, [])) := ⟨h.1, h.2, nofun⟩
    exact (inv.recorded.run program hstart).2.2 call hcall
  · obtain rfl := List.mem_singleton.1 hk
    exact (inv.run program h).1

/-- Every analysis with the dialect keeps the property of the knowledge, whatever its hook does. -/
def Preserved (dialect : Dialect) (Known : Knowledge → Prop) : Prop :=
  ∀ {σ : Type} (context : Context) (hook : Hook σ), context.dialect = dialect →
    Invariant context hook Known fun _ => True

namespace BetweenRuns

variable {Known : Knowledge → Prop} {s : State Unit}

theorem known (hpreserved : Preserved dialect Known) (h : BetweenRuns dialect s) :
    Known s.knowledge := by
  induction h with
  | start => exact (hpreserved { dialect } (.idle : Hook Unit) rfl).empty
  | run _ rules config hook state program ih =>
      exact ((hpreserved { dialect, rules, config } hook rfl).run program ⟨ih, trivial⟩).1

theorem snapshots (hpreserved : Preserved dialect Known) (h : BetweenRuns dialect s)
    (rules : RuleTable) (config : Config) (hook : Hook σ) (state : σ) (program : Block) :
    ∀ k ∈ snapshots { dialect, rules, config } hook program (s.withHook state), Known k := by
  have inv := hpreserved { dialect, rules, config } hook rfl
  exact inv.snapshots program ⟨h.known hpreserved, trivial⟩

end BetweenRuns

/-! ### Consistency -/

theorem coherent_preserved (dialect : Dialect) :
    Preserved dialect (Knowledge.Coherent dialect) := by
  rintro σ context hook rfl
  exact coherent_invariant context hook

/-- A run that is stopped has a cause. -/
theorem cause_of_run {program : Block} {s : State σ} {error : Error}
    (hcoherent : s.knowledge.Coherent context.dialect)
    (herror : (run context hook program s).error? = some error) :
    Cause context hook (runCalls context hook program s) error := by
  have hstart : (s.withHook (s.hook, ([] : Hook.Log))).knowledge.Coherent context.dialect :=
    hcoherent
  rw [run_recorded program s [], Step.error?_mapState, run_eq_analyseBlock hstart] at herror
  rw [runCalls, run_state]
  exact cause_of_analyseBlock program _ error herror

/-- The data of an analysis never breaks. In each run behind any others, at each call of the hook
and at the end: the two directions of the provenance agree and hold no empty set, those of the
storage facts agree, and the test of the knowledge passes. The scopes behind the run are those from
before it. If it stops, then the program is malformed or a rule or the hook failed with that
error. -/
theorem runs_consistent {s : State Unit} (h : BetweenRuns dialect s) (rules : RuleTable)
    (config : Config) (hook : Hook σ) (state : σ) (program : Block) :
    let context : Context := { dialect, rules, config }
    let before := s.withHook state
    (∀ k ∈ snapshots context hook program before,
        k.provenance.Mirrored ∧ k.storage.Exact ∧ k.check = .ok ()) ∧
      (run context hook program before).state.scopes = before.scopes ∧
      ∀ error, (run context hook program before).error? = some error →
        Cause context hook (runCalls context hook program before) error := by
  intro context before
  have hcoherent : before.knowledge.Coherent context.dialect := h.known (coherent_preserved dialect)
  refine ⟨fun k hk => ?_, ?_, fun error herror => cause_of_run hcoherent herror⟩
  · have hk : k.Coherent dialect :=
      h.snapshots (coherent_preserved dialect) rules config hook state program k hk
    exact ⟨hk.mirrored, hk.exact, hk.check⟩
  · rw [run_state, analyseBlock_scopes]

/-- Assignments to variables that outlive the run, which stops inside a function. -/
def stopsInFunction : Block :=
  .ofStatements [
    .assignTo ["word"] (.native .calldataload [.number 0]),
    .assignTo ["copy"] (.ofName "word"),
    .define "broken" [] ["result"] (.ofStatements [.assign [.ofName "result"] none .synthetic])]

/-- A use of the variables that the stopped run has left known. -/
def readsCopies : Block :=
  .ofStatements [
    .declareAs ["sum"] (some (.native .add [.ofName "copy", .ofName "word"])),
    .eval (.native .sstore [.ofName "copy", .ofName "sum"])]

theorem runs_consistent_afterError :
    let dialect := BuiltinTable.evm.toDialect
    let stopped := run { dialect } (.idle : Hook Unit) stopsInFunction (.initial ())
    stopped.error? = some (.missingValue "result" .synthetic) ∧
      (∀ k ∈ snapshots { dialect } (.idle : Hook Unit) readsCopies stopped.state,
        k.provenance.Mirrored ∧ k.storage.Exact ∧ k.check = .ok ()) ∧
      (run { dialect } (.idle : Hook Unit) readsCopies stopped.state).state.scopes =
        stopped.state.scopes := by
  intro dialect stopped
  have hstopped : BetweenRuns dialect stopped.state :=
    betweenRuns_idle dialect stopsInFunction
  obtain ⟨hconsistent, hscopes, _⟩ :=
    runs_consistent hstopped .standard {} (.idle : Hook Unit) () readsCopies
  rw [withHook_unit] at hconsistent hscopes
  exact ⟨by decide +kernel, hconsistent, hscopes⟩

/-! ### Exact values -/

/-- The known values stay grounded, whatever the hook does. -/
theorem grounded_invariant (context : Context) (hook : Hook σ) :
    Invariant context hook (fun k => k.Coherent context.dialect ∧ k.Grounded) fun _ => True where
  empty := ⟨Knowledge.coherent_empty, .empty⟩
  clear names h := ⟨h.1.clear names, h.2.clear names⟩
  assign names e h := ⟨h.1.assign names e, h.2.assign h.1 names e⟩
  assignZero names h := ⟨h.1.assignZero names, h.2.assignZero h.1 names⟩
  store h hstore := ⟨h.1.store hstore, h.2.mono fun hx => Knowledge.value?_store hstore _ ▸ hx⟩
  joinStorage before h := ⟨h.1.joinStorage before, h.2.mono id⟩
  forgetStorage h := ⟨h.1.forgetStorage, h.2.mono id⟩
  call _ _ := trivial

/-- Known values are recorded exactly. In each run behind any others, at each call of the hook and
at the end: a known value may be evaluated elsewhere and does not read its own variable, its sources
are the variables that it reads, following the variables that values read never leads back, and
every chain of copies ends. -/
theorem recorded_values_exact {s : State Unit} (h : BetweenRuns dialect s) (rules : RuleTable)
    (config : Config) (hook : Hook σ) (state : σ) (program : Block) :
    ∀ k ∈ snapshots { dialect, rules, config } hook program (s.withHook state),
      k.ValuesExact dialect := by
  have hpreserved : Preserved dialect fun k => k.Coherent dialect ∧ k.Grounded := by
    rintro σ context hook rfl
    exact grounded_invariant context hook
  intro k hk
  obtain ⟨hcoherent, hgrounded⟩ := h.snapshots hpreserved rules config hook state program k hk
  exact hcoherent.valuesExact hgrounded

/-- At the store, the sum reads the copy, and the copy is the word. -/
theorem recorded_values_exact_afterError :
    let dialect := BuiltinTable.evm.toDialect
    let stopped := run { dialect } (.idle : Hook Unit) stopsInFunction (.initial ())
    ∃ k ∈ snapshots { dialect } (.idle : Hook Unit) readsCopies stopped.state,
      k.value? "sum" = some (.native .add [.ofName "copy", .ofName "word"]) ∧
        k.value? "copy" = some (.ofName "word") ∧ k.ValuesExact dialect := by
  intro dialect stopped
  have hstopped : BetweenRuns dialect stopped.state :=
    betweenRuns_idle dialect stopsInFunction
  have hexact := recorded_values_exact hstopped .standard {} (.idle : Hook Unit) () readsCopies
  rw [withHook_unit] at hexact
  have hvalues : ((snapshots { dialect } (.idle : Hook Unit) readsCopies stopped.state)[5]?.map
      fun k => (k.value? "sum", k.value? "copy")) =
        some (some (.native .add [.ofName "copy", .ofName "word"]), some (.ofName "word")) := by
    decide +kernel
  obtain ⟨k, hk, hvalues⟩ := Option.map_eq_some_iff.1 hvalues
  obtain ⟨hsum, hcopy⟩ := Prod.mk.inj hvalues
  have hk := List.mem_of_getElem? hk
  exact ⟨k, hk, hsum, hcopy, hexact k hk⟩

end StorageFlow.Analysis
