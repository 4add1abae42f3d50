import Std.Data.String.ToNat
import StorageFlow.Proofs.Analysis.Isolation
import StorageFlow.Proofs.Analysis.Straight
import StorageFlow.Proofs.Families.Basic

/-!
# StorageFlow.Proofs.Families.StraightLine

Nothing is lost in straight-line code.

* `append_repr_inj` — names made of a letter and a number do not collide.
* `Family.groupValues`, `Family.groupFact`, `Family.groupStore` — what a group declares and stores.
* `Analysis.BehindGroups` — exactly what the first groups declared and stored is known, and what
  their stores were shown.
* `BehindGroups.group`, `behindGroups` — one more group, and any number of them.
* `Analysis.straightLine_precise` — whole runs.
-/

namespace StorageFlow

/-- Names made of a letter and a number are the same only for the same letter and number. -/
theorem append_repr_inj {kind kind' : String} (hlength : kind.length = kind'.length) {i j : Nat} :
    kind ++ i.repr = kind' ++ j.repr ↔ kind = kind' ∧ i = j := by
  constructor
  · intro h
    have hlist : kind.toList ++ i.repr.toList = kind'.toList ++ j.repr.toList := by
      rw [← String.toList_append, h, String.toList_append]
    obtain ⟨hkind, hnumber⟩ := List.append_inj hlist (by
      rwa [String.length_toList, String.length_toList])
    exact ⟨String.toList_inj.1 hkind, Nat.repr_injective (String.toList_inj.1 hnumber)⟩
  · rintro ⟨rfl, rfl⟩
    rfl

/-! ### Groups -/

namespace Family

/-- The variables that one group declares, with their values. -/
def groupValues (i : Nat) : List (Name × Expr) :=
  let slot := "s" ++ toString i
  let value := "v" ++ toString i
  [(slot, .number i), (value, inputWord (i * 32)),
    ("c" ++ toString i, callOn "add" [value, slot])]

/-- The slot and the value that one group stores. -/
def groupFact (i : Nat) : Name × Name :=
  ("s" ++ toString i, "v" ++ toString i)

/-- The store of one group. -/
def groupStore (i : Nat) : Expr :=
  callOn "sstore" ["s" ++ toString i, "v" ++ toString i]

/-- The variables that the first groups declare, with their values. -/
def valuesOf (size : Nat) : List (Name × Expr) :=
  (List.range size).flatMap groupValues

/-- The slots and the values that the first groups store. -/
def factsOf (size : Nat) : List (Name × Name) :=
  (List.range size).map groupFact

theorem group_eq (i : Nat) :
    group i = (groupValues i).map (fun known => .declareAs [known.1] (some known.2)) ++
      [.eval (groupStore i)] := rfl

theorem valuesOf_succ (size : Nat) : valuesOf (size + 1) = valuesOf size ++ groupValues size := by
  simp [valuesOf, List.range_succ]

theorem factsOf_succ (size : Nat) : factsOf (size + 1) = factsOf size ++ [groupFact size] := by
  simp [factsOf, List.range_succ]

theorem mem_valuesOf {size : Nat} {known : Name × Expr} :
    known ∈ valuesOf size ↔ ∃ i < size, known ∈ groupValues i := by
  simp [valuesOf]

theorem slot_mem_valuesOf {size i : Nat} (hi : i < size) :
    ("s" ++ toString i, Expr.number i) ∈ valuesOf size :=
  mem_valuesOf.2 ⟨i, hi, List.mem_cons_self⟩

theorem aboutKnown_factsOf (size : Nat) : Knowledge.AboutKnown (valuesOf size) (factsOf size) := by
  intro fact hfact
  obtain ⟨i, hi, rfl⟩ := List.mem_map.1 hfact
  have hi : i < size := List.mem_range.1 hi
  have hvalue : ("v" ++ toString i, inputWord (i * 32)) ∈ valuesOf size :=
    mem_valuesOf.2 ⟨i, hi, List.mem_cons_of_mem _ List.mem_cons_self⟩
  exact ⟨List.mem_map.2 ⟨_, slot_mem_valuesOf hi, rfl⟩, List.mem_map.2 ⟨_, hvalue, rfl⟩⟩

/-! ### Variables -/

/-- A group mentions no variable of another one. -/
theorem groupValues_untouched {i j : Nat} (hij : i ≠ j) :
    ∀ known ∈ groupValues i, ∀ next ∈ groupValues j, Untouched [next.1] known.1 known.2 := by
  simp (disch := decide) [groupValues, Untouched, append_repr_inj, hij]

theorem ordered_groupValues (i : Nat) : Knowledge.Ordered (groupValues i) := by
  simp [Knowledge.Ordered, groupValues, Untouched]

theorem ordered_valuesOf (size : Nat) : Knowledge.Ordered (valuesOf size) := by
  refine List.pairwise_flatMap.2 ⟨fun i _ => ordered_groupValues i, ?_⟩
  exact List.pairwise_lt_range.imp fun hij => groupValues_untouched hij.ne

/-! ### Values -/

theorem effects_groupValues (i : Nat) : ∀ known ∈ groupValues i, ∀ op ∈ known.2.operations,
    BuiltinTable.evm.toDialect.effectsOf op = .pure := by
  have hadd : BuiltinTable.evm.toDialect.effectsOf (.call "add") = .pure :=
    Dialect.effectsOf_call_evm .add
  have hload : BuiltinTable.evm.toDialect.effectsOf (.call "calldataload") = .pure :=
    Dialect.effectsOf_call_evm .calldataload
  simp [groupValues, hadd, hload]

theorem learns_groupValues (i : Nat) : ∀ known ∈ groupValues i,
    Knowledge.Learns BuiltinTable.evm.toDialect [known.1] known.2 known.1 := by
  intro known hknown
  refine ⟨rfl, List.all_eq_true.2 fun op hop => ?_, ?_⟩
  · rw [effects_groupValues i known hknown op hop]
    rfl
  · revert known
    simp [groupValues]

theorem groupValues_quiet (i : Nat) : ∀ known ∈ groupValues i,
    ¬ BuiltinTable.evm.toDialect.Changes known.2.operations := by
  rintro known hknown ⟨op, hop, hchanges⟩
  rw [Dialect.changesStorage, effects_groupValues i known hknown op hop] at hchanges
  cases hchanges

/-! ### Stores -/

theorem groupStore_inj {i j : Nat} : groupStore i = groupStore j ↔ i = j := by
  simp [groupStore, callOn, Expr.callOf, Expr.ofName, Identifier.ofName]

/-- No value of a group contains a store. -/
theorem groupStore_not_mem_nodes (i j : Nat) :
    groupStore j ∉ (groupValues i).flatMap fun known => known.2.nodes := by
  simp [groupValues, groupStore, inputWord, callOn, Expr.callOf, Expr.ofName, Expr.number,
    Identifier.ofName, Expr.nodes, Expr.nodesAll]

theorem areComplete_groups (size : Nat) :
    Stmt.areComplete ((List.range size).flatMap group) = true := by
  refine Stmt.areComplete_iff.2 fun stmt hstmt => ?_
  obtain ⟨i, _, hstmt⟩ := List.mem_flatMap.1 hstmt
  have hgroup : Stmt.areComplete (group i) = true := rfl
  exact Stmt.areComplete_iff.1 hgroup stmt hstmt

theorem declared_groups {size : Nat} {known : Name × Expr} (h : known ∈ valuesOf size) :
    known.1 ∈ Stmt.declaredAll ((List.range size).flatMap group) := by
  obtain ⟨i, hi, hknown⟩ := mem_valuesOf.1 h
  refine List.mem_flatMap.2 ⟨.declareAs [known.1] (some known.2), ?_, List.mem_cons_self⟩
  refine List.mem_flatMap.2 ⟨i, List.mem_range.2 hi, ?_⟩
  rw [group_eq]
  exact List.mem_append_left _ (List.mem_map_of_mem hknown)

end Family

/-! ### Runs -/

namespace Analysis

open Family Knowledge

variable {σ : Type} {hook : Hook σ}

/-- What holds behind the first groups: exactly their values and their facts are known, and the hook
was called once at each of their stores, where the facts of the groups in front were known. -/
structure BehindGroups (size : Nat) (s : State (σ × Hook.Log)) : Prop where
  coherent : s.knowledge.Coherent BuiltinTable.evm.toDialect
  knows : s.knowledge.KnowsExactly (valuesOf size) (factsOf size)
  shown : ∀ k < size, ∃ view : View,
    s.hook.2.filter (fun call => call.2 = groupStore k) = [(view, groupStore k)] ∧
      view.knowledge.KnowsExactly (valuesOf (k + 1)) (factsOf k)
  pending : ∀ k, size ≤ k → s.hook.2.filter (fun call => call.2 = groupStore k) = []

theorem BehindGroups.start {s : State (σ × Hook.Log)} (hknowledge : s.knowledge = ∅)
    (hlog : s.hook.2 = []) : BehindGroups 0 s where
  coherent := hknowledge ▸ coherent_empty
  knows := hknowledge ▸ knowsExactly_empty
  shown _ hk := absurd hk (Nat.not_lt_zero _)
  pending _ _ := by rw [hlog, List.filter_nil]

/-- No call in the declarations of a group is one at a store. -/
theorem filter_groupValues {calls : Hook.Log} {i : Nat}
    (hnodes : calls.map Prod.snd = (groupValues i).flatMap fun known => known.2.nodes) (j : Nat) :
    calls.filter (fun call => call.2 = groupStore j) = [] := by
  rw [List.filter_eq_nil_iff]
  intro call hcall hstore
  refine groupStore_not_mem_nodes i j (hnodes ▸ ?_)
  exact of_decide_eq_true hstore ▸ List.mem_map_of_mem hcall

/-- At a store, the hook is called once for it and for each of its variables. -/
theorem filter_groupStore (view : View) (i j : Nat) :
    ((groupStore i).nodes.map (view, ·)).filter (fun call => call.2 = groupStore j) =
      if i = j then [(view, groupStore j)] else [] := by
  have hleaf (name : Name) : Expr.ofName name ≠ groupStore j := nofun
  have hnodes : (groupStore i).nodes =
      [.ofName ("s" ++ toString i), .ofName ("v" ++ toString i), groupStore i] := nodes_callOn _ _
  rw [hnodes]
  by_cases hij : i = j
  · simp [hleaf, hij]
  · simp [hleaf, groupStore_inj, hij]

/-- The slot of a group is proved different from those of the groups in front of it. -/
theorem provablyDifferent_of_fact {s : State (σ × Hook.Log)} {size : Nat}
    {stored : List (Name × Name)} (h : s.knowledge.KnowsExactly (valuesOf (size + 1)) stored)
    (hsize : size < numericLimit) : ∀ fact ∈ factsOf size,
      (Context.native.simplifier s.knowledge).provablyDifferent fact.1 (groupFact size).1 =
        .ok true := by
  intro fact hfact
  obtain ⟨i, hi, rfl⟩ := List.mem_map.1 hfact
  have hi : i < size := List.mem_range.1 hi
  have hlimits : 1 ≤ ({} : Limits).rewrites ∧ 1 ≤ ({} : Limits).depth := by decide
  have hslot (j : Nat) (hj : j < size + 1) :
      s.knowledge.value? ("s" ++ toString j) = some (.number j) :=
    h.value?_iff.2 (slot_mem_valuesOf hj)
  exact Simplifier.provablyDifferent_of_numbers rfl hlimits (hslot i (Nat.lt_succ_of_lt hi))
    (hslot size (Nat.lt_succ_self size)) (hi.trans hsize) hsize hi.ne

section

variable (hobserves : hook.Observes) (htotal : hook.Total)

include hobserves htotal

/-- One more group. -/
theorem BehindGroups.group {size : Nat} {s : State (σ × Hook.Log)} (h : BehindGroups size s)
    (hsize : size < numericLimit) :
    BehindGroups (size + 1) (analyseStmts .native hook.recorded (Family.group size) s).state := by
  let declarations : List Stmt :=
    (groupValues size).map fun known => .declareAs [known.1] (some known.2)
  let front := (analyseStmts .native hook.recorded declarations s).state
  let behind := (analyseStmt .native hook.recorded (.eval (groupStore size)) front).state
  have hbehind : (analyseStmts .native hook.recorded (Family.group size) s).state = behind := by
    have hdone : (analyseStmts .native hook.recorded declarations s).error? = none :=
      error?_analyseStmts htotal.recorded Context.rules_native declarations s
    have hstore : (analyseStmt .native hook.recorded (.eval (groupStore size)) front).error? =
        none := error?_analyseStmt htotal.recorded Context.rules_native _ front
    rw [group_eq, state_analyseStmts_append _ hdone, state_analyseStmts_cons _ hstore]
    rfl
  obtain ⟨hknowledge, calls, hcalls, hnodes⟩ :=
    state_declarations hobserves htotal Context.rules_native (groupValues_quiet size) s
  obtain ⟨hknows, hcoherent⟩ := h.knows.assignAll h.coherent (aboutKnown_factsOf size)
    (valuesOf_succ size ▸ ordered_valuesOf (size + 1)) (learns_groupValues size)
  rw [← hknowledge, ← valuesOf_succ] at hknows
  rw [← hknowledge] at hcoherent
  have htracked : Context.native.trackedStore? (groupStore size) = some (groupFact size) :=
    Context.trackedStore?_native _ _
  obtain ⟨hstore, hlog⟩ := state_trackedStore hobserves htotal Context.rules_native htracked front
  have hfilter (k : Nat) : behind.hook.2.filter (fun call => call.2 = groupStore k) =
      s.hook.2.filter (fun call => call.2 = groupStore k) ++
        if size = k then [(front.view .native, groupStore k)] else [] := by
    have hlog : behind.hook.2 = s.hook.2 ++ calls ++
        (groupStore size).nodes.map (front.view .native, ·) :=
      hlog.trans (congrArg (· ++ _) hcalls)
    rw [hlog, List.filter_append, List.filter_append, filter_groupStore,
      filter_groupValues hnodes, List.append_nil]
  rw [hbehind]
  refine ⟨hcoherent.store hstore, ?_, fun k hk => ?_, fun k hk => ?_⟩
  · rw [factsOf_succ]
    exact hknows.store hstore (provablyDifferent_of_fact hknows hsize)
  · rw [hfilter]
    rcases Nat.lt_succ_iff_lt_or_eq.1 hk with hk | rfl
    · obtain ⟨view, hview, hshown⟩ := h.shown k hk
      exact ⟨view, by rw [hview, if_neg hk.ne', List.append_nil], hshown⟩
    · exact ⟨front.view .native, by rw [h.pending k le_rfl, if_pos rfl, List.nil_append], hknows⟩
  · rw [hfilter, h.pending k (Nat.le_of_succ_le hk), if_neg (Nat.ne_of_lt hk), List.append_nil]

/-- Any number of groups. -/
theorem behindGroups {size : Nat} {s : State (σ × Hook.Log)} (h : BehindGroups 0 s)
    (hsize : size ≤ numericLimit) :
    BehindGroups size (analyseStmts .native hook.recorded
      ((List.range size).flatMap Family.group) s).state := by
  induction size with
  | zero => exact h
  | succ size ih =>
      have hdone : (analyseStmts .native hook.recorded
          ((List.range size).flatMap Family.group) s).error? = none :=
        (error?_analyseStmts htotal.recorded Context.rules_native _ s).trans
          (firstFault?_of_areComplete _ (areComplete_groups size))
      rw [List.range_succ, List.flatMap_append, List.flatMap_singleton,
        state_analyseStmts_append _ hdone]
      exact (ih (Nat.le_of_succ_le hsize)).group hobserves htotal hsize

/-- Straight-line code of any number of groups is analysed without loss. The analysis comes to its
end. At the store of each group, the hook is called once. It is shown exactly the values that this
group and those in front of it declared, and exactly what those in front of it stored, as their
slots are proved different. Behind the run, nothing is known any more. -/
theorem straightLine_precise (start : σ) {size : Nat} (hsize : size ≤ numericLimit) :
    let step := run .native hook (straightLine size) (.initial start)
    let calls := runCalls .native hook (straightLine size) (.initial start)
    step.error? = none ∧
      (∀ k < size, ∃ view : View,
        calls.filter (fun call => call.2 = groupStore k) = [(view, groupStore k)] ∧
          view.knowledge.KnowsExactly ((List.range (k + 1)).flatMap groupValues)
            ((List.range k).map groupFact)) ∧
      step.state.knowledge.KnowsExactly [] [] := by
  intro step calls
  let before : State (σ × Hook.Log) := (State.initial start).withHook (start, [])
  let inner := analyseStmts .native hook.recorded ((List.range size).flatMap Family.group)
    (before.openScope false)
  have hdone : (analyseBlock .native hook.recorded (straightLine size) before).error? = none :=
    analyseBlock_ok htotal.recorded Context.rules_native _ _ (areComplete_groups size)
  have hrun : run .native hook.recorded (straightLine size) before =
      analyseBlock .native hook.recorded (straightLine size) before := run_ok coherent_empty hdone
  have hstep : step = (analyseBlock .native hook.recorded (straightLine size) before).mapState
      (·.inside Prod.fst []) := (run_recorded _ _ _).trans (congrArg (Step.mapState · _) hrun)
  obtain ⟨_, hblock, names, hnames, hcleared⟩ := analyseBlock_mk hdone
  have hbehind : BehindGroups size inner.state :=
    behindGroups hobserves htotal (.start rfl rfl) hsize
  refine ⟨?_, ?_, ?_⟩
  · rw [hstep]
    exact hdone
  · have hcalls : calls = inner.state.hook.2 := by
      show (run .native hook.recorded (straightLine size) before).state.hook.2 = _
      rw [hrun, straightLine, Block.ofStatements, hblock, Step.state_done, hook_closeScope]
    rw [hcalls]
    exact hbehind.shown
  · have hknowledge : step.state.knowledge = inner.state.knowledge.clear names := by
      rw [hstep, straightLine, Block.ofStatements, hblock]
      exact hcleared
    rw [hknowledge]
    exact hbehind.knows.clear hbehind.coherent (aboutKnown_factsOf size) fun known hknown =>
      (hnames known.1).2 (declared_groups hknown)

end

/-- Two groups, watched by the hook that changes nothing. -/
theorem straightLine_precise_two :
    let calls := runCalls .native (.idle : Hook Unit) (straightLine 2) (.initial ())
    ∃ view : View, calls.filter (fun call => call.2 = groupStore 1) = [(view, groupStore 1)] ∧
      view.knowledge.storedAt? "s0" = some "v0" ∧ view.knowledge.storedAt? "s1" = none ∧
        view.knowledge.value? "c1" = some (callOn "add" ["v1", "s1"]) := by
  have hidle : (Hook.idle : Hook Unit).Observes := fun _ _ _ => rfl
  have htotal : (Hook.idle : Hook Unit).Total := fun _ _ _ => rfl
  have hsize : 2 ≤ numericLimit := by decide
  obtain ⟨_, hshown, _⟩ := straightLine_precise hidle htotal () hsize
  obtain ⟨view, hview, hknows⟩ := hshown 1 (by decide)
  refine ⟨view, hview, hknows.storedAt?_iff.2 (by decide), ?_, hknows.value?_iff.2 (by decide)⟩
  refine Option.eq_none_iff_forall_ne_some.2 fun value hvalue => ?_
  have hslot : "s1" ∈ ((List.range 1).map groupFact).map Prod.fst :=
    List.mem_map_of_mem (hknows.storedAt?_iff.1 hvalue)
  revert hslot
  decide

end Analysis

end StorageFlow
