import StorageFlow.Proofs.Analysis.StorageTransfer
import StorageFlow.Proofs.Analysis.Stores
import StorageFlow.Proofs.Rewriting.Strength

/-!
# StorageFlow.Proofs.Analysis.Straight

Declarations and stores one after another, without branches.

* `Knowledge.KnowsExactly` — the known values and the facts about storage, as lists.
* `KnowsExactly.assignAll`, `KnowsExactly.store`, `KnowsExactly.clear` — declarations of variables
  that are not mentioned before, stores at slots that are proved different, and the end of a scope.
* `Simplifier.provablyDifferent_of_numbers` — variables that are known to hold different numbers are
  proved different.
* `Analysis.log_analyseExpr` — what a hook is shown in an expression.
* `Analysis.state_declarations`, `Analysis.state_trackedStore` — what is known behind statements,
  and the calls of the hook in them.
-/

namespace StorageFlow

/-! ### Exact knowledge -/

namespace Knowledge

variable {dialect : Dialect} {k k' : Knowledge} {values : List (Name × Expr)}
variable {stored : List (Name × Name)} {x : Name} {e : Expr}

/-- The known values and the facts about storage are those of the lists, and no others. -/
structure KnowsExactly (k : Knowledge) (values : List (Name × Expr)) (stored : List (Name × Name)) :
    Prop where
  value?_iff : ∀ {x e}, k.value? x = some e ↔ (x, e) ∈ values
  storedAt?_iff : ∀ {slot value}, k.storedAt? slot = some value ↔ (slot, value) ∈ stored

theorem knowsExactly_empty : KnowsExactly ∅ [] [] where
  value?_iff := by simp
  storedAt?_iff := by simp

/-- No variable is mentioned in front of its own value. -/
def Ordered (values : List (Name × Expr)) : Prop :=
  values.Pairwise fun known next => Untouched [next.1] known.1 known.2

/-- The facts about storage are about variables whose values are known. -/
def AboutKnown (values : List (Name × Expr)) (stored : List (Name × Name)) : Prop :=
  ∀ fact ∈ stored, fact.1 ∈ values.map Prod.fst ∧ fact.2 ∈ values.map Prod.fst

namespace KnowsExactly

variable (h : k.KnowsExactly values stored) (hcoherent : k.Coherent dialect)

include h hcoherent

/-- A known variable whose value does not mention another one is not affected by its clearing. -/
theorem not_affected (hfresh : ∀ known ∈ values, Untouched [x] known.1 known.2) {y : Name}
    (hy : y ∈ values.map Prod.fst) : ¬ k.Affected [x] y := by
  obtain ⟨known, hknown, rfl⟩ := List.mem_map.1 hy
  have hvalue : k.value? known.1 = some known.2 := h.value?_iff.2 hknown
  have hcleared : (k.clear [x]).value? known.1 = some known.2 :=
    hcoherent.value?_clear_iff.2 ⟨hvalue, hfresh known hknown⟩
  exact (hcoherent.value?_clear_eq_some.1 hcleared).2

/-- The assignment of a value to a variable that nothing known mentions adds to what is known. -/
theorem assign (hstored : AboutKnown values stored)
    (hfresh : ∀ known ∈ values, Untouched [x] known.1 known.2) (hlearns : Learns dialect [x] e x) :
    (k.assign dialect [x] e).KnowsExactly (values ++ [(x, e)]) stored where
  value?_iff := by
    intro y e'
    rw [List.mem_append, List.mem_singleton, Prod.mk.injEq]
    by_cases hy : y = x
    · subst hy
      have hnew : (y, e') ∉ values := fun hmem =>
        (hfresh _ hmem).1 (List.mem_singleton_self y)
      simp [value?_assign_eq_some, hlearns, hnew]
    · rw [hcoherent.value?_assign_iff (mt List.mem_singleton.1 hy), h.value?_iff]
      simp only [hy, false_and, or_false]
      exact and_iff_left_of_imp (hfresh _)
  storedAt?_iff := by
    intro slot value
    rw [storedAt?, storage_assign, ← storedAt?, hcoherent.storedAt?_clear_eq_some,
      h.storedAt?_iff]
    refine and_iff_left_of_imp fun hfact => ?_
    obtain ⟨hslot, hvalue⟩ := hstored _ hfact
    exact ⟨h.not_affected hcoherent hfresh hslot, h.not_affected hcoherent hfresh hvalue⟩

/-- Assignments to variables that nothing mentions before them add to what is known. -/
theorem assignAll {declared : List (Name × Expr)} (hstored : AboutKnown values stored)
    (hordered : Ordered (values ++ declared))
    (hlearns : ∀ known ∈ declared, Learns dialect [known.1] known.2 known.1) :
    let k' := declared.foldl (fun k known => k.assign dialect [known.1] known.2) k
    k'.KnowsExactly (values ++ declared) stored ∧ k'.Coherent dialect := by
  induction declared generalizing values k with
  | nil =>
      rw [List.append_nil]
      exact ⟨h, hcoherent⟩
  | cons first declared ih =>
      have hfresh : ∀ known ∈ values, Untouched [first.1] known.1 known.2 := fun known hknown =>
        (List.pairwise_append.1 hordered).2.2 known hknown first List.mem_cons_self
      have hfirst := h.assign hcoherent hstored hfresh (hlearns first List.mem_cons_self)
      rw [List.append_cons] at hordered ⊢
      refine ih hfirst (hcoherent.assign _ _) ?_ hordered
        fun known hknown => hlearns known (List.mem_cons_of_mem _ hknown)
      intro fact hfact
      rw [List.map_append]
      exact (hstored fact hfact).imp (List.mem_append_left _) (List.mem_append_left _)

/-- If all known variables are cleared, nothing is known any more. -/
theorem clear {names : List Name} (hstored : AboutKnown values stored)
    (hnames : ∀ known ∈ values, known.1 ∈ names) : (k.clear names).KnowsExactly [] [] where
  value?_iff := by
    intro x e
    refine iff_of_false (fun hx => ?_) List.not_mem_nil
    obtain ⟨hvalue, hmem⟩ := value?_of_clear hx
    exact hmem (hnames _ (h.value?_iff.1 hvalue))
  storedAt?_iff := by
    intro slot value
    refine iff_of_false (fun hfact => ?_) List.not_mem_nil
    obtain ⟨hfact, hslot, _⟩ := hcoherent.storedAt?_clear_eq_some.1 hfact
    obtain ⟨known, hknown, (rfl : known.1 = slot)⟩ :=
      List.mem_map.1 (hstored _ (h.storedAt?_iff.1 hfact)).1
    exact hslot (.of_mem (hnames known hknown))

end KnowsExactly

/-- A store at a slot that is different from all slots known keeps what is known about them. -/
theorem KnowsExactly.store (h : k.KnowsExactly values stored) {prover : Simplifier}
    {slot value : Name} (hk' : k.store prover slot value = .ok k')
    (hdifferent : ∀ fact ∈ stored, prover.provablyDifferent fact.1 slot = .ok true) :
    k'.KnowsExactly values (stored ++ [(slot, value)]) where
  value?_iff := by
    intro x e
    rw [value?_store hk', h.value?_iff]
  storedAt?_iff := by
    intro t u
    rw [storedAt?_store_iff hk', h.storedAt?_iff, List.mem_append, List.mem_singleton,
      Prod.mk.injEq, or_comm]
    refine or_congr_left ⟨fun hold => hold.2.1, fun hfact => ?_⟩
    have hproved : prover.provablyDifferent t slot = .ok true := hdifferent _ hfact
    refine ⟨?_, hfact, .inl hproved⟩
    rintro rfl
    simp [Simplifier.provablyDifferent] at hproved

end Knowledge

/-! ### Slots with known numbers -/

namespace Simplifier

variable {s : Simplifier}

theorem leafOf_of_literal {x : Name} {value : Literal} (h : s.known[x]? = some (.literal value))
    (hdepth : 1 ≤ s.limits.depth) : s.leafOf x = .literal value := by
  have hleaf : s.knownLeaf? x = some (.literal value) := by rw [knownLeaf?, h]
  exact Chain.leafOf_eq (.step (x := .ofName x) hleaf (.literal value)) hdepth

/-- Variables that are known to hold different numbers are proved different. -/
theorem provablyDifferent_of_numbers (hrules : s.rules = .standard)
    (hlimits : 1 ≤ s.limits.rewrites ∧ 1 ≤ s.limits.depth) {a b : Name} {m n : Nat}
    (ha : s.known[a]? = some (.number m)) (hb : s.known[b]? = some (.number n))
    (hm : m < numericLimit) (hn : n < numericLimit) (hne : m ≠ n) :
    s.provablyDifferent a b = .ok true := by
  have hleaves : DifferentNumbers (s.leafOf a) (s.leafOf b) := by
    rw [leafOf_of_literal ha hlimits.2, leafOf_of_literal hb hlimits.2]
    exact ⟨m, n, Literal.toNat?_number hm, Literal.toNat?_number hn, hne⟩
  refine (provablyDifferent_iff hrules a b).2 ⟨?_, hlimits.1, .inl hleaves⟩
  rintro rfl
  obtain ⟨_, _, hm', hn', hne'⟩ := hleaves
  exact hne' (Option.some.inj (hm'.symm.trans hn'))

end Simplifier

/-! ### What a hook is shown in an expression -/

theorem Hook.Total.recorded {σ : Type} {hook : Hook σ} (h : hook.Total) : hook.recorded.Total :=
  fun view e state => h view e state.1

namespace Analysis

variable {σ : Type} {context : Context} {hook : Hook σ}

theorem view_analyseExprs (es : List Expr) (s : State σ) :
    (analyseExprs context hook es s).state.view context = s.view context := by
  simp only [State.view, knowledge_analyseExprs, scopes_analyseExprs]

theorem view_analyseExpr (e : Expr) (s : State σ) :
    (analyseExpr context hook e s).state.view context = s.view context := by
  simp only [State.view, knowledge_analyseExpr, scopes_analyseExpr]

theorem log_operation (hobserves : hook.Observes) (htotal : hook.Total) {e : Expr}
    {op : Operation} (hroot : e.root? = some op) (s : State (σ × Hook.Log))
    (harguments : (analyseExprs context hook.recorded e.arguments s).state.hook.2 =
      s.hook.2 ++ (Expr.nodesAll e.arguments).map (s.view context, ·)) :
    (analyseExpr context hook.recorded e s).state.hook.2 =
      s.hook.2 ++ e.nodes.map (s.view context, ·) := by
  obtain ⟨hdone, heq⟩ := analyseExpr_operation hroot (analyseExpr_ok htotal.recorded e s)
  rw [heq, node_analyseExprs hobserves.recorded _ hdone, Expr.withArguments_arguments,
    Expr.nodes_eq, List.map_append, ← List.append_assoc, ← harguments, ← view_analyseExprs]
  rfl

mutual

/-- A hook that observes is shown the same at each node of an expression. -/
theorem log_analyseExpr (hobserves : hook.Observes) (htotal : hook.Total) :
    ∀ (e : Expr) (s : State (σ × Hook.Log)),
      (analyseExpr context hook.recorded e s).state.hook.2 =
        s.hook.2 ++ e.nodes.map (s.view context, ·)
  | .literal _, _ => rfl
  | .identifier _, _ => rfl
  | .call _ arguments _, s =>
      log_operation hobserves htotal rfl s (log_analyseExprs hobserves htotal arguments s)
  | .instruction _ arguments _, s =>
      log_operation hobserves htotal rfl s (log_analyseExprs hobserves htotal arguments s)

theorem log_analyseExprs (hobserves : hook.Observes) (htotal : hook.Total) :
    ∀ (es : List Expr) (s : State (σ × Hook.Log)),
      (analyseExprs context hook.recorded es s).state.hook.2 =
        s.hook.2 ++ (Expr.nodesAll es).map (s.view context, ·)
  | [], s => (List.append_nil s.hook.2).symm
  | e :: es, s => by
      obtain ⟨_, _, heq⟩ := analyseExprs_cons (analyseExprs_ok htotal.recorded (e :: es) s)
      rw [heq, Step.state_done, log_analyseExprs hobserves htotal es,
        log_analyseExpr hobserves htotal e, view_analyseExpr, Expr.nodesAll, List.map_append,
        List.append_assoc]

end

/-! ### Statements one after another -/

theorem state_analyseStmts_cons {stmt : Stmt} (stmts : List Stmt) {s : State σ}
    (h : (analyseStmt context hook stmt s).error? = none) :
    (analyseStmts context hook (stmt :: stmts) s).state =
      (analyseStmts context hook stmts (analyseStmt context hook stmt s).state).state := by
  rw [analyseStmts, Step.andThen, h]
  rfl

/-- Statements in two parts are analysed one part after the other. -/
theorem state_analyseStmts_append {stmts : List Stmt} (more : List Stmt) {s : State σ}
    (h : (analyseStmts context hook stmts s).error? = none) :
    (analyseStmts context hook (stmts ++ more) s).state =
      (analyseStmts context hook more (analyseStmts context hook stmts s).state).state := by
  induction stmts generalizing s with
  | nil => rfl
  | cons stmt stmts ih =>
      obtain ⟨hfirst, hrest, _⟩ := analyseStmts_cons h
      rw [List.cons_append, state_analyseStmts_cons _ hfirst, state_analyseStmts_cons _ hfirst,
        ih hrest]

section Straight

variable (hobserves : hook.Observes) (htotal : hook.Total)
variable (hrules : ∀ rule ∈ context.rules, rule ∈ RuleTable.standard)

include hobserves htotal hrules

/-- The declaration of a variable with a value that changes no storage. -/
theorem state_declareAs (name : Name) {e : Expr}
    (hquiet : ¬ context.dialect.Changes e.operations) (s : State (σ × Hook.Log)) :
    let behind := (analyseStmt context hook.recorded (.declareAs [name] (some e)) s).state
    behind.knowledge = s.knowledge.assign context.dialect [name] e ∧
      behind.hook.2 = s.hook.2 ++ e.nodes.map ((s.declare [name]).view context, ·) := by
  have hdone : (analyseStmt context hook.recorded (.declareAs [name] (some e)) s).error? = none :=
    error?_analyseStmt htotal.recorded hrules (.declareAs [name] (some e)) s
  let value := analyseExpr context hook.recorded e (s.declare [name])
  have hevaluate : evaluate context hook.recorded e (s.declare [name]) = value :=
    evaluate_of_not_changes hquiet _
  obtain ⟨hvalue, heq⟩ : value.error? = none ∧
      analyseStmt context hook.recorded (.declareAs [name] (some e)) s =
        .done (.declareAs [name] (some value.node))
          (value.state.assign context [name] value.node) := by
    rw [← hevaluate]
    exact analyseStmt_declare hdone
  have hnode : value.node = e := node_analyseExpr hobserves.recorded e hvalue
  rw [heq, hnode]
  refine ⟨?_, ?_⟩
  · show value.state.knowledge.assign context.dialect [name] e = _
    rw [knowledge_analyseExpr, knowledge_declare]
  · rw [← hook_declare [name] s]
    exact log_analyseExpr hobserves htotal e _

/-- Declarations with values that change no storage. -/
theorem state_declarations {declared : List (Name × Expr)}
    (hquiet : ∀ known ∈ declared, ¬ context.dialect.Changes known.2.operations)
    (s : State (σ × Hook.Log)) :
    let behind := (analyseStmts context hook.recorded
      (declared.map fun known => .declareAs [known.1] (some known.2)) s).state
    behind.knowledge = declared.foldl
        (fun k known => k.assign context.dialect [known.1] known.2) s.knowledge ∧
      ∃ calls, behind.hook.2 = s.hook.2 ++ calls ∧
        calls.map Prod.snd = declared.flatMap fun known => known.2.nodes := by
  induction declared generalizing s with
  | nil => exact ⟨rfl, [], (List.append_nil _).symm, rfl⟩
  | cons first declared ih =>
      let stmt := Stmt.declareAs [first.1] (some first.2)
      have hdone : (analyseStmt context hook.recorded stmt s).error? = none :=
        error?_analyseStmt htotal.recorded hrules stmt s
      obtain ⟨hknowledge, hlog⟩ := state_declareAs hobserves htotal hrules first.1
        (hquiet first List.mem_cons_self) s
      obtain ⟨hrest, calls, hcalls, hnodes⟩ :=
        ih (fun known hknown => hquiet known (List.mem_cons_of_mem _ hknown))
          (analyseStmt context hook.recorded stmt s).state
      rw [List.map_cons, state_analyseStmts_cons _ hdone]
      refine ⟨?_, first.2.nodes.map ((s.declare [first.1]).view context, ·) ++ calls, ?_, ?_⟩
      · rw [hrest, hknowledge, List.foldl_cons]
      · rw [hcalls, hlog, List.append_assoc]
      · rw [List.map_append, hnodes, List.map_map, List.flatMap_cons]
        exact congrArg (· ++ _) (List.map_id _)

/-- A tracked store. -/
theorem state_trackedStore {e : Expr} {slot value : Name}
    (htracked : context.trackedStore? e = some (slot, value)) (s : State (σ × Hook.Log)) :
    let behind := (analyseStmt context hook.recorded (.eval e) s).state
    s.knowledge.store (context.simplifier s.knowledge) slot value = .ok behind.knowledge ∧
      behind.hook.2 = s.hook.2 ++ e.nodes.map (s.view context, ·) := by
  have hdone : (analyseStmt context hook.recorded (.eval e) s).error? = none :=
    error?_analyseStmt htotal.recorded hrules (.eval e) s
  obtain ⟨_, k, hk, heq⟩ := analyseStmt_trackedStore htracked hdone
  rw [Stmt.eval, heq]
  exact ⟨hk, log_analyseExpr hobserves htotal e s⟩

end Straight

end Analysis

end StorageFlow
