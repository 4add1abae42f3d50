import Mathlib.Order.WellFounded
import StorageFlow.Proofs.Knowledge.Facts

/-!
# StorageFlow.Proofs.Knowledge.Grounded

The known values of variables read each other without a cycle.

* `Knowledge.Reads`, `Knowledge.Copies` — the value of one variable reads, or is, another variable.
* `Knowledge.Grounded` — following the variables that values read comes to an end.
* `Grounded.clear`, `Grounded.assign`, … — every change of the knowledge keeps it so. An assignment
  drops the values that read the assigned variables, so that nothing leads to the new value.
* `Grounded.not_transGen_reads`, `Grounded.exists_end` — then there is no cycle, and every chain of
  copies ends.
-/

namespace StorageFlow.Knowledge

variable {dialect : Dialect} {k k' : Knowledge} {names : List Name}

/-- The known value of one variable reads the other. -/
def Reads (k : Knowledge) (x y : Name) : Prop :=
  ∃ e, k.value? x = some e ∧ y ∈ e.reads

/-- The known value of one variable is the other. -/
def Copies (k : Knowledge) (x y : Name) : Prop :=
  ∃ z, k.value? x = some (.identifier z) ∧ z.name = y

theorem Copies.reads {x y : Name} (h : k.Copies x y) : k.Reads x y := by
  obtain ⟨z, hx, rfl⟩ := h
  exact ⟨.identifier z, hx, List.mem_singleton_self _⟩

/-- Following the variables that known values read comes to an end. -/
def Grounded (k : Knowledge) : Prop :=
  WellFounded fun y x => k.Reads x y

namespace Grounded

theorem not_transGen_reads (h : k.Grounded) (x : Name) : ¬ Relation.TransGen k.Reads x x := by
  intro hcycle
  have hswap : Relation.TransGen (fun y x => k.Reads x y) x x := Relation.transGen_swap.2 hcycle
  exact h.transGen.irrefl.irrefl x hswap

/-- Every chain of copies ends with a variable that is not known to be another one. -/
theorem exists_end (h : k.Grounded) (x : Name) :
    ∃ y, Relation.ReflTransGen k.Copies x y ∧ ∀ z, ¬ k.Copies y z := by
  induction x using h.induction with
  | _ x ih =>
      by_cases hend : ∃ y, k.Copies x y
      · obtain ⟨y, hxy⟩ := hend
        obtain ⟨z, hyz, hz⟩ := ih y hxy.reads
        exact ⟨z, .head hxy hyz, hz⟩
      · exact ⟨x, .refl, fun z hz => hend ⟨z, hz⟩⟩

/-! ### Changes of the knowledge -/

theorem mono (h : k.Grounded) (hvalues : ∀ {x e}, k'.value? x = some e → k.value? x = some e) :
    k'.Grounded := by
  refine Subrelation.wf ?_ h
  rintro y x ⟨e, hx, hy⟩
  exact ⟨e, hvalues hx, hy⟩

/-- New values keep the knowledge grounded if no known value reads their variables. -/
theorem of_fresh (h : k.Grounded) (names : List Name)
    (hvalues : ∀ {x e}, k'.value? x = some e → x ∉ names → k.value? x = some e)
    (hfresh : ∀ {x y}, k'.Reads x y → y ∉ names) : k'.Grounded := by
  have hold : ∀ x, x ∉ names → Acc (fun y x => k'.Reads x y) x := by
    intro x
    induction x using h.induction with
    | _ x ih =>
        intro hx
        refine ⟨_, fun y hxy => ?_⟩
        obtain ⟨e, hvalue, hy⟩ := hxy
        exact ih y ⟨e, hvalues hvalue hx, hy⟩ (hfresh ⟨e, hvalue, hy⟩)
  -- a new value reads old variables only
  exact ⟨fun x => ⟨x, fun y hxy => hold y (hfresh hxy)⟩⟩

theorem empty : Grounded ∅ := by
  refine ⟨fun x => ⟨x, ?_⟩⟩
  rintro y ⟨e, hx, _⟩
  simp at hx

theorem clear (h : k.Grounded) (names : List Name) : (k.clear names).Grounded :=
  h.mono fun hx => (value?_of_clear hx).1

theorem assign (hcoherent : k.Coherent dialect) (h : k.Grounded) (names : List Name) (e : Expr) :
    (k.assign dialect names e).Grounded := by
  refine h.of_fresh names ?_ ?_
  · intro x e' hx hnames
    rcases value?_assign_eq_some.1 hx with ⟨⟨rfl, _⟩, _⟩ | ⟨_, hx⟩
    · exact absurd (List.mem_singleton_self x) hnames
    · exact (value?_of_clear hx).1
  · rintro x y ⟨e', hx, hy⟩
    rcases value?_assign_eq_some.1 hx with ⟨⟨rfl, _, hreads⟩, rfl⟩ | ⟨_, hx⟩
    · intro hmem
      obtain rfl := List.mem_singleton.1 hmem
      exact hreads hy
    · exact (hcoherent.not_mem_of_value?_clear hx).2 y hy

theorem assignZero (hcoherent : k.Coherent dialect) (h : k.Grounded) (names : List Name) :
    (k.assignZero names).Grounded := by
  refine h.of_fresh names ?_ ?_
  · intro x e hx hnames
    rw [value?_assignZero, if_neg hnames] at hx
    exact (value?_of_clear hx).1
  · rintro x y ⟨e, hx, hy⟩
    rw [value?_assignZero] at hx
    split at hx
    · cases hx
      cases hy
    · exact (hcoherent.not_mem_of_value?_clear hx).2 y hy

end Grounded

/-! ### Exact values -/

/-- What is recorded of the values of variables is exact: a value may be evaluated elsewhere, does
not read its own variable, and its sources are the variables that it reads. No chain of variables
that read each other is closed, and every chain of copies ends. -/
structure ValuesExact (dialect : Dialect) (k : Knowledge) : Prop where
  movable : ∀ {x e}, k.value? x = some e → (EffectSummary.ofExpr dialect e).movable = true
  irreflexive : ∀ {x e}, k.value? x = some e → x ∉ e.reads
  mem_sources : ∀ {x e}, k.value? x = some e → ∀ y, y ∈ (k.sources? x).getD ∅ ↔ y ∈ e.reads
  /-- A value that reads no variable has no entry of sources. -/
  sources_eq_none : ∀ {x e}, k.value? x = some e → (k.sources? x = none ↔ e.reads = [])
  acyclic : ∀ x, ¬ Relation.TransGen k.Reads x x
  chains_end : ∀ x, ∃ y, Relation.ReflTransGen k.Copies x y ∧ ∀ z, ¬ k.Copies y z

theorem Coherent.sources?_eq_none (h : k.Coherent dialect) {x : Name} {e : Expr}
    (hx : k.value? x = some e) : k.sources? x = none ↔ e.reads = [] := by
  rw [List.eq_nil_iff_forall_not_mem]
  constructor
  · intro hnone y hy
    have hlinked := (h.linked_iff hx y).2 hy
    rw [LinkIndex.Linked, LinkIndex.linked, ← sources?, hnone] at hlinked
    simp at hlinked
  · intro hreads
    cases hsources : k.sources? x with
    | none => rfl
    | some sources =>
        -- an entry is never empty, and each name in it is read by the value
        have hfilled := h.mirrored.sources_filled x sources hsources
        rw [Std.ExtTreeSet.isEmpty_eq_false_iff] at hfilled
        refine absurd (Std.ExtTreeSet.eq_empty_iff_forall_not_mem.2 fun y hy => ?_) hfilled
        refine hreads y ((h.linked_iff hx y).1 ?_)
        rw [LinkIndex.Linked, LinkIndex.linked, ← sources?, hsources]
        exact hy

theorem Coherent.valuesExact (h : k.Coherent dialect) (hgrounded : k.Grounded) :
    k.ValuesExact dialect where
  movable hx := by
    rw [EffectSummary.movable_ofExpr]
    exact h.movable hx
  irreflexive hx := h.irreflexive hx
  mem_sources hx y := h.linked_iff hx y
  sources_eq_none hx := h.sources?_eq_none hx
  acyclic := hgrounded.not_transGen_reads
  chains_end := hgrounded.exists_end

end StorageFlow.Knowledge
