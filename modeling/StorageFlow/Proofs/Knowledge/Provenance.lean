import StorageFlow.Knowledge.Provenance
import StorageFlow.Proofs.Knowledge.TwoWayMap

/-!
# StorageFlow.Proofs.Knowledge.Provenance

The edges of a provenance agree in both directions, and stay so.

* `Provenance.Mirrored` — a variable depends on a source exactly if the source lists it.
* `Provenance.linked_remove`, `linked_replace` — what the updates do to the sources.
* `Provenance.Mirrored.mem_dependentsOf` — the dependents are those that have a source in the list.
* `Provenance.Mirrored.check` — the executable test passes.
-/

namespace StorageFlow.Provenance

/-- Both directions hold the same edges, and no variable has an empty entry. -/
structure Mirrored (edges : Provenance) : Prop where
  linked_iff : ∀ name source,
    edges.sources.Linked name source ↔ edges.dependents.Linked source name
  sources_filled : edges.sources.Filled
  dependents_filled : edges.dependents.Filled

theorem mirrored_empty : Mirrored ∅ where
  linked_iff name source := iff_of_false (LinkIndex.not_linked_empty name source)
    (LinkIndex.not_linked_empty source name)
  sources_filled := LinkIndex.filled_empty
  dependents_filled := LinkIndex.filled_empty

/-! ### Sources after an update -/

theorem linked_remove {edges : Provenance} {name n s : Name} :
    (edges.remove name).sources.Linked n s ↔ n ≠ name ∧ edges.sources.Linked n s :=
  LinkIndex.linked_erase

theorem linked_addSources {edges : Provenance} {name n s : Name} {new : List Name} :
    (edges.addSources name new).sources.Linked n s ↔
      (n = name ∧ s ∈ new) ∨ edges.sources.Linked n s := by
  induction new generalizing edges with
  | nil => simp [addSources]
  | cons source new ih =>
      rw [addSources, List.foldl_cons, ← addSources, ih, addSource, LinkIndex.linked_link,
        List.mem_cons]
      grind

theorem linked_replace {edges : Provenance} {name n s : Name} {new : List Name} :
    (edges.replace name new).sources.Linked n s ↔
      if n = name then s ∈ new else edges.sources.Linked n s := by
  rw [replace, linked_addSources, linked_remove]
  by_cases h : n = name <;> simp [h]

/-! ### Both directions stay equal -/

theorem linked_foldl_unlink {index : LinkIndex Name} {name t s : Name} {targets : List Name} :
    (targets.foldl (LinkIndex.unlink · · name) index).Linked t s ↔
      index.Linked t s ∧ ¬ (t ∈ targets ∧ s = name) := by
  induction targets generalizing index with
  | nil => simp
  | cons target targets ih =>
      rw [List.foldl_cons, ih, LinkIndex.linked_unlink, List.mem_cons]
      grind

theorem filled_foldl_unlink {index : LinkIndex Name} (h : index.Filled) (name : Name)
    (targets : List Name) : (targets.foldl (LinkIndex.unlink · · name) index).Filled := by
  induction targets generalizing index with
  | nil => exact h
  | cons target targets ih => exact ih (h.unlink target name)

theorem Mirrored.remove {edges : Provenance} (h : edges.Mirrored) (name : Name) :
    (edges.remove name).Mirrored where
  linked_iff n s := by
    rw [linked_remove, h.linked_iff, Provenance.remove, linked_foldl_unlink,
      Std.ExtTreeSet.mem_toList]
    have hlinked : s ∈ edges.sources.linked name ↔ edges.dependents.Linked s name :=
      h.linked_iff name s
    rw [hlinked]
    constructor
    · rintro ⟨hn, hlink⟩
      exact ⟨hlink, fun hs => hn hs.2⟩
    · rintro ⟨hlink, hnot⟩
      exact ⟨fun hn => hnot ⟨hn ▸ hlink, hn⟩, hlink⟩
  sources_filled := h.sources_filled.erase name
  dependents_filled := filled_foldl_unlink h.dependents_filled name _

theorem Mirrored.addSource {edges : Provenance} (h : edges.Mirrored) (name source : Name) :
    (edges.addSource name source).Mirrored where
  linked_iff n s := by
    simp only [Provenance.addSource, LinkIndex.linked_link, h.linked_iff, and_comm]
  sources_filled := h.sources_filled.link name source
  dependents_filled := h.dependents_filled.link source name

theorem Mirrored.addSources {edges : Provenance} (h : edges.Mirrored) (name : Name)
    (new : List Name) : (edges.addSources name new).Mirrored := by
  induction new generalizing edges with
  | nil => exact h
  | cons source new ih => exact ih (h.addSource name source)

theorem Mirrored.replace {edges : Provenance} (h : edges.Mirrored) (name : Name)
    (new : List Name) : (edges.replace name new).Mirrored :=
  (h.remove name).addSources name new

theorem Mirrored.mem_dependentsOf {edges : Provenance} (h : edges.Mirrored) {names : List Name}
    {x : Name} : x ∈ edges.dependentsOf names ↔ ∃ name ∈ names, edges.sources.Linked x name := by
  simp only [dependentsOf, List.mem_flatMap, Std.ExtTreeSet.mem_toList, h.linked_iff]
  rfl

/-- The executable test passes on edges that agree in both directions. -/
theorem Mirrored.check {edges : Provenance} (h : edges.Mirrored) : edges.check = .ok () := by
  have hsources : edges.sources.unmatched? edges.dependents = none :=
    LinkIndex.unmatched?_eq_none fun name source => (h.linked_iff name source).1
  have hdependents : edges.dependents.unmatched? edges.sources = none :=
    LinkIndex.unmatched?_eq_none fun source name => (h.linked_iff name source).2
  rw [Provenance.check, hsources, hdependents]

end StorageFlow.Provenance
