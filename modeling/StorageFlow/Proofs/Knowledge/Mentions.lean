import StorageFlow.Proofs.Knowledge.Facts
import StorageFlow.Proofs.Knowledge.MapHistory

/-!
# StorageFlow.Proofs.Knowledge.Mentions

Which names occur in knowledge.

* `Knowledge.Mentions` — a name occurs in a known value, in the provenance or in a storage fact.
* `Coherent.of_mentions` — where the parts agree, one direction of the provenance is enough, and the
  variables of known values are found there too.
* `Coherent.of_mentions_clear`, `Coherent.of_mentions_assign`, `of_mentions_store`, … — the names
  that occur after a change of the knowledge.
* `Coherent.eq_empty` — knowledge that mentions no name is empty.
-/

namespace StorageFlow

/-- A name with an entry in a filled index is linked to some name. -/
theorem LinkIndex.Filled.exists_linked {index : LinkIndex Name} (h : index.Filled) {name : Name}
    {links : NameSet} (hentry : index[name]? = some links) :
    ∃ target, index.Linked name target := by
  have hne : links ≠ ∅ := Std.ExtTreeSet.isEmpty_eq_false_iff.1 (h name links hentry)
  rw [ne_eq, Std.ExtTreeSet.eq_empty_iff_forall_not_mem, Classical.not_forall_not] at hne
  obtain ⟨target, hmem⟩ := hne
  refine ⟨target, ?_⟩
  rw [Linked, linked, hentry]
  exact hmem

namespace Knowledge

variable {dialect : Dialect} {k k' : Knowledge} {x : Name} {names : List Name}

/-- The name occurs in the knowledge. -/
inductive Mentions (k : Knowledge) : Name → Prop
  | key {x : Name} {e : Expr} (known : k.value? x = some e) : Mentions k x
  | read {x y : Name} {e : Expr} (known : k.value? x = some e) (hy : y ∈ e.reads) : Mentions k y
  | sources {x : Name} {links : NameSet} (entry : k.provenance.sources[x]? = some links) :
      Mentions k x
  | source {x y : Name} (link : k.provenance.sources.Linked x y) : Mentions k y
  | dependents {y : Name} {links : NameSet} (entry : k.provenance.dependents[y]? = some links) :
      Mentions k y
  | dependent {x y : Name} (link : k.provenance.dependents.Linked y x) : Mentions k x
  | slot {slot value : Name} (fact : k.storedAt? slot = some value) : Mentions k slot
  | stored {slot value : Name} (fact : k.storedAt? slot = some value) : Mentions k value

theorem Coherent.of_mentions (h : k.Coherent dialect) (hx : k.Mentions x) :
    (∃ e, k.value? x = some e) ∨ (∃ y, k.provenance.sources.Linked x y) ∨
      (∃ y, k.provenance.sources.Linked y x) ∨ (∃ value, k.storedAt? x = some value) ∨
        ∃ slot, k.storedAt? slot = some x := by
  cases hx with
  | key known => exact .inl ⟨_, known⟩
  | read known hy => exact .inr (.inr (.inl ⟨_, (h.linked_iff known x).2 hy⟩))
  | sources entry => exact .inr (.inl (h.mirrored.sources_filled.exists_linked entry))
  | source link => exact .inr (.inr (.inl ⟨_, link⟩))
  | dependents entry =>
      obtain ⟨y, link⟩ := h.mirrored.dependents_filled.exists_linked entry
      exact .inr (.inr (.inl ⟨y, (h.mirrored.linked_iff y x).2 link⟩))
  | dependent link => exact .inr (.inl ⟨_, (h.mirrored.linked_iff x _).2 link⟩)
  | slot fact => exact .inr (.inr (.inr (.inl ⟨_, fact⟩)))
  | stored fact => exact .inr (.inr (.inr (.inr ⟨_, fact⟩)))

theorem Coherent.mentions_of_linked (h : k.Coherent dialect) {y : Name}
    (hlink : k.provenance.sources.Linked x y) : k.Mentions x :=
  .dependent ((h.mirrored.linked_iff x y).1 hlink)

theorem not_mentions_empty : ¬ Mentions ∅ x := by
  intro hx
  cases hx with
  | key known => cases known
  | read known _ => cases known
  | sources entry => cases entry
  | source link => cases link
  | dependents entry => cases entry
  | dependent link => cases link
  | slot fact => cases fact
  | stored fact => cases fact

/-! ### Variables -/

/-- Clearing removes each occurrence of the cleared variables. -/
theorem Coherent.of_mentions_clear (h : k.Coherent dialect) (hx : (k.clear names).Mentions x) :
    k.Mentions x ∧ x ∉ names := by
  rcases (h.clear names).of_mentions hx with ⟨e, hx⟩ | ⟨y, hx⟩ | ⟨y, hx⟩ | ⟨value, hx⟩ | ⟨slot, hx⟩
  · obtain ⟨known, hmem⟩ := value?_of_clear hx
    exact ⟨.key known, hmem⟩
  · obtain ⟨hlink, hnot⟩ := h.linked_clear.1 hx
    exact ⟨h.mentions_of_linked hlink, fun hmem => hnot (.of_mem hmem)⟩
  · -- what was computed from a cleared variable has lost its sources
    obtain ⟨hlink, hnot⟩ := h.linked_clear.1 hx
    exact ⟨.source hlink, fun hmem => hnot (.inr ⟨x, hmem, hlink⟩)⟩
  · obtain ⟨fact, hslot, _⟩ := h.storedAt?_clear_eq_some.1 hx
    exact ⟨.slot fact, fun hmem => hslot (.of_mem hmem)⟩
  · obtain ⟨fact, _, hvalue⟩ := h.storedAt?_clear_eq_some.1 hx
    exact ⟨.stored fact, fun hmem => hvalue (.of_mem hmem)⟩

/-- New edges mention the variables that they start and end at. -/
theorem Coherent.linked_clear_derive (h : k.Coherent dialect) {sources : List Name} {y : Name}
    (hlink : ((k.clear names).derive names sources).provenance.sources.Linked x y) :
    (k.Mentions x ∨ x ∈ names) ∧ (k.Mentions y ∨ y ∈ sources) := by
  rw [linked_derive] at hlink
  split at hlink
  next hmem => exact ⟨.inr hmem, .inr hlink⟩
  next =>
    have hlink := (h.linked_clear.1 hlink).1
    exact ⟨.inl (h.mentions_of_linked hlink), .inl (.source hlink)⟩

theorem Coherent.of_mentions_assign (h : k.Coherent dialect) {e : Expr}
    (hx : (k.assign dialect names e).Mentions x) : k.Mentions x ∨ x ∈ names ∨ x ∈ e.reads := by
  have hlinked : ∀ {x y}, (k.assign dialect names e).provenance.sources.Linked x y →
      (k.Mentions x ∨ x ∈ names) ∧ (k.Mentions y ∨ y ∈ e.reads) := by
    intro x y hlink
    rw [provenance_assign] at hlink
    rw [← EffectSummary.mem_reads_ofExpr]
    exact h.linked_clear_derive hlink
  have hstored : ∀ {s v}, (k.assign dialect names e).storedAt? s = some v →
      k.storedAt? s = some v := by
    intro s v hfact
    rw [storedAt?, storage_assign] at hfact
    exact storedAt?_of_clear hfact
  rcases (h.assign names e).of_mentions hx with ⟨e', hx⟩ | ⟨y, hx⟩ | ⟨y, hx⟩ | ⟨_, hx⟩ | ⟨_, hx⟩
  · rcases value?_assign_eq_some.1 hx with ⟨⟨rfl, _⟩, _⟩ | ⟨_, hx⟩
    · exact .inr (.inl (List.mem_singleton_self x))
    · exact .inl (.key (value?_of_clear hx).1)
  · exact (hlinked hx).1.imp_right .inl
  · exact (hlinked hx).2.imp_right .inr
  · exact .inl (.slot (hstored hx))
  · exact .inl (.stored (hstored hx))

theorem Coherent.of_mentions_assignZero (h : k.Coherent dialect)
    (hx : (k.assignZero names).Mentions x) : k.Mentions x ∨ x ∈ names := by
  have hlinked : ∀ {x y}, (k.assignZero names).provenance.sources.Linked x y →
      (k.Mentions x ∨ x ∈ names) ∧ k.Mentions y := by
    intro x y hlink
    rw [Knowledge.assignZero, derive, provenance_foldl_learn] at hlink
    obtain ⟨hx, hy⟩ := h.linked_clear_derive hlink
    exact ⟨hx, hy.resolve_right List.not_mem_nil⟩
  have hstored : ∀ {s v}, (k.assignZero names).storedAt? s = some v → k.storedAt? s = some v := by
    intro s v hfact
    rw [storedAt?, storage_assignZero] at hfact
    exact storedAt?_of_clear hfact
  rcases (h.assignZero names).of_mentions hx with ⟨e, hx⟩ | ⟨y, hx⟩ | ⟨y, hx⟩ | ⟨_, hx⟩ | ⟨_, hx⟩
  · rw [value?_assignZero] at hx
    split at hx
    next hmem => exact .inr hmem
    next => exact .inl (.key (value?_of_clear hx).1)
  · exact (hlinked hx).1
  · exact .inl (hlinked hx).2
  · exact .inl (.slot (hstored hx))
  · exact .inl (.stored (hstored hx))

/-! ### Storage -/

/-- Other facts about storage bring in no names but their own. -/
theorem of_mentions_withStorage {storage : TwoWayMap Name}
    (hx : Mentions { k with storage } x) :
    k.Mentions x ∨ ∃ slot value, storage.get? slot = some value ∧ (x = slot ∨ x = value) := by
  cases hx with
  | key known => exact .inl (.key known)
  | read known hy => exact .inl (.read known hy)
  | sources entry => exact .inl (.sources entry)
  | source link => exact .inl (.source link)
  | dependents entry => exact .inl (.dependents entry)
  | dependent link => exact .inl (.dependent link)
  | slot fact => exact .inr ⟨_, _, fact, .inl rfl⟩
  | stored fact => exact .inr ⟨_, _, fact, .inr rfl⟩

theorem of_mentions_joinStorage {before : TwoWayMap Name} (hx : (k.joinStorage before).Mentions x) :
    k.Mentions x := by
  rcases of_mentions_withStorage hx with hx | ⟨slot, value, fact, hx⟩
  · exact hx
  · have fact := (storedAt?_joinStorage_eq_some.1 fact).1
    rcases hx with rfl | rfl
    · exact .slot fact
    · exact .stored fact

theorem of_mentions_forgetStorage (hx : k.forgetStorage.Mentions x) : k.Mentions x := by
  rcases of_mentions_withStorage hx with hx | ⟨slot, value, fact, _⟩
  · exact hx
  · rw [TwoWayMap.get?_clear] at fact
    cases fact

theorem of_mentions_store {prover : Simplifier} {slot value : Name}
    (hstore : k.store prover slot value = .ok k') (hx : k'.Mentions x) :
    k.Mentions x ∨ x = slot ∨ x = value := by
  have hfacts : ∀ {s v}, k'.storedAt? s = some v →
      (s = slot ∧ v = value) ∨ k.storedAt? s = some v := fun fact =>
    ((storedAt?_store_eq_some hstore).1 fact).imp_right fun h => h.2.1
  obtain ⟨_, _, rfl⟩ := store_eq_ok hstore
  rcases of_mentions_withStorage hx with hx | ⟨s, v, fact, hends⟩
  · exact .inl hx
  · rcases hfacts fact with ⟨rfl, rfl⟩ | fact
    · exact .inr hends
    · rcases hends with rfl | rfl
      · exact .inl (.slot fact)
      · exact .inl (.stored fact)

/-! ### No names -/

/-- Knowledge that mentions no name is empty in all its parts. -/
theorem Coherent.eq_empty (h : k.Coherent dialect) (hnone : ∀ x, ¬ k.Mentions x) : k = ∅ := by
  obtain ⟨values, ⟨sources, dependents⟩, storage⟩ := k
  obtain rfl : values = ∅ := Std.ExtTreeMap.ext_getElem? fun x => by
    rw [Std.ExtTreeMap.getElem?_empty]
    exact Option.eq_none_iff_forall_ne_some.2 fun e known => hnone x (.key known)
  obtain rfl : sources = ∅ := h.mirrored.sources_filled.ext LinkIndex.filled_empty fun x y =>
    iff_of_false (fun link => hnone y (.source link)) (LinkIndex.not_linked_empty x y)
  obtain rfl : dependents = ∅ := h.mirrored.dependents_filled.ext LinkIndex.filled_empty fun y x =>
    iff_of_false (fun link => hnone x (.dependent link)) (LinkIndex.not_linked_empty y x)
  obtain rfl : storage = ∅ := h.exact.ext TwoWayMap.exact_empty fun slot => by
    rw [TwoWayMap.get?_empty]
    exact Option.eq_none_iff_forall_ne_some.2 fun value fact => hnone slot (.slot fact)
  rfl

end Knowledge

end StorageFlow
