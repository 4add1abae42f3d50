import StorageFlow.Knowledge.TwoWayMap

/-!
# StorageFlow.Proofs.Knowledge.TwoWayMap

A map that is indexed in both directions stays so.

* `LinkIndex.Filled` — no key of an index has an empty set of links.
* `TwoWayMap.Exact` — the reverse index lists exactly the keys of each value.
* `TwoWayMap.get?_erase`, `get?_set`, `get?_eraseByValue`, `get?_retain` — what the updates do to
  the map itself. Erasing by value finds the keys by the reverse index, so it needs `Exact`.
* `TwoWayMap.Exact.check` — the executable test passes.
-/

namespace StorageFlow

variable {κ : Type} [Ord κ] [Std.TransOrd κ]

namespace LinkIndex

/-- Every key of the index is linked to something. -/
def Filled (index : LinkIndex κ) : Prop :=
  ∀ (key : κ) (links : Std.ExtTreeSet κ), index[key]? = some links → links.isEmpty = false

@[simp] theorem not_linked_empty (key target : κ) :
    ¬ Linked (∅ : LinkIndex κ) key target := by
  simp [Linked, linked]

theorem filled_empty : Filled (∅ : LinkIndex κ) := by
  intro key links h
  simp at h

theorem Filled.erase {index : LinkIndex κ} (h : index.Filled) (key : κ) :
    Filled (index.erase key) := by
  intro k links hk
  rw [Std.ExtTreeMap.getElem?_erase] at hk
  split at hk
  · cases hk
  · exact h k links hk

theorem Filled.link {index : LinkIndex κ} (h : index.Filled) (key target : κ) :
    (index.link key target).Filled := by
  intro k links hk
  rw [LinkIndex.link, Std.ExtTreeMap.getElem?_insert] at hk
  split at hk
  · cases hk
    simp
  · exact h k links hk

theorem Filled.unlink {index : LinkIndex κ} (h : index.Filled) (key target : κ) :
    (index.unlink key target).Filled := by
  intro k links hk
  unfold LinkIndex.unlink at hk
  dsimp only at hk
  split at hk
  next => exact h.erase key k links hk
  next hrest =>
    rw [Std.ExtTreeMap.getElem?_insert] at hk
    split at hk
    · cases hk
      simpa using hrest
    · exact h k links hk

variable [Std.LawfulEqOrd κ]

theorem linked_erase {index : LinkIndex κ} {key k t : κ} :
    Linked (index.erase key) k t ↔ k ≠ key ∧ index.Linked k t := by
  by_cases h : key = k
  · simp [Linked, linked, h]
  · simp [Linked, linked, Std.ExtTreeMap.getElem?_erase, h, Ne.symm h]

/-- The list of links holds the links and nothing else. -/
theorem mem_links {index : LinkIndex κ} {key target : κ} :
    (key, target) ∈ index.links ↔ index.Linked key target := by
  simp only [links, List.mem_flatMap, List.mem_map, Prod.mk.injEq, Linked, linked]
  constructor
  · rintro ⟨⟨k, set⟩, hset, t, ht, rfl, rfl⟩
    rw [Std.ExtTreeMap.mem_toList_iff_getElem?_eq_some] at hset
    simpa [hset] using ht
  · intro h
    cases hset : index[key]? with
    | none => simp [hset] at h
    | some set =>
        exact ⟨(key, set), Std.ExtTreeMap.mem_toList_iff_getElem?_eq_some.2 hset, target,
          by simpa [hset] using h, rfl, rfl⟩

theorem unmatched?_eq_none {index other : LinkIndex κ}
    (h : ∀ key target, index.Linked key target → other.Linked target key) :
    index.unmatched? other = none := by
  rw [unmatched?, List.find?_eq_none]
  rintro ⟨key, target⟩ hmem
  simpa [Linked] using h key target (mem_links.1 hmem)

end LinkIndex

namespace TwoWayMap

/-- The reverse index lists exactly the keys of each value. -/
structure Exact (map : TwoWayMap κ) : Prop where
  linked_iff : ∀ value key, map.reverse.Linked value key ↔ map.get? key = some value
  filled : map.reverse.Filled

@[simp] theorem get?_empty (key : κ) : get? (∅ : TwoWayMap κ) key = none :=
  Std.ExtTreeMap.getElem?_empty

@[simp] theorem get?_clear (map : TwoWayMap κ) (key : κ) : map.clear.get? key = none :=
  Std.ExtTreeMap.getElem?_empty

theorem exact_empty : Exact (∅ : TwoWayMap κ) where
  linked_iff value key :=
    iff_of_false (LinkIndex.not_linked_empty value key) (by rw [get?_empty]; simp)
  filled := LinkIndex.filled_empty

variable [Std.LawfulEqOrd κ]

theorem Exact.mem_keysOf {map : TwoWayMap κ} (h : map.Exact) {value key : κ} :
    key ∈ map.keysOf value ↔ map.get? key = some value := by
  rw [← h.linked_iff, keysOf, Std.ExtTreeSet.mem_toList]
  rfl

theorem mem_entries {map : TwoWayMap κ} {key value : κ} :
    (key, value) ∈ map.entries ↔ map.get? key = some value :=
  Std.ExtTreeMap.mem_toList_iff_getElem?_eq_some

/-! ### Look-ups after an update -/

variable [DecidableEq κ]

@[simp] theorem get?_erase (map : TwoWayMap κ) (key k : κ) :
    (map.erase key).get? k = if k = key then none else map.get? k := by
  unfold erase
  split
  next value h => simp [get?, Std.ExtTreeMap.getElem?_erase, @eq_comm _ k]
  next h =>
    split
    next hk => rw [hk, get?, h]
    next => rfl

@[simp] theorem get?_set (map : TwoWayMap κ) (key value k : κ) :
    (map.set key value).get? k = if k = key then some value else map.get? k := by
  by_cases hk : k = key
  · simp [set, get?, hk]
  · have herase := get?_erase map key k
    simp only [get?, hk, if_false] at herase
    simp [set, get?, Std.ExtTreeMap.getElem?_insert, hk, Ne.symm hk, herase]

theorem get?_foldl_erase (keys : List κ) (map : TwoWayMap κ) (k : κ) :
    (keys.foldl erase map).get? k = if k ∈ keys then none else map.get? k := by
  induction keys generalizing map with
  | nil => simp
  | cons key keys ih =>
      rw [List.foldl_cons, ih, get?_erase]
      by_cases hk : k = key <;> simp [hk]

theorem getElem?_foldl_erase (keys : List κ) (map : Std.ExtTreeMap κ κ) (k : κ) :
    (keys.foldl Std.ExtTreeMap.erase map)[k]? = if k ∈ keys then none else map[k]? := by
  induction keys generalizing map with
  | nil => simp
  | cons key keys ih =>
      rw [List.foldl_cons, ih, Std.ExtTreeMap.getElem?_erase]
      by_cases hk : key = k
      · simp [hk]
      · simp [hk, Ne.symm hk]

theorem Exact.get?_eraseByValue {map : TwoWayMap κ} (h : map.Exact) (value k : κ) :
    (map.eraseByValue value).get? k =
      if map.get? k = some value then none else map.get? k := by
  simp only [← h.mem_keysOf]
  exact getElem?_foldl_erase (map.keysOf value) map.forward k

theorem get?_retain (map : TwoWayMap κ) (keep : κ → κ → Bool) (k : κ) :
    (map.retain keep).get? k = (map.get? k).filter (keep k) := by
  rw [retain, get?_foldl_erase]
  cases h : map.get? k with
  | none => simp
  | some value =>
      have hdropped : k ∈ (map.entries.filter fun entry => !keep entry.1 entry.2).map Prod.fst ↔
          keep k value = false := by
        simp [mem_entries, h]
      by_cases hkeep : keep k value = true <;> simp [hdropped, hkeep, Option.filter_some]

/-! ### The reverse index stays exact -/

theorem Exact.erase {map : TwoWayMap κ} (h : map.Exact) (key : κ) : (map.erase key).Exact where
  linked_iff value k := by
    rw [get?_erase]
    unfold TwoWayMap.erase
    split
    next v hv =>
      rw [LinkIndex.linked_unlink, h.linked_iff]
      by_cases hk : k = key
      · subst hk
        simp only [get?, hv, Option.some.injEq, and_true, if_true]
        simp [eq_comm]
      · simp [hk]
    next hv =>
      rw [h.linked_iff]
      by_cases hk : k = key
      · simp [hk, get?, hv]
      · simp [hk]
  filled := by
    unfold TwoWayMap.erase
    split
    next => exact h.filled.unlink _ _
    next => exact h.filled

theorem Exact.set {map : TwoWayMap κ} (h : map.Exact) (key value : κ) :
    (map.set key value).Exact where
  linked_iff v k := by
    rw [get?_set, TwoWayMap.set]
    simp only [LinkIndex.linked_link, (h.erase key).linked_iff, get?_erase]
    by_cases hk : k = key <;> simp [hk, eq_comm]
  filled := (h.erase key).filled.link _ _

theorem Exact.eraseByValue {map : TwoWayMap κ} (h : map.Exact) (value : κ) :
    (map.eraseByValue value).Exact where
  linked_iff v k := by
    -- the reverse index loses the whole entry of the value, the map all its keys
    rw [h.get?_eraseByValue, TwoWayMap.eraseByValue]
    simp only [LinkIndex.linked_erase, h.linked_iff]
    by_cases hv : map.get? k = some value
    · simp [hv, eq_comm]
    · simp only [hv, if_false]
      refine ⟨And.right, fun hk => ⟨fun e => hv (e ▸ hk), hk⟩⟩
  filled := h.filled.erase _

theorem Exact.foldl_erase (keys : List κ) {map : TwoWayMap κ} (h : map.Exact) :
    (keys.foldl TwoWayMap.erase map).Exact := by
  induction keys generalizing map with
  | nil => exact h
  | cons key keys ih => exact ih (h.erase key)

theorem Exact.retain {map : TwoWayMap κ} (h : map.Exact) (keep : κ → κ → Bool) :
    (map.retain keep).Exact :=
  h.foldl_erase _

theorem forM_eq_ok {α : Type} {f : α → Except Error Unit} {as : List α}
    (h : ∀ a ∈ as, f a = .ok ()) : as.forM f = .ok () := by
  induction as with
  | nil => rfl
  | cons a as ih =>
      show (f a >>= fun _ => as.forM f) = .ok ()
      rw [h a List.mem_cons_self]
      exact ih fun b hb => h b (List.mem_cons_of_mem a hb)

/-- The executable test passes on a map whose reverse index is exact. -/
theorem Exact.check {map : TwoWayMap κ} (h : map.Exact) : map.check = .ok () := by
  have hindexed : (map.entries.all fun entry => map.isIndexed entry.1 entry.2) = true := by
    rw [List.all_eq_true]
    rintro ⟨key, value⟩ hmem
    rw [isIndexed, Std.ExtTreeSet.contains_iff_mem]
    exact (h.linked_iff value key).2 (mem_entries.1 hmem)
  simp only [TwoWayMap.check, hindexed, Bool.not_true, Bool.false_eq_true, if_false]
  refine forM_eq_ok fun ⟨value, keys⟩ hmem => ?_
  have hkeys := Std.ExtTreeMap.mem_toList_iff_getElem?_eq_some.1 hmem
  have hmatch : (keys.toList.all fun key => map.get? key == some value) = true := by
    rw [List.all_eq_true]
    intro key hkey
    rw [beq_iff_eq, ← h.linked_iff, LinkIndex.Linked, LinkIndex.linked, hkeys]
    exact Std.ExtTreeSet.mem_toList.1 hkey
  simp [h.filled value keys hkeys, hmatch]

end TwoWayMap

end StorageFlow
