import StorageFlow.Name

/-!
# StorageFlow.Knowledge.LinkIndex

Links between keys.

* `LinkIndex` — for each key the set of keys it is linked to; keys without links have no entry.
* `LinkIndex.link`, `LinkIndex.unlink` — add and remove one link.
* `LinkIndex.Linked` — the relation that an index stands for.
* `LinkIndex.unmatched?` — a link that another index lacks in the other direction.
-/

namespace StorageFlow

/-- For each key the set of keys it is linked to. -/
abbrev LinkIndex (κ : Type) [Ord κ] [Std.TransOrd κ] := Std.ExtTreeMap κ (Std.ExtTreeSet κ)

variable {κ : Type} [Ord κ] [Std.TransOrd κ]

namespace LinkIndex

/-- The keys that `key` is linked to. -/
def linked (index : LinkIndex κ) (key : κ) : Std.ExtTreeSet κ :=
  index[key]?.getD ∅

/-- Whether `key` is linked to `target`. -/
def Linked (index : LinkIndex κ) (key target : κ) : Prop :=
  target ∈ index.linked key

instance (index : LinkIndex κ) (key target : κ) : Decidable (index.Linked key target) :=
  inferInstanceAs (Decidable (target ∈ index.linked key))

/-- Adds the link from `key` to `target`. -/
def link (index : LinkIndex κ) (key target : κ) : LinkIndex κ :=
  index.insert key ((index.linked key).insert target)

/-- Removes the link from `key` to `target`, and the entry of `key` with its last link. -/
def unlink (index : LinkIndex κ) (key target : κ) : LinkIndex κ :=
  let rest := (index.linked key).erase target
  if rest.isEmpty then index.erase key else index.insert key rest

/-- All links, in order. -/
def links (index : LinkIndex κ) : List (κ × κ) :=
  index.toList.flatMap fun entry => entry.2.toList.map fun target => (entry.1, target)

/-- The first link, in order, whose reverse is missing from `other`. -/
def unmatched? (index other : LinkIndex κ) : Option (κ × κ) :=
  index.links.find? fun link => !(other.linked link.2).contains link.1

variable [Std.LawfulEqOrd κ]

theorem linked_link {index : LinkIndex κ} {key target k t : κ} :
    (index.link key target).Linked k t ↔ (k = key ∧ t = target) ∨ index.Linked k t := by
  by_cases h : key = k
  · subst h
    simp only [Linked, linked, link, Std.ExtTreeMap.getElem?_insert_self, Option.getD_some,
      Std.ExtTreeSet.mem_insert, Std.LawfulEqCmp.compare_eq_iff_eq, true_and, @eq_comm _ t]
  · simp [Linked, linked, link, Std.ExtTreeMap.getElem?_insert, h, Ne.symm h]

theorem linked_unlink {index : LinkIndex κ} {key target k t : κ} :
    (index.unlink key target).Linked k t ↔ index.Linked k t ∧ ¬(k = key ∧ t = target) := by
  simp only [Linked, unlink]
  by_cases h : key = k
  · subst h
    have hrest : t ∈ (index.linked key).erase target ↔
        t ∈ index.linked key ∧ ¬(key = key ∧ t = target) := by
      simp only [Std.ExtTreeSet.mem_erase, ne_eq, Std.LawfulEqCmp.compare_eq_iff_eq, true_and,
        @eq_comm _ t, and_comm]
    rw [← hrest]
    split
    next hempty =>
      rw [Std.ExtTreeSet.isEmpty_iff.1 hempty]
      simp [linked]
    next => simp [linked]
  · split <;>
      simp [linked, Std.ExtTreeMap.getElem?_insert, Std.ExtTreeMap.getElem?_erase, h, Ne.symm h]

end LinkIndex

end StorageFlow
