import StorageFlow.Error
import StorageFlow.Knowledge.LinkIndex
import StorageFlow.Text.Quoted

/-!
# StorageFlow.Knowledge.TwoWayMap

A finite map with keys and values of one type that is indexed in both directions.

* `TwoWayMap` — the map and its reverse index from values to keys.
* `get?`, `contains`, `keysOf`, `entries`, `size`, `isEmpty` — look-ups.
* `set`, `erase`, `eraseByValue`, `retain`, `clear` — updates of both directions.
* `check` — the executable test that the reverse index is exact.
-/

namespace StorageFlow

/-- A map with a reverse index from each value to the keys that are mapped to it. -/
structure TwoWayMap (κ : Type) [Ord κ] [Std.TransOrd κ] where
  forward : Std.ExtTreeMap κ κ
  reverse : LinkIndex κ

namespace TwoWayMap

variable {κ : Type} [Ord κ] [Std.TransOrd κ]

/-- Maps are compared in both directions. -/
instance [DecidableEq κ] [Std.LawfulEqOrd κ] : DecidableEq (TwoWayMap κ)
  | ⟨forward, reverse⟩, ⟨forward', reverse'⟩ =>
    decidable_of_iff (forward = forward' ∧ reverse = reverse') (by rw [mk.injEq])

/-- The map without entries. -/
def empty : TwoWayMap κ := ⟨∅, ∅⟩

instance : EmptyCollection (TwoWayMap κ) := ⟨empty⟩

instance : Inhabited (TwoWayMap κ) := ⟨empty⟩

/-- The value of a key. -/
def get? (map : TwoWayMap κ) (key : κ) : Option κ :=
  map.forward[key]?

/-- Whether a key has a value. -/
def contains (map : TwoWayMap κ) (key : κ) : Bool :=
  map.forward.contains key

/-- The keys mapped to a value, in order. -/
def keysOf (map : TwoWayMap κ) (value : κ) : List κ :=
  (map.reverse.linked value).toList

/-- The entries, in the order of their keys. -/
def entries (map : TwoWayMap κ) : List (κ × κ) :=
  map.forward.toList

/-- The number of entries. -/
def size (map : TwoWayMap κ) : Nat :=
  map.forward.size

/-- Whether there is no entry. -/
def isEmpty (map : TwoWayMap κ) : Bool :=
  map.forward.isEmpty

/-- Removes the entry of a key. -/
def erase (map : TwoWayMap κ) (key : κ) : TwoWayMap κ :=
  match map.forward[key]? with
  | some value => ⟨map.forward.erase key, map.reverse.unlink value key⟩
  | none => map

/-- Maps `key` to `value`, whatever it was mapped to before. -/
def set (map : TwoWayMap κ) (key value : κ) : TwoWayMap κ :=
  let rest := map.erase key
  ⟨rest.forward.insert key value, rest.reverse.link value key⟩

/-- Removes every entry with the given value, found by the reverse index. -/
def eraseByValue (map : TwoWayMap κ) (value : κ) : TwoWayMap κ :=
  ⟨(map.keysOf value).foldl Std.ExtTreeMap.erase map.forward, map.reverse.erase value⟩

/-- Keeps the entries that pass a test. -/
def retain (map : TwoWayMap κ) (keep : κ → κ → Bool) : TwoWayMap κ :=
  let dropped := map.entries.filter fun entry => !keep entry.1 entry.2
  (dropped.map Prod.fst).foldl erase map

/-- Removes every entry. -/
def clear (_ : TwoWayMap κ) : TwoWayMap κ :=
  empty

/-- Whether the entry is found under its value in the reverse index. -/
def isIndexed (map : TwoWayMap κ) (key value : κ) : Bool :=
  (map.reverse.linked value).contains key

/-- Tests that the reverse index lists exactly the keys of each value, without an empty list. -/
def check [DecidableEq κ] (map : TwoWayMap κ) : Except Error Unit :=
  if !map.entries.all (fun entry => map.isIndexed entry.1 entry.2) then
    .error (.contradiction "mapped key missing from the reverse index")
  else
    map.reverse.toList.forM fun (value, keys) =>
      if keys.isEmpty then .error (.contradiction "empty reverse index entry")
      else if !keys.toList.all (fun key => map.get? key == some value) then
        .error (.contradiction "reverse index entry does not match the forward map")
      else .ok ()

/-- The entries of a map of names in quotes and braces. -/
def toText (map : TwoWayMap Name) : String :=
  Quoted.quotedEntries map.entries

end TwoWayMap

end StorageFlow
