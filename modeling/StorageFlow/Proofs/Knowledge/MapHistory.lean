import StorageFlow.Proofs.Knowledge.TwoWayMap

/-!
# StorageFlow.Proofs.Knowledge.MapHistory

A two-way map behind any updates is a plain map with an exact reverse index.

* `MapUpdate` — an update of a map; `MapUpdate.apply` and `MapUpdate.applyPlain` are what it does to
  a two-way map and to a plain one.
* `MapStep`, `TwoWayMap.behind`, `plainBehind` — updates, and copies that are kept and put back; the
  maps behind a history of such steps.
* `TwoWayMap.Reflects` — a two-way map that is a plain map with an exact reverse index.
  `Reflects.apply` says that each update keeps this, `AllReflect.runAll` that a history does.
* `TwoWayMap.history_agrees` — all answers are those of the plain map.
-/

namespace StorageFlow

/-! ### Histories -/

/-- An update of a map. -/
inductive MapUpdate (κ : Type)
  | set (key value : κ)
  | erase (key : κ)
  | eraseByValue (value : κ)
  | retain (keep : κ → κ → Bool)
  | clear

variable {κ : Type} [Ord κ] [Std.TransOrd κ]

namespace MapUpdate

/-- What the update does to a two-way map. -/
def apply : MapUpdate κ → TwoWayMap κ → TwoWayMap κ
  | set key value, map => map.set key value
  | erase key, map => map.erase key
  | eraseByValue value, map => map.eraseByValue value
  | retain keep, map => map.retain keep
  | clear, map => map.clear

/-- What the update does to a plain map. -/
def applyPlain [DecidableEq κ] : MapUpdate κ → Std.ExtTreeMap κ κ → Std.ExtTreeMap κ κ
  | set key value, plain => plain.insert key value
  | erase key, plain => plain.erase key
  | eraseByValue value, plain => plain.filter fun _ v => v != value
  | retain keep, plain => plain.filter keep
  | clear, _ => ∅

end MapUpdate

/-- A step in the history of a map. Copies of the map are kept by number. -/
inductive MapStep (κ : Type)
  | update (update : MapUpdate κ)
  | keepCopy (number : Nat)
  | putBack (number : Nat)

/-- A map with the copies of it that are kept. -/
structure MapWithCopies (α : Type) where
  current : α
  copies : Nat → α

/-- Nothing was done with the map yet, and each copy is one of it. -/
def MapWithCopies.start {α : Type} (map : α) : MapWithCopies α :=
  ⟨map, fun _ => map⟩

namespace MapStep

variable {α : Type}

/-- Takes one step with a map that is updated by `act`. -/
def run (act : MapUpdate κ → α → α) : MapStep κ → MapWithCopies α → MapWithCopies α
  | update u, maps => { maps with current := act u maps.current }
  | keepCopy number, maps =>
      { maps with copies := fun n => if n = number then maps.current else maps.copies n }
  | putBack number, maps => { maps with current := maps.copies number }

/-- Takes steps one after another. -/
def runAll (act : MapUpdate κ → α → α) (maps : MapWithCopies α) (steps : List (MapStep κ)) :
    MapWithCopies α :=
  steps.foldl (fun maps (step : MapStep κ) => step.run act maps) maps

end MapStep

/-- The two-way map behind a history that starts from the empty one. -/
def TwoWayMap.behind (steps : List (MapStep κ)) : TwoWayMap κ :=
  (MapStep.runAll MapUpdate.apply (.start ∅) steps).current

/-- The plain map behind the same history. -/
def plainBehind [DecidableEq κ] (steps : List (MapStep κ)) : Std.ExtTreeMap κ κ :=
  (MapStep.runAll MapUpdate.applyPlain (.start ∅) steps).current

/-! ### Two-way maps that reflect a plain map -/

namespace TwoWayMap

variable {map : TwoWayMap κ} {plain : Std.ExtTreeMap κ κ}

/-- The two-way map is the plain map with an exact reverse index. -/
structure Reflects (map : TwoWayMap κ) (plain : Std.ExtTreeMap κ κ) : Prop where
  exact : map.Exact
  forward : map.forward = plain

theorem reflects_empty : Reflects (∅ : TwoWayMap κ) ∅ :=
  ⟨exact_empty, rfl⟩

theorem Reflects.get?_eq (h : map.Reflects plain) (key : κ) : map.get? key = plain[key]? := by
  rw [get?, h.forward]

end TwoWayMap

/-! ### Indexes with the same links -/

variable [Std.LawfulEqOrd κ]

/-- Indexes without empty entries are equal if they have the same links. -/
theorem LinkIndex.Filled.ext {index other : LinkIndex κ} (h : index.Filled) (h' : other.Filled)
    (hlinked : ∀ key target, index.Linked key target ↔ other.Linked key target) :
    index = other := by
  have hnone : ∀ {index other : LinkIndex κ} {key : κ}, other.Filled →
      index.linked key = other.linked key → index[key]? = none → other[key]? = none := by
    intro index other key hfilled hsame hentry
    cases hother : other[key]? with
    | none => rfl
    | some links =>
        have hempty := hfilled key links hother
        rw [linked, linked, hentry, hother] at hsame
        obtain rfl : ∅ = links := hsame
        simp at hempty
  refine Std.ExtTreeMap.ext_getElem? fun key => ?_
  have hsame : index.linked key = other.linked key :=
    Std.ExtTreeSet.ext_mem fun target => hlinked key target
  cases hentry : index[key]? with
  | none => exact (hnone h' hsame hentry).symm
  | some links =>
      cases hother : other[key]? with
      | none =>
          rw [hnone h hsame.symm hother] at hentry
          cases hentry
      | some links' =>
          rw [linked, linked, hentry, hother] at hsame
          exact congrArg some hsame

namespace TwoWayMap

variable {map map' : TwoWayMap κ} {plain : Std.ExtTreeMap κ κ}

/-- The map itself decides what its exact reverse index is. -/
theorem Exact.ext (h : map.Exact) (h' : map'.Exact) (hget : ∀ key, map.get? key = map'.get? key) :
    map = map' := by
  obtain ⟨forward, reverse⟩ := map
  obtain ⟨forward', reverse'⟩ := map'
  obtain rfl : forward = forward' := Std.ExtTreeMap.ext_getElem? hget
  have hreverse : reverse = reverse' := h.filled.ext h'.filled fun value key =>
    (h.linked_iff value key).trans (h'.linked_iff value key).symm
  rw [hreverse]

theorem nodup_keysOf (map : TwoWayMap κ) (value : κ) : (map.keysOf value).Nodup :=
  Std.ExtTreeSet.distinct_toList.imp Std.ReflCmp.ne_of_cmp_ne_eq

/-- A two-way map with the look-ups of a plain map reflects it. -/
theorem Reflects.of_get? (h : map.Exact) (hget : ∀ key, map.get? key = plain[key]?) :
    map.Reflects plain :=
  ⟨h, Std.ExtTreeMap.ext_getElem? hget⟩

/-! ### Histories of both maps -/

variable [DecidableEq κ]

/-- Each update does to a two-way map what it does to the plain map that it reflects. -/
theorem Reflects.apply (h : map.Reflects plain) (update : MapUpdate κ) :
    (update.apply map).Reflects (update.applyPlain plain) := by
  cases update with
  | set key value =>
      refine .of_get? (h.exact.set key value) fun k => ?_
      rw [MapUpdate.apply, get?_set, h.get?_eq, MapUpdate.applyPlain,
        Std.ExtTreeMap.getElem?_insert]
      simp only [Std.LawfulEqCmp.compare_eq_iff_eq, @eq_comm _ k]
  | erase key =>
      refine .of_get? (h.exact.erase key) fun k => ?_
      rw [MapUpdate.apply, get?_erase, h.get?_eq, MapUpdate.applyPlain,
        Std.ExtTreeMap.getElem?_erase]
      simp only [Std.LawfulEqCmp.compare_eq_iff_eq, @eq_comm _ k]
  | eraseByValue value =>
      refine .of_get? (h.exact.eraseByValue value) fun k => ?_
      rw [MapUpdate.apply, h.exact.get?_eraseByValue, h.get?_eq, MapUpdate.applyPlain,
        Std.ExtTreeMap.getElem?_filter']
      cases plain[k]? with
      | none => simp
      | some v => by_cases hv : v = value <;> simp [hv, Option.filter_some]
  | retain keep =>
      refine .of_get? (h.exact.retain keep) fun k => ?_
      rw [MapUpdate.apply, get?_retain, h.get?_eq, MapUpdate.applyPlain,
        Std.ExtTreeMap.getElem?_filter']
  | clear => exact reflects_empty

/-- The map in use and all copies of it reflect those of a plain map. -/
structure AllReflect (maps : MapWithCopies (TwoWayMap κ))
    (plains : MapWithCopies (Std.ExtTreeMap κ κ)) : Prop where
  current : maps.current.Reflects plains.current
  copies : ∀ number, (maps.copies number).Reflects (plains.copies number)

namespace AllReflect

variable {maps : MapWithCopies (TwoWayMap κ)} {plains : MapWithCopies (Std.ExtTreeMap κ κ)}

theorem run (h : AllReflect maps plains) (step : MapStep κ) :
    AllReflect (step.run MapUpdate.apply maps) (step.run MapUpdate.applyPlain plains) := by
  cases step with
  | update u => exact ⟨h.current.apply u, h.copies⟩
  | keepCopy number =>
      refine ⟨h.current, fun n => ?_⟩
      simp only [MapStep.run]
      split
      · exact h.current
      · exact h.copies n
  | putBack number => exact ⟨h.copies number, h.copies⟩

theorem runAll (h : AllReflect maps plains) (steps : List (MapStep κ)) :
    AllReflect (MapStep.runAll MapUpdate.apply maps steps)
      (MapStep.runAll MapUpdate.applyPlain plains steps) := by
  induction steps generalizing maps plains with
  | nil => exact h
  | cons step steps ih => exact ih (h.run step)

end AllReflect

/-- The two-way map behind a history reflects the plain map behind it. -/
theorem reflects_behind (steps : List (MapStep κ)) : (behind steps).Reflects (plainBehind steps) :=
  (AllReflect.runAll ⟨reflects_empty, fun _ => reflects_empty⟩ steps).current

/-- A two-way map over any type of keys is an exact index in both directions, whatever was done with
it. It answers every question about its entries like the plain map behind the same history. Its
reverse index lists each key of a value once and nothing else, has no empty entry, and passes the
test. Two such maps are equal exactly if they map the same keys to the same values. -/
theorem history_agrees (steps others : List (MapStep κ)) :
    let map := behind steps
    let plain := plainBehind steps
    let other := behind others
    (∀ key, map.get? key = plain[key]? ∧ map.contains key = plain.contains key) ∧
      map.size = plain.size ∧ map.isEmpty = plain.isEmpty ∧ map.entries = plain.toList ∧
      (∀ value, (map.keysOf value).Nodup ∧
        ∀ key, key ∈ map.keysOf value ↔ plain[key]? = some value) ∧
      map.reverse.Filled ∧ map.check = .ok () ∧
      ((map == other) = true ↔ ∀ key, map.get? key = other.get? key) := by
  intro map plain other
  have h : map.Reflects plain := reflects_behind steps
  have hother : other.Exact := (reflects_behind others).exact
  refine ⟨fun key => ⟨h.get?_eq key, ?_⟩, ?_, ?_, ?_, fun value => ⟨map.nodup_keysOf value, ?_⟩,
    h.exact.filled, h.exact.check, ?_⟩
  · rw [contains, h.forward]
  · rw [size, h.forward]
  · rw [isEmpty, h.forward]
  · rw [entries, h.forward]
  · intro key
    rw [h.exact.mem_keysOf, h.get?_eq]
  · rw [beq_iff_eq]
    exact ⟨fun heq key => heq ▸ rfl, h.exact.ext hother⟩

/-- Two keys with one value. Both are erased by it and put back, then one of them is erased. -/
def sharedValue : List (MapStep Name) :=
  [.update (.set "a" "v"), .update (.set "b" "v"), .keepCopy 0, .update (.eraseByValue "v"),
    .putBack 0, .update (.erase "a")]

/-- The other key is left, and so is the reverse entry of the value. -/
theorem history_agrees_sharedValue :
    (behind sharedValue).entries = [("b", "v")] ∧
      (∀ key, key ∈ (behind sharedValue).keysOf "v" ↔ key = "b") ∧
      (behind sharedValue).check = .ok () ∧
      behind sharedValue = behind [.update (.set "b" "v")] := by
  obtain ⟨hget, _, _, hentries, hkeys, _, hcheck, hequal⟩ :=
    history_agrees sharedValue [.update (.set "b" "v")]
  have hplain : plainBehind sharedValue = (∅ : NameMap Name).insert "b" "v" := by decide +kernel
  rw [hplain] at hget hentries hkeys
  have hother (key : Name) : (behind [.update (.set "b" "v")]).get? key =
      ((∅ : NameMap Name).insert "b" "v")[key]? := (reflects_behind _).get?_eq key
  refine ⟨hentries, fun key => ?_, hcheck, beq_iff_eq.1 (hequal.2 fun key => ?_)⟩
  · rw [(hkeys "v").2, Std.ExtTreeMap.getElem?_insert]
    simp [Std.LawfulEqCmp.compare_eq_iff_eq, @eq_comm _ key]
  · rw [(hget key).1, hother]

end TwoWayMap

end StorageFlow
