import StorageFlow.Knowledge.Storage
import StorageFlow.Proofs.Knowledge.Provenance
import StorageFlow.Proofs.Syntax.Collectors

/-!
# StorageFlow.Proofs.Knowledge.Facts

Which facts are known after each change of the knowledge.

* `Knowledge.Coherent` — the invariant of all knowledge: the parts agree, and each known value is
  movable, does not read its variable and has its variables as sources.
* `value?_clear_eq_some`, `storedAt?_clear_eq_some` — clearing drops the facts about the variables
  that are `Affected`: the given ones and those computed from one of them.
* `value?_assign_eq_some`, `value?_assignZero_eq_some`, `storedAt?_store_eq_some` and so on — the
  facts after the other changes.
* `Coherent.clear`, `Coherent.assign`, … — every change keeps the invariant.
-/

namespace StorageFlow.Knowledge

variable {dialect : Dialect} {k : Knowledge}

/-- The edges, the storage facts and the known values of the knowledge agree. -/
structure Coherent (dialect : Dialect) (k : Knowledge) : Prop where
  mirrored : k.provenance.Mirrored
  exact : k.storage.Exact
  /-- Every known value may be evaluated elsewhere. -/
  movable : ∀ {x e}, k.value? x = some e →
    (e.operations.all fun op => (dialect.effectsOf op).movable) = true
  /-- No known value reads its own variable. -/
  irreflexive : ∀ {x e}, k.value? x = some e → x ∉ e.reads
  /-- The sources of a known value are the variables that it reads. -/
  linked_iff : ∀ {x e}, k.value? x = some e →
    ∀ y, k.provenance.sources.Linked x y ↔ y ∈ e.reads

/-- The variables whose facts are dropped when `names` are cleared. -/
def Affected (k : Knowledge) (names : List Name) (x : Name) : Prop :=
  x ∈ names ∨ ∃ name ∈ names, k.provenance.sources.Linked x name

theorem Affected.of_mem {names : List Name} {x : Name} (h : x ∈ names) : k.Affected names x :=
  Or.inl h

theorem affected_append {names names' : List Name} {x : Name} :
    k.Affected (names ++ names') x ↔ k.Affected names x ∨ k.Affected names' x := by
  simp only [Affected, List.mem_append]
  constructor
  · rintro ((h | h) | ⟨name, h | h, hlinked⟩)
    · exact .inl (.inl h)
    · exact .inr (.inl h)
    · exact .inl (.inr ⟨name, h, hlinked⟩)
    · exact .inr (.inr ⟨name, h, hlinked⟩)
  · rintro ((h | ⟨name, h, hlinked⟩) | (h | ⟨name, h, hlinked⟩))
    · exact .inl (.inl h)
    · exact .inr ⟨name, .inl h, hlinked⟩
    · exact .inl (.inr h)
    · exact .inr ⟨name, .inr h, hlinked⟩

theorem Affected.of_subset {names names' : List Name} {x : Name} (h : k.Affected names x)
    (hsub : names ⊆ names') : k.Affected names' x :=
  h.imp (fun hx => hsub hx) fun ⟨name, hname, hlinked⟩ => ⟨name, hsub hname, hlinked⟩

/-- A known value that reads a cleared variable is affected. -/
theorem Coherent.affected_of_reads (h : k.Coherent dialect) {names : List Name} {x y : Name}
    {e : Expr} (hx : k.value? x = some e) (hy : y ∈ e.reads) (hmem : y ∈ names) :
    k.Affected names x :=
  Or.inr ⟨y, hmem, (h.linked_iff hx y).2 hy⟩

/-! ### Nothing is known at first -/

@[simp] theorem value?_empty (x : Name) : value? ∅ x = none :=
  Std.ExtTreeMap.getElem?_empty

@[simp] theorem storedAt?_empty (s : Name) : storedAt? ∅ s = none :=
  Std.ExtTreeMap.getElem?_empty

theorem coherent_empty : Coherent dialect ∅ where
  mirrored := Provenance.mirrored_empty
  exact := TwoWayMap.exact_empty
  movable h := by simp at h
  irreflexive h := by simp at h
  linked_iff h := by simp at h

/-! ### Forgetting variables -/

theorem value?_forget_eq_some {name x : Name} {e : Expr} :
    (k.forget name).value? x = some e ↔ k.value? x = some e ∧ x ≠ name := by
  by_cases h : x = name
  · simp [forget, value?, h]
  · simp [forget, value?, Std.ExtTreeMap.getElem?_erase, h, Ne.symm h]

theorem linked_forget {name x y : Name} :
    (k.forget name).provenance.sources.Linked x y ↔
      k.provenance.sources.Linked x y ∧ x ≠ name := by
  rw [forget, Provenance.linked_remove, and_comm]

theorem storedAt?_forget_eq_some (h : k.storage.Exact) {name s v : Name} :
    (k.forget name).storedAt? s = some v ↔ k.storedAt? s = some v ∧ s ≠ name ∧ v ≠ name := by
  have herase : (k.storage.erase name).get? s = some v ↔ k.storedAt? s = some v ∧ s ≠ name := by
    rw [TwoWayMap.get?_erase, storedAt?]
    by_cases hs : s = name <;> simp [hs]
  rw [storedAt?, forget, (h.erase name).get?_eraseByValue]
  by_cases hv : (k.storage.erase name).get? s = some name
  · -- the forgotten name is the stored value here, so the fact is dropped by its value
    rw [if_pos hv]
    have hsv := TwoWayMap.get?_erase k.storage name s
    grind [storedAt?]
  · rw [if_neg hv, herase]
    grind [storedAt?]

theorem exact_forget (h : k.storage.Exact) (name : Name) : (k.forget name).storage.Exact :=
  (h.erase name).eraseByValue name

theorem mirrored_forget (h : k.provenance.Mirrored) (name : Name) :
    (k.forget name).provenance.Mirrored :=
  h.remove name

theorem exact_foldl_forget (names : List Name) {k : Knowledge} (h : k.storage.Exact) :
    (names.foldl forget k).storage.Exact := by
  induction names generalizing k with
  | nil => exact h
  | cons name names ih => exact ih (exact_forget h name)

theorem mirrored_foldl_forget (names : List Name) {k : Knowledge} (h : k.provenance.Mirrored) :
    (names.foldl forget k).provenance.Mirrored := by
  induction names generalizing k with
  | nil => exact h
  | cons name names ih => exact ih (mirrored_forget h name)

theorem value?_foldl_forget_eq_some {names : List Name} {k : Knowledge} {x : Name} {e : Expr} :
    (names.foldl forget k).value? x = some e ↔ k.value? x = some e ∧ x ∉ names := by
  induction names generalizing k with
  | nil => simp
  | cons name names ih =>
      rw [List.foldl_cons, ih, value?_forget_eq_some, List.mem_cons, not_or, and_assoc]

theorem linked_foldl_forget {names : List Name} {k : Knowledge} {x y : Name} :
    (names.foldl forget k).provenance.sources.Linked x y ↔
      k.provenance.sources.Linked x y ∧ x ∉ names := by
  induction names generalizing k with
  | nil => simp
  | cons name names ih =>
      rw [List.foldl_cons, ih, linked_forget, List.mem_cons, not_or, and_assoc]

theorem storedAt?_foldl_forget_eq_some {names : List Name} {k : Knowledge}
    (h : k.storage.Exact) {s v : Name} :
    (names.foldl forget k).storedAt? s = some v ↔
      k.storedAt? s = some v ∧ s ∉ names ∧ v ∉ names := by
  induction names generalizing k with
  | nil => simp
  | cons name names ih =>
      rw [List.foldl_cons, ih (exact_forget h name), storedAt?_forget_eq_some h]
      simp only [List.mem_cons, not_or]
      grind

/-! ### Clearing -/

/-- Clearing adds no value, and keeps none of a cleared variable. -/
theorem value?_of_clear {names : List Name} {x : Name} {e : Expr}
    (h : (k.clear names).value? x = some e) : k.value? x = some e ∧ x ∉ names := by
  rw [Knowledge.clear, value?_foldl_forget_eq_some, List.mem_append, not_or] at h
  exact ⟨h.1, h.2.1⟩

theorem storedAt?_of_forget {name s v : Name} (h : (k.forget name).storedAt? s = some v) :
    k.storedAt? s = some v := by
  rw [storedAt?, forget, TwoWayMap.eraseByValue, TwoWayMap.get?,
    TwoWayMap.getElem?_foldl_erase] at h
  split at h
  · cases h
  · have herase := TwoWayMap.get?_erase k.storage name s
    rw [TwoWayMap.get?, h] at herase
    split at herase
    · cases herase
    · exact herase.symm

/-- Clearing adds no fact about storage. -/
theorem storedAt?_of_clear {names : List Name} {s v : Name}
    (h : (k.clear names).storedAt? s = some v) : k.storedAt? s = some v := by
  have hforget : ∀ (names : List Name) {k : Knowledge},
      (names.foldl forget k).storedAt? s = some v → k.storedAt? s = some v := by
    intro names
    induction names with
    | nil => exact fun h => h
    | cons name names ih => exact fun h => storedAt?_of_forget (ih h)
  exact hforget _ h

theorem mem_cleared (h : k.provenance.Mirrored) {names : List Name} {x : Name} :
    x ∈ names ++ k.provenance.dependentsOf names ↔ k.Affected names x := by
  rw [List.mem_append, h.mem_dependentsOf, Affected]

/-- Clearing keeps the values of the variables that are not affected. -/
theorem Coherent.value?_clear_eq_some (h : k.Coherent dialect) {names : List Name} {x : Name}
    {e : Expr} :
    (k.clear names).value? x = some e ↔ k.value? x = some e ∧ ¬ k.Affected names x := by
  rw [Knowledge.clear, value?_foldl_forget_eq_some, mem_cleared h.mirrored]

/-- Clearing keeps the storage facts about variables that are not affected. -/
theorem Coherent.storedAt?_clear_eq_some (h : k.Coherent dialect) {names : List Name}
    {s v : Name} :
    (k.clear names).storedAt? s = some v ↔
      k.storedAt? s = some v ∧ ¬ k.Affected names s ∧ ¬ k.Affected names v := by
  rw [Knowledge.clear, storedAt?_foldl_forget_eq_some h.exact, mem_cleared h.mirrored,
    mem_cleared h.mirrored]

theorem Coherent.linked_clear (h : k.Coherent dialect) {names : List Name} {x y : Name} :
    (k.clear names).provenance.sources.Linked x y ↔
      k.provenance.sources.Linked x y ∧ ¬ k.Affected names x := by
  rw [Knowledge.clear, linked_foldl_forget, mem_cleared h.mirrored]

theorem Coherent.clear (h : k.Coherent dialect) (names : List Name) :
    (k.clear names).Coherent dialect where
  mirrored := mirrored_foldl_forget _ h.mirrored
  exact := exact_foldl_forget _ h.exact
  movable hx := h.movable (h.value?_clear_eq_some.1 hx).1
  irreflexive hx := h.irreflexive (h.value?_clear_eq_some.1 hx).1
  linked_iff hx y := by
    -- a value that stays is not affected, so its edges stay too
    obtain ⟨hx, hnot⟩ := h.value?_clear_eq_some.1 hx
    rw [h.linked_clear, h.linked_iff hx]
    exact and_iff_left hnot

/-- After clearing, no known value reads a cleared variable. -/
theorem Coherent.not_mem_of_value?_clear (h : k.Coherent dialect) {names : List Name} {x : Name}
    {e : Expr} (hx : (k.clear names).value? x = some e) :
    x ∉ names ∧ ∀ y ∈ e.reads, y ∉ names := by
  obtain ⟨hx, hnot⟩ := h.value?_clear_eq_some.1 hx
  exact ⟨fun hmem => hnot (.of_mem hmem),
    fun y hy hmem => hnot (h.affected_of_reads hx hy hmem)⟩

/-! ### Assignments -/

@[simp] theorem value?_derive (names sources : List Name) (x : Name) :
    (k.derive names sources).value? x = k.value? x := rfl

@[simp] theorem storedAt?_derive (names sources : List Name) (s : Name) :
    (k.derive names sources).storedAt? s = k.storedAt? s := rfl

@[simp] theorem storedAt?_learn (name s : Name) (e : Expr) :
    (k.learn name e).storedAt? s = k.storedAt? s := rfl

theorem value?_learn (name x : Name) (e : Expr) :
    (k.learn name e).value? x = if x = name then some e else k.value? x := by
  by_cases h : x = name
  · simp [learn, value?, h]
  · simp [learn, value?, Std.ExtTreeMap.getElem?_insert, h, Ne.symm h]

theorem linked_derive {names sources : List Name} {x y : Name} :
    (k.derive names sources).provenance.sources.Linked x y ↔
      if x ∈ names then y ∈ sources else k.provenance.sources.Linked x y := by
  rw [derive]
  induction names generalizing k with
  | nil => simp
  | cons name names ih =>
      have ih := ih (k := { k with provenance := k.provenance.replace name sources })
      rw [List.foldl_cons, ih, Provenance.linked_replace]
      by_cases hmem : x ∈ names <;> by_cases hname : x = name <;> simp [hmem, hname]

theorem mirrored_derive (h : k.provenance.Mirrored) (names sources : List Name) :
    (k.derive names sources).provenance.Mirrored := by
  rw [derive]
  induction names generalizing k with
  | nil => exact h
  | cons name names ih =>
      exact ih (k := { k with provenance := k.provenance.replace name sources })
        (h.replace name sources)

/-- Whether an assignment of `e` to `names` makes the value of `x` known. -/
def Learns (dialect : Dialect) (names : List Name) (e : Expr) (x : Name) : Prop :=
  names = [x] ∧ (e.operations.all fun op => (dialect.effectsOf op).movable) = true ∧
    x ∉ e.reads

theorem learns_singleton_iff {name x : Name} {e : Expr} :
    Learns dialect [name] e x ↔ name = x ∧
      ((EffectSummary.ofExpr dialect e).movable &&
        !(EffectSummary.ofExpr dialect e).reads.contains name) = true := by
  rw [Bool.and_eq_true, EffectSummary.movable_ofExpr, Bool.not_eq_true', ← Bool.not_eq_true,
    List.contains_iff_mem, EffectSummary.mem_reads_ofExpr, Learns]
  constructor
  · rintro ⟨hname, hmovable, hreads⟩
    cases hname
    exact ⟨rfl, hmovable, hreads⟩
  · rintro ⟨rfl, hmovable, hreads⟩
    exact ⟨rfl, hmovable, hreads⟩

theorem Learns.assign_eq {names : List Name} {e : Expr} {x : Name}
    (h : Learns dialect names e x) :
    k.assign dialect names e =
      ((k.clear names).learn x e).derive names (EffectSummary.ofExpr dialect e).reads := by
  obtain rfl : names = [x] := h.1
  have hlearned := (learns_singleton_iff.1 h).2
  simp only [assign]
  rw [if_pos hlearned]

theorem assign_eq_of_not_learns {names : List Name} {e : Expr}
    (h : ∀ x, ¬ Learns dialect names e x) :
    k.assign dialect names e =
      (k.clear names).derive names (EffectSummary.ofExpr dialect e).reads := by
  unfold assign
  split
  next name =>
    have hlearned := fun hl => h name (learns_singleton_iff.2 ⟨rfl, hl⟩)
    simp only [if_neg hlearned]
  next => rfl

/-- After an assignment, a known value is the assigned one or was known before. -/
theorem value?_assign_eq_some {names : List Name} {e e' : Expr} {x : Name} :
    (k.assign dialect names e).value? x = some e' ↔
      (Learns dialect names e x ∧ e' = e) ∨
        (¬ Learns dialect names e x ∧ (k.clear names).value? x = some e') := by
  by_cases h : ∃ y, Learns dialect names e y
  · obtain ⟨y, hy⟩ := h
    rw [hy.assign_eq, value?_derive, value?_learn]
    by_cases hxy : x = y
    · subst hxy
      simp [hy, eq_comm]
    · have hx : ¬ Learns dialect names e x := fun hx =>
        hxy (List.cons.inj (hx.1.symm.trans hy.1)).1
      simp [hxy, hx]
  · have h := not_exists.1 h
    rw [assign_eq_of_not_learns h, value?_derive]
    simp [h x]

theorem storage_assign (names : List Name) (e : Expr) :
    (k.assign dialect names e).storage = (k.clear names).storage := by
  by_cases h : ∃ y, Learns dialect names e y
  · obtain ⟨y, hy⟩ := h
    rw [hy.assign_eq]
    rfl
  · rw [assign_eq_of_not_learns (not_exists.1 h)]
    rfl

theorem provenance_assign (names : List Name) (e : Expr) :
    (k.assign dialect names e).provenance =
      ((k.clear names).derive names (EffectSummary.ofExpr dialect e).reads).provenance := by
  by_cases h : ∃ y, Learns dialect names e y
  · obtain ⟨y, hy⟩ := h
    rw [hy.assign_eq]
    rfl
  · rw [assign_eq_of_not_learns (not_exists.1 h)]

theorem Coherent.assign (h : k.Coherent dialect) (names : List Name) (e : Expr) :
    (k.assign dialect names e).Coherent dialect := by
  have hcleared := h.clear names
  refine ⟨?_, ?_, ?_, ?_, ?_⟩
  · rw [provenance_assign]
    exact mirrored_derive hcleared.mirrored _ _
  · rw [storage_assign]
    exact hcleared.exact
  · intro x e' hx
    rcases value?_assign_eq_some.1 hx with ⟨⟨_, hmovable, _⟩, rfl⟩ | ⟨_, hx⟩
    · exact hmovable
    · exact hcleared.movable hx
  · intro x e' hx
    rcases value?_assign_eq_some.1 hx with ⟨⟨_, _, hreads⟩, rfl⟩ | ⟨_, hx⟩
    · exact hreads
    · exact hcleared.irreflexive hx
  · intro x e' hx y
    rw [provenance_assign, linked_derive]
    -- a value known from before belongs to another variable, whose edges stay
    rcases value?_assign_eq_some.1 hx with ⟨⟨rfl, _, _⟩, rfl⟩ | ⟨_, hx⟩
    · rw [if_pos List.mem_cons_self, EffectSummary.mem_reads_ofExpr]
    · rw [if_neg (h.not_mem_of_value?_clear hx).1, hcleared.linked_iff hx]

theorem value?_foldl_learn (names : List Name) (e : Expr) (k : Knowledge) (x : Name) :
    (names.foldl (fun k name => k.learn name e) k).value? x =
      if x ∈ names then some e else k.value? x := by
  induction names generalizing k with
  | nil => simp
  | cons name names ih =>
      rw [List.foldl_cons, ih, value?_learn]
      by_cases hmem : x ∈ names <;> by_cases hname : x = name <;> simp [hmem, hname]

theorem storage_foldl_learn (names : List Name) (e : Expr) (k : Knowledge) :
    (names.foldl (fun k name => k.learn name e) k).storage = k.storage := by
  induction names generalizing k with
  | nil => rfl
  | cons name names ih => rw [List.foldl_cons, ih, learn]

theorem provenance_foldl_learn (names : List Name) (e : Expr) (k : Knowledge) :
    (names.foldl (fun k name => k.learn name e) k).provenance = k.provenance := by
  induction names generalizing k with
  | nil => rfl
  | cons name names ih => rw [List.foldl_cons, ih, learn]

/-- After variables are set to zero, their values are known, and others as after clearing. -/
theorem value?_assignZero (names : List Name) (x : Name) :
    (k.assignZero names).value? x =
      if x ∈ names then some (.literal .zero) else (k.clear names).value? x := by
  rw [assignZero, value?_derive, value?_foldl_learn]

theorem storage_assignZero (names : List Name) :
    (k.assignZero names).storage = (k.clear names).storage :=
  storage_foldl_learn names _ _

theorem Coherent.assignZero (h : k.Coherent dialect) (names : List Name) :
    (k.assignZero names).Coherent dialect := by
  have hcleared := h.clear names
  have hcases : ∀ {x e}, (k.assignZero names).value? x = some e →
      (x ∈ names ∧ e = .literal .zero) ∨ (x ∉ names ∧ (k.clear names).value? x = some e) := by
    intro x e hx
    rw [value?_assignZero] at hx
    split at hx
    next hmem => exact .inl ⟨hmem, (Option.some.inj hx).symm⟩
    next hmem => exact .inr ⟨hmem, hx⟩
  refine ⟨?_, ?_, ?_, ?_, ?_⟩
  · refine mirrored_derive ?_ _ _
    rw [provenance_foldl_learn]
    exact hcleared.mirrored
  · rw [storage_assignZero]
    exact hcleared.exact
  · intro x e hx
    rcases hcases hx with ⟨_, rfl⟩ | ⟨_, hx⟩
    · simp [Expr.operations]
    · exact hcleared.movable hx
  · intro x e hx
    rcases hcases hx with ⟨_, rfl⟩ | ⟨_, hx⟩
    · simp [Expr.reads]
    · exact hcleared.irreflexive hx
  · intro x e hx y
    rw [Knowledge.assignZero, linked_derive, provenance_foldl_learn]
    rcases hcases hx with ⟨hmem, rfl⟩ | ⟨hmem, hx⟩
    · simp [hmem, Expr.reads]
    · rw [if_neg hmem, hcleared.linked_iff hx]

/-! ### Storage -/

/-- The knowledge with other facts about storage. -/
theorem Coherent.withStorage (h : k.Coherent dialect) {storage : TwoWayMap Name}
    (hexact : storage.Exact) : Coherent dialect { k with storage } where
  mirrored := h.mirrored
  exact := hexact
  movable hx := h.movable hx
  irreflexive hx := h.irreflexive hx
  linked_iff hx := h.linked_iff hx

theorem storedAt?_joinStorage_eq_some {before : TwoWayMap Name} {s v : Name} :
    (k.joinStorage before).storedAt? s = some v ↔
      k.storedAt? s = some v ∧ before.get? s = some v := by
  rw [joinStorage, storedAt?, TwoWayMap.get?_retain, Option.filter_eq_some_iff, beq_iff_eq]
  rfl

@[simp] theorem value?_joinStorage (before : TwoWayMap Name) (x : Name) :
    (k.joinStorage before).value? x = k.value? x := rfl

theorem Coherent.joinStorage (h : k.Coherent dialect) (before : TwoWayMap Name) :
    (k.joinStorage before).Coherent dialect :=
  h.withStorage (h.exact.retain _)

@[simp] theorem storedAt?_forgetStorage (s : Name) : k.forgetStorage.storedAt? s = none :=
  TwoWayMap.get?_clear k.storage s

@[simp] theorem value?_forgetStorage (x : Name) : k.forgetStorage.value? x = k.value? x := rfl

theorem Coherent.forgetStorage (h : k.Coherent dialect) : k.forgetStorage.Coherent dialect :=
  h.withStorage TwoWayMap.exact_empty

/-- The slots that a store may falsify, if no proof fails: those of the facts that are neither
about a slot proved different nor about a value proved equal. -/
theorem mem_falsified {prover : Simplifier} {slot value : Name} {facts : List (Name × Name)}
    {dropped : List Name} (h : falsified prover slot value facts = .ok dropped) {s : Name} :
    s ∈ dropped ↔ ∃ v, (s, v) ∈ facts ∧ mayFalsify prover slot value (s, v) = .ok true := by
  induction facts generalizing dropped with
  | nil =>
      cases h
      simp
  | cons fact facts ih =>
      obtain ⟨s', v'⟩ := fact
      rw [falsified] at h
      cases hfact : mayFalsify prover slot value (s', v') with
      | error e => rw [hfact] at h; cases h
      | ok mayBeFalse =>
          cases hrest : falsified prover slot value facts with
          | error e => rw [hfact, hrest] at h; cases h
          | ok rest =>
              rw [hfact, hrest] at h
              have hdropped : (if mayBeFalse then s' :: rest else rest) = dropped :=
                Except.ok.inj h
              have ih := ih hrest
              subst hdropped
              cases mayBeFalse <;> grind

/-- A store whose proofs do not fail drops what it may falsify and adds the stored value. -/
theorem store_eq_ok {prover : Simplifier} {slot value : Name} {k' : Knowledge}
    (h : k.store prover slot value = .ok k') :
    ∃ dropped, falsified prover slot value k.storage.entries = .ok dropped ∧
      k' = { k with storage := (dropped.foldl TwoWayMap.erase k.storage).set slot value } := by
  unfold store at h
  cases hdropped : falsified prover slot value k.storage.entries with
  | error e => rw [hdropped] at h; cases h
  | ok dropped =>
      rw [hdropped] at h
      cases h
      exact ⟨dropped, rfl, rfl⟩

/-- The facts about storage after a store: the stored value, and the facts that the store cannot
falsify. -/
theorem storedAt?_store_eq_some {prover : Simplifier} {slot value : Name} {k' : Knowledge}
    (h : k.store prover slot value = .ok k') {s v : Name} :
    k'.storedAt? s = some v ↔
      (s = slot ∧ v = value) ∨
        (s ≠ slot ∧ k.storedAt? s = some v ∧ mayFalsify prover slot value (s, v) ≠ .ok true) := by
  obtain ⟨dropped, hdropped, rfl⟩ := store_eq_ok h
  rw [storedAt?, TwoWayMap.get?_set, TwoWayMap.get?_foldl_erase]
  have hmem := mem_falsified hdropped (s := s)
  simp only [TwoWayMap.mem_entries] at hmem
  by_cases hs : s = slot
  · simp [hs, eq_comm]
  · rw [if_neg hs]
    grind [storedAt?]

theorem Coherent.store (h : k.Coherent dialect) {prover : Simplifier} {slot value : Name}
    {k' : Knowledge} (hk' : k.store prover slot value = .ok k') : k'.Coherent dialect := by
  obtain ⟨dropped, _, rfl⟩ := store_eq_ok hk'
  exact h.withStorage ((h.exact.foldl_erase dropped).set slot value)

theorem value?_store {prover : Simplifier} {slot value : Name} {k' : Knowledge}
    (hk' : k.store prover slot value = .ok k') (x : Name) : k'.value? x = k.value? x := by
  obtain ⟨_, _, rfl⟩ := store_eq_ok hk'
  rfl

/-! ### The executable test -/

/-- The executable test passes on coherent knowledge. -/
theorem Coherent.check (h : k.Coherent dialect) : k.check = .ok () := by
  rw [Knowledge.check, h.mirrored.check]
  exact h.exact.check

end StorageFlow.Knowledge
