import StorageFlow.Proofs.Knowledge.Mentions

/-!
# StorageFlow.Proofs.Knowledge.Clearing

Clearing variables, and clearing more of them.

* `Knowledge.Arises` — the knowledge that comes from none by the changes that analyses make.
* `Knowledge.Lacks` — knowledge without the facts about some variables, and with all others.
* `Lacks.unique`, `Lacks.trans` — there is only one such knowledge, and what is dropped first and
  later may be dropped at once.
* `Knowledge.clearing_exact` — clearing drops the facts about the variables that are affected and no
  others, in any order and any number of times.

Only the variables that were computed from a cleared one go with it, not those that were computed
from these in turn. So a later clearing finds other dependents than an earlier one, and composes
with it only because the dependents that it no longer finds are dropped already.
-/

namespace StorageFlow.Knowledge

variable {dialect : Dialect} {k k' k'' : Knowledge} {names more : List Name}

/-- The knowledge that arises from none by the changes that analyses make, with any rules and
within any bounds. -/
inductive Arises (dialect : Dialect) : Knowledge → Prop
  | empty : Arises dialect ∅
  | clear {k : Knowledge} (names : List Name) (h : Arises dialect k) :
      Arises dialect (k.clear names)
  | assign {k : Knowledge} (names : List Name) (e : Expr) (h : Arises dialect k) :
      Arises dialect (k.assign dialect names e)
  | assignZero {k : Knowledge} (names : List Name) (h : Arises dialect k) :
      Arises dialect (k.assignZero names)
  | store {k k' : Knowledge} {slot value : Name} (rules : RuleTable) (limits : Limits)
      (h : Arises dialect k)
      (hstore : k.store ⟨dialect, rules, limits, k.values⟩ slot value = .ok k') :
      Arises dialect k'
  | joinStorage {k : Knowledge} (before : TwoWayMap Name) (h : Arises dialect k) :
      Arises dialect (k.joinStorage before)
  | forgetStorage {k : Knowledge} (h : Arises dialect k) : Arises dialect k.forgetStorage

theorem Arises.coherent (h : k.Arises dialect) : k.Coherent dialect := by
  induction h with
  | empty => exact coherent_empty
  | clear names _ ih => exact ih.clear names
  | assign names e _ ih => exact ih.assign names e
  | assignZero names _ ih => exact ih.assignZero names
  | store _ _ _ hstore ih => exact ih.store hstore
  | joinStorage before _ ih => exact ih.joinStorage before
  | forgetStorage _ ih => exact ih.forgetStorage

/-! ### Dropping variables -/

/-- `k'` is `k` without the facts about the variables in `dropped`: their values, their sources and
the storage facts that mention them. Both indexes of `k'` are exact. -/
structure Lacks (k : Knowledge) (dropped : Name → Prop) (k' : Knowledge) : Prop where
  value : ∀ {x e}, k'.value? x = some e ↔ k.value? x = some e ∧ ¬ dropped x
  linked : ∀ {x y}, k'.provenance.sources.Linked x y ↔
    k.provenance.sources.Linked x y ∧ ¬ dropped x
  stored : ∀ {slot value}, k'.storedAt? slot = some value ↔
    k.storedAt? slot = some value ∧ ¬ dropped slot ∧ ¬ dropped value
  mirrored : k'.provenance.Mirrored
  exact : k'.storage.Exact

namespace Lacks

variable {dropped dropped' : Name → Prop}

theorem congr (h : k.Lacks dropped k') (hsame : ∀ x, dropped x ↔ dropped' x) :
    k.Lacks dropped' k' := by
  obtain rfl : dropped = dropped' := funext fun x => propext (hsame x)
  exact h

/-- The indexes of knowledge are determined by the facts that they hold. -/
theorem unique (h : k.Lacks dropped k') (h' : k.Lacks dropped k'') : k' = k'' := by
  obtain ⟨values, ⟨sources, dependents⟩, storage⟩ := k'
  obtain ⟨values', ⟨sources', dependents'⟩, storage'⟩ := k''
  have hlinked : ∀ x y, sources.Linked x y ↔ sources'.Linked x y := fun x y =>
    h.linked.trans h'.linked.symm
  obtain rfl : values = values' := Std.ExtTreeMap.ext_getElem? fun x =>
    Option.ext fun e => h.value.trans h'.value.symm
  obtain rfl : storage = storage' := h.exact.ext h'.exact fun slot =>
    Option.ext fun value => h.stored.trans h'.stored.symm
  obtain rfl : sources = sources' := h.mirrored.sources_filled.ext h'.mirrored.sources_filled
    hlinked
  obtain rfl : dependents = dependents' :=
    h.mirrored.dependents_filled.ext h'.mirrored.dependents_filled fun y x => by
      rw [← h.mirrored.linked_iff x y, ← h'.mirrored.linked_iff x y]
  rfl

/-- What is dropped in two steps may be dropped at once. -/
theorem trans (h : k.Lacks dropped k') (h' : k'.Lacks dropped' k'') :
    k.Lacks (fun x => dropped x ∨ dropped' x) k'' where
  value := by
    intro x e
    rw [h'.value, h.value, not_or, and_assoc]
  linked := by
    intro x y
    rw [h'.linked, h.linked, not_or, and_assoc]
  stored := by
    intro slot value
    rw [h'.stored, h.stored, not_or, not_or]
    constructor
    · rintro ⟨⟨hfact, hslot, hvalue⟩, hslot', hvalue'⟩
      exact ⟨hfact, ⟨hslot, hslot'⟩, hvalue, hvalue'⟩
    · rintro ⟨hfact, ⟨hslot, hslot'⟩, hvalue, hvalue'⟩
      exact ⟨⟨hfact, hslot, hvalue⟩, hslot', hvalue'⟩
  mirrored := h'.mirrored
  exact := h'.exact

end Lacks

/-! ### Clearing -/

namespace Coherent

variable (h : k.Coherent dialect)

include h

theorem lacks_clear (names : List Name) : k.Lacks (k.Affected names) (k.clear names) where
  value := h.value?_clear_eq_some
  linked := h.linked_clear
  stored := h.storedAt?_clear_eq_some
  mirrored := (h.clear names).mirrored
  exact := (h.clear names).exact

/-- Only which names are cleared matters, not their order or how often they are listed. -/
theorem clear_congr (hsame : ∀ x, x ∈ names ↔ x ∈ more) : k.clear names = k.clear more := by
  refine (h.lacks_clear names).unique ((h.lacks_clear more).congr fun x => ?_)
  simp only [Affected, hsame]

/-- Variables are affected by one clearing or by the other if they are affected by both at once. A
variable that was computed from one of the later names has lost its sources only if it was affected
before. -/
theorem affected_clear_iff (x : Name) :
    k.Affected names x ∨ (k.clear names).Affected more x ↔ k.Affected (names ++ more) x := by
  rw [affected_append]
  by_cases hx : k.Affected names x
  · simp [hx]
  · have hlinked (y : Name) : (k.clear names).provenance.sources.Linked x y ↔
        k.provenance.sources.Linked x y := h.linked_clear.trans (and_iff_left hx)
    rw [or_iff_right hx, or_iff_right hx]
    simp only [Affected, hlinked]

theorem clear_clear (names more : List Name) :
    (k.clear names).clear more = k.clear (names ++ more) := by
  have htwice := (h.lacks_clear names).trans ((h.clear names).lacks_clear more)
  exact (htwice.congr h.affected_clear_iff).unique (h.lacks_clear (names ++ more))

end Coherent

/-! ### What is left of the parts -/

theorem sources?_foldl_forget (names : List Name) (k : Knowledge) (x : Name) :
    (names.foldl forget k).sources? x = if x ∈ names then none else k.sources? x := by
  induction names generalizing k with
  | nil => simp
  | cons name names ih =>
      rw [List.foldl_cons, ih]
      by_cases hx : x = name
      · simp [hx, forget, sources?, Provenance.remove]
      · simp [hx, forget, sources?, Provenance.remove, Std.ExtTreeMap.getElem?_erase, Ne.symm hx]

theorem value?_foldl_forget (names : List Name) (k : Knowledge) (x : Name) :
    (names.foldl forget k).value? x = if x ∈ names then none else k.value? x := by
  refine Option.ext fun e => ?_
  rw [value?_foldl_forget_eq_some]
  by_cases hx : x ∈ names <;> simp [hx]

theorem Coherent.clear_of_affected (h : k.Coherent dialect) {x : Name}
    (hx : k.Affected names x) :
    (k.clear names).value? x = none ∧ (k.clear names).sources? x = none := by
  have hmem := (mem_cleared h.mirrored).2 hx
  rw [Knowledge.clear, value?_foldl_forget, sources?_foldl_forget, if_pos hmem, if_pos hmem]
  exact ⟨rfl, rfl⟩

theorem Coherent.clear_of_not_affected (h : k.Coherent dialect) {x : Name}
    (hx : ¬ k.Affected names x) :
    (k.clear names).value? x = k.value? x ∧ (k.clear names).sources? x = k.sources? x := by
  have hmem : x ∉ names ++ k.provenance.dependentsOf names := fun hmem =>
    hx ((mem_cleared h.mirrored).1 hmem)
  rw [Knowledge.clear, value?_foldl_forget, sources?_foldl_forget, if_neg hmem, if_neg hmem]
  exact ⟨rfl, rfl⟩

/-- Clearing is exact. Values and sources of the variables that are cleared or were computed from
one of these are gone, and those of all others are as before. The two directions of the provenance
agree and hold no empty set. The facts about storage that remain are those whose slot and value are
not affected. No part of the knowledge mentions a cleared variable any more. What is cleared in two
steps may be cleared in the other order, or at once in any order and with repetitions; so a second
clearing of the same variables changes nothing. -/
theorem clearing_exact (h : k.Arises dialect) (names more : List Name) :
    let cleared := k.clear names
    (∀ x, k.Affected names x → cleared.value? x = none ∧ cleared.sources? x = none) ∧
      (∀ x, ¬ k.Affected names x →
        cleared.value? x = k.value? x ∧ cleared.sources? x = k.sources? x) ∧
      cleared.provenance.Mirrored ∧
      (∀ slot value, cleared.storedAt? slot = some value ↔
        k.storedAt? slot = some value ∧ ¬ k.Affected names slot ∧ ¬ k.Affected names value) ∧
      cleared.storage.Exact ∧
      (∀ x ∈ names, ¬ cleared.Mentions x) ∧
      cleared.clear more = (k.clear more).clear names ∧
      (∀ all : List Name, (∀ x, x ∈ all ↔ x ∈ names ∨ x ∈ more) →
        cleared.clear more = k.clear all) ∧
      cleared.clear names = cleared := by
  intro cleared
  have hcoherent := h.coherent
  have hcleared : cleared.Coherent dialect := hcoherent.clear names
  have hunion (all : List Name) (hall : ∀ x, x ∈ all ↔ x ∈ names ∨ x ∈ more) :
      cleared.clear more = k.clear all := by
    rw [hcoherent.clear_clear]
    exact hcoherent.clear_congr fun x => by rw [List.mem_append, hall]
  refine ⟨fun x => hcoherent.clear_of_affected, fun x => hcoherent.clear_of_not_affected,
    hcleared.mirrored, fun slot value => hcoherent.storedAt?_clear_eq_some, hcleared.exact,
    fun x hx hmentions => (hcoherent.of_mentions_clear hmentions).2 hx, ?_, hunion, ?_⟩
  · rw [hcoherent.clear_clear more names]
    exact hunion _ fun x => by rw [List.mem_append, or_comm]
  · rw [hcoherent.clear_clear]
    exact hcoherent.clear_congr fun x => by rw [List.mem_append, or_self]

/-- A word, a copy of it, and a copy of the copy. -/
def copyOfCopy : Knowledge :=
  (((empty.assign BuiltinTable.evm.toDialect ["word"] (.native .calldataload [.number 0])).assign
    BuiltinTable.evm.toDialect ["copy"] (.ofName "word")).assign
      BuiltinTable.evm.toDialect ["again"] (.ofName "copy"))

theorem arises_copyOfCopy : Arises BuiltinTable.evm.toDialect copyOfCopy :=
  .assign _ _ (.assign _ _ (.assign _ _ .empty))

/-- The second copy outlives the word, and goes with the first one. -/
theorem clearing_exact_copyOfCopy :
    let cleared := copyOfCopy.clear ["word"]
    copyOfCopy.Arises BuiltinTable.evm.toDialect ∧
      copyOfCopy.Affected ["word"] "copy" ∧ ¬ copyOfCopy.Affected ["word"] "again" ∧
      cleared.value? "copy" = none ∧ cleared.value? "again" = some (.ofName "copy") ∧
      cleared.clear ["copy"] = copyOfCopy.clear ["copy", "word", "copy"] ∧
      (cleared.clear ["copy"]).value? "again" = none := by
  intro cleared
  obtain ⟨hgone, hkept, _, _, _, _, _, hunion, _⟩ :=
    clearing_exact arises_copyOfCopy ["word"] ["copy"]
  have hcopy : copyOfCopy.Affected ["word"] "copy" := .inr ⟨"word", by simp, by decide +kernel⟩
  have hagain : ¬ copyOfCopy.Affected ["word"] "again" := by
    have hlinked : ¬ copyOfCopy.provenance.sources.Linked "again" "word" := by decide +kernel
    simp [Affected, hlinked]
  have htwice := hunion ["copy", "word", "copy"] (by simp [or_comm])
  refine ⟨arises_copyOfCopy, hcopy, hagain, (hgone _ hcopy).1, ?_, htwice, by decide +kernel⟩
  exact (hkept _ hagain).1.trans (by decide +kernel)

end StorageFlow.Knowledge
