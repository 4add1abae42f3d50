import StorageFlow.Knowledge.Storage
import StorageFlow.Proofs.Rewriting.Erasure

/-!
# StorageFlow.Proofs.Knowledge.Erasure

Changes of the knowledge do not depend on source locations.

* `Knowledge.withoutSpans` — the knowledge with source locations erased in its values.
* `Knowledge.clear_withoutSpans`, `assign_withoutSpans`, `store_withoutSpans`, … — each change of
  the knowledge without source locations is that change, and then the erasure.
-/

namespace StorageFlow

namespace NameMap

variable (values : NameMap Expr) (x : Name)

theorem erase_withoutSpans : values.withoutSpans.erase x = withoutSpans (values.erase x) :=
  Std.ExtTreeMap.ext_getElem? fun y => by
    rw [Std.ExtTreeMap.getElem?_erase, getElem?_withoutSpans, getElem?_withoutSpans,
      Std.ExtTreeMap.getElem?_erase]
    split <;> rfl

theorem insert_withoutSpans (e : Expr) :
    values.withoutSpans.insert x e.withoutSpans = withoutSpans (values.insert x e) :=
  Std.ExtTreeMap.ext_getElem? fun y => by
    rw [Std.ExtTreeMap.getElem?_insert, getElem?_withoutSpans, getElem?_withoutSpans,
      Std.ExtTreeMap.getElem?_insert]
    split <;> rfl

end NameMap

namespace Knowledge

/-- The knowledge with source locations erased in its values. -/
def withoutSpans (k : Knowledge) : Knowledge :=
  { k with values := k.values.withoutSpans }

variable {k : Knowledge}

@[simp] theorem withoutSpans_empty : withoutSpans ∅ = ∅ := by
  have hvalues : NameMap.withoutSpans ∅ = ∅ := Std.ExtTreeMap.ext_getElem? fun x => by
    rw [NameMap.getElem?_withoutSpans, Std.ExtTreeMap.getElem?_empty, Option.map_none]
  exact congrArg (Knowledge.mk · ∅ ∅) hvalues

theorem value?_withoutSpans (x : Name) :
    k.withoutSpans.value? x = (k.value? x).map Expr.withoutSpans :=
  k.values.getElem?_withoutSpans x

/-! ### Variables -/

theorem forget_withoutSpans (name : Name) :
    k.withoutSpans.forget name = (k.forget name).withoutSpans :=
  congrArg (Knowledge.mk · _ _) (k.values.erase_withoutSpans name)

theorem foldl_forget_withoutSpans (names : List Name) (k : Knowledge) :
    names.foldl forget k.withoutSpans = (names.foldl forget k).withoutSpans := by
  induction names generalizing k with
  | nil => rfl
  | cons name names ih => rw [List.foldl_cons, forget_withoutSpans, ih, List.foldl_cons]

@[simp] theorem clear_withoutSpans (names : List Name) :
    k.withoutSpans.clear names = (k.clear names).withoutSpans :=
  foldl_forget_withoutSpans _ k

theorem learn_withoutSpans (name : Name) (e : Expr) :
    k.withoutSpans.learn name e.withoutSpans = (k.learn name e).withoutSpans :=
  congrArg (Knowledge.mk · _ _) (k.values.insert_withoutSpans name e)

theorem foldl_learn_withoutSpans (names : List Name) (e : Expr) (k : Knowledge) :
    names.foldl (fun k name => k.learn name e.withoutSpans) k.withoutSpans =
      (names.foldl (fun k name => k.learn name e) k).withoutSpans := by
  induction names generalizing k with
  | nil => rfl
  | cons name names ih => rw [List.foldl_cons, learn_withoutSpans, ih, List.foldl_cons]

theorem derive_withoutSpans (names sources : List Name) :
    k.withoutSpans.derive names sources = (k.derive names sources).withoutSpans := rfl

@[simp] theorem assign_withoutSpans (dialect : Dialect) (names : List Name) (e : Expr) :
    k.withoutSpans.assign dialect names e.withoutSpans =
      (k.assign dialect names e).withoutSpans := by
  simp only [assign, EffectSummary.ofExpr_withoutSpans, clear_withoutSpans]
  split
  next name =>
    split
    · rw [learn_withoutSpans, derive_withoutSpans]
    · rw [derive_withoutSpans]
  next => rw [derive_withoutSpans]

@[simp] theorem assignZero_withoutSpans (names : List Name) :
    k.withoutSpans.assignZero names = (k.assignZero names).withoutSpans := by
  have hzeroed := foldl_learn_withoutSpans names (.literal .zero) (k.clear names)
  rw [assignZero, clear_withoutSpans]
  exact congrArg (derive · names []) hzeroed

/-! ### Storage -/

@[simp] theorem joinStorage_withoutSpans (before : TwoWayMap Name) :
    k.withoutSpans.joinStorage before = (k.joinStorage before).withoutSpans := rfl

@[simp] theorem forgetStorage_withoutSpans :
    k.withoutSpans.forgetStorage = k.forgetStorage.withoutSpans := rfl

theorem mayFalsify_withoutSpans {prover : Simplifier} (h : prover.rules.IgnoresSpans)
    (slot value : Name) (fact : Name × Name) :
    mayFalsify prover.withoutSpans slot value fact = mayFalsify prover slot value fact := by
  simp only [mayFalsify, Simplifier.provablyDifferent_withoutSpans h,
    Simplifier.provablyEqual_withoutSpans h]

theorem falsified_withoutSpans {prover : Simplifier} (h : prover.rules.IgnoresSpans)
    (slot value : Name) (facts : List (Name × Name)) :
    falsified prover.withoutSpans slot value facts = falsified prover slot value facts := by
  induction facts with
  | nil => rfl
  | cons fact facts ih => rw [falsified, mayFalsify_withoutSpans h, ih, falsified]

theorem store_withoutSpans {prover : Simplifier} (h : prover.rules.IgnoresSpans)
    (slot value : Name) :
    k.withoutSpans.store prover.withoutSpans slot value =
      (k.store prover slot value).map withoutSpans := by
  unfold store
  rw [falsified_withoutSpans h, show k.withoutSpans.storage = k.storage from rfl]
  cases falsified prover slot value k.storage.entries <;> rfl

end Knowledge

end StorageFlow
