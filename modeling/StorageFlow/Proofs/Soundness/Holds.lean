import StorageFlow.Proofs.Knowledge.Facts
import StorageFlow.Proofs.Rewriting.Comparison
import StorageFlow.Proofs.Semantics.Frame

/-!
# StorageFlow.Proofs.Soundness.Holds

What knowledge says about the variables and the storage of a run.

* `Knowledge.Holds` — all known values and, where they are to be trusted, all facts about storage
  are true.
* `Knowledge.Sub`, `Knowledge.Avoids` — one knowledge is part of another; knowledge does not mention
  some variables.
* `Holds.mono`, `Holds.frame` — part of what holds, and what holds after changes elsewhere.
* `Holds.assign`, `Holds.assignZero`, `Holds.store` — what holds behind assignments and stores.

Facts about storage depend on what rules prove of variables, so they are trusted only with standard
rules; known values never depend on rules.
-/

namespace StorageFlow.Knowledge

variable {dialect : Dialect} {W : Type} {M : Model dialect W} {trusted : Prop}
variable {k k' : Knowledge} {env env' : Env} {m m' : Machine W}

/-- The known values of variables are true, but for those of some variables. -/
def ValuesHold (k : Knowledge) (M : Model dialect W) (except : List Name) (env : Env) : Prop :=
  ∀ x e, k.value? x = some e → x ∉ except →
    ∃ word, env x = some word ∧ e.valueIn M env = some word

/-- The facts about storage are true. -/
def StorageHolds (k : Knowledge) (env : Env) (m : Machine W) : Prop :=
  ∀ slot value, k.storedAt? slot = some value →
    ∃ word, env slot = some word ∧ env value = some (m.storage word)

/-- Everything that is known is true; what is known about storage only if it is trusted. -/
structure Holds (k : Knowledge) (M : Model dialect W) (trusted : Prop) (env : Env)
    (m : Machine W) : Prop where
  values : k.ValuesHold M [] env
  stored : trusted → k.StorageHolds env m

/-- No more is known in `k` than in `k'`. -/
structure Sub (k k' : Knowledge) : Prop where
  values : ∀ {x e}, k.value? x = some e → k'.value? x = some e
  stored : ∀ {slot value}, k.storedAt? slot = some value → k'.storedAt? slot = some value

/-- No fact mentions one of `names`. -/
structure Avoids (k : Knowledge) (names : List Name) : Prop where
  values : ∀ {x e}, k.value? x = some e → x ∉ names ∧ ∀ y ∈ e.reads, y ∉ names
  stored : ∀ {slot value}, k.storedAt? slot = some value → slot ∉ names ∧ value ∉ names

theorem Sub.of_eq (h : k = k') : k.Sub k' :=
  h ▸ ⟨id, id⟩

theorem Sub.trans {k'' : Knowledge} (h : k.Sub k') (h' : k'.Sub k'') : k.Sub k'' where
  values hx := h'.values (h.values hx)
  stored hs := h'.stored (h.stored hs)

theorem sub_clear (names : List Name) : (k.clear names).Sub k where
  values hx := (value?_of_clear hx).1
  stored hs := storedAt?_of_clear hs

theorem sub_joinStorage (before : TwoWayMap Name) : (k.joinStorage before).Sub k where
  values hx := hx
  stored hs := (storedAt?_joinStorage_eq_some.1 hs).1

theorem sub_forgetStorage : k.forgetStorage.Sub k where
  values hx := hx
  stored hs := by simp at hs

theorem ValuesHold.mono {except : List Name} (h : k'.ValuesHold M except env) (hsub : k.Sub k') :
    k.ValuesHold M except env :=
  fun x e hx => h x e (hsub.values hx)

theorem Avoids.of_sub {names : List Name} (h : k'.Avoids names) (hsub : k.Sub k') :
    k.Avoids names where
  values hx := h.values (hsub.values hx)
  stored hs := h.stored (hsub.stored hs)

theorem avoids_nil (k : Knowledge) : k.Avoids [] :=
  ⟨fun _ => by simp, fun _ => by simp⟩

/-- Cleared variables are not mentioned any more. -/
theorem Coherent.avoids_clear (h : k.Coherent dialect) (names : List Name) :
    (k.clear names).Avoids names where
  values hx := h.not_mem_of_value?_clear hx
  stored hs := by
    obtain ⟨_, hslot, hvalue⟩ := h.storedAt?_clear_eq_some.1 hs
    exact ⟨fun hmem => hslot (.of_mem hmem), fun hmem => hvalue (.of_mem hmem)⟩

/-- What is part of something true is true. -/
theorem Holds.mono (h : k'.Holds M trusted env m) (hsub : k.Sub k') : k.Holds M trusted env m where
  values x e hx := h.values x e (hsub.values hx)
  stored htrusted _ _ hs := h.stored htrusted _ _ (hsub.stored hs)

/-- Knowledge stays true when variables change that it does not mention, and storage only if nothing
is known about it. -/
theorem Holds.frame {names : List Name} (h : k.Holds M trusted env m) (havoids : k.Avoids names)
    (henv : ∀ x, x ∉ names → env' x = env x)
    (hstorage : (∀ slot, k.storedAt? slot = none) ∨ m'.storage = m.storage) :
    k.Holds M trusted env' m' where
  values x e hx hmem := by
    obtain ⟨word, hword, hvalue⟩ := h.values x e hx hmem
    obtain ⟨hx, hreads⟩ := havoids.values hx
    refine ⟨word, (henv x hx).trans hword, ?_⟩
    rw [← hvalue]
    exact e.valueIn_congr fun y hy => henv y (hreads y hy)
  stored htrusted slot value hs := by
    rcases hstorage with hnone | hsame
    · cases (hnone slot).symm.trans hs
    · obtain ⟨word, hslot, hvalue⟩ := h.stored htrusted _ _ hs
      obtain ⟨hs, hv⟩ := havoids.stored hs
      exact ⟨word, (henv slot hs).trans hslot, by rw [henv value hv, hvalue, hsame]⟩

/-- A machine with the same storage makes no difference. -/
theorem Holds.of_storage_eq (h : k.Holds M trusted env m)
    (hstorage : (∀ slot, k.storedAt? slot = none) ∨ m'.storage = m.storage) :
    k.Holds M trusted env m' :=
  h.frame (avoids_nil k) (fun _ _ => rfl) hstorage

theorem holds_empty : Holds ∅ M trusted env m where
  values _ _ hx := by simp at hx
  stored _ _ _ hs := by simp at hs

/-! ### Assignments -/

/-- Behind an assignment, what is known of other variables and the assigned value are true. -/
theorem Holds.assign (hk : k.Coherent dialect) (h : k.Holds M trusted env m) {names : List Name}
    {e : Expr} {words : List Word} (hlength : words.length = names.length)
    (hvalue : Expr.AllMovable dialect e.operations → ∀ word, words = [word] →
      e.valueIn M env = some word) :
    (k.assign dialect names e).Holds M trusted (env.bindAll names words) m := by
  have hcleared : (k.clear names).Holds M trusted (env.bindAll names words) m :=
    (h.mono (sub_clear names)).frame (hk.avoids_clear names)
      (fun x hx => Env.bindAll_of_not_mem hx) (.inr rfl)
  refine ⟨fun x e' hx hmem => ?_, fun htrusted slot value hs => ?_⟩
  · rcases value?_assign_eq_some.1 hx with ⟨⟨rfl, hmovable, hreads⟩, rfl⟩ | ⟨_, hx⟩
    · obtain ⟨word, rfl⟩ := List.length_eq_one_iff.1 hlength
      refine ⟨word, if_pos rfl, ?_⟩
      -- the value does not read the assigned variable, so it has the same word behind it
      rw [← hvalue hmovable word rfl]
      refine e'.valueIn_congr fun y hy => Env.bindAll_of_not_mem ?_
      rintro hmem
      exact hreads (List.mem_singleton.1 hmem ▸ hy)
    · exact hcleared.values _ _ hx hmem
  · rw [storedAt?, storage_assign] at hs
    exact hcleared.stored htrusted _ _ hs

theorem valueIn_zero : (Expr.literal .zero).valueIn M env = some 0 :=
  congrArg some (M.literal_of_toNat? (Literal.toNat?_number (by decide)))

/-- Behind a declaration without a value, the declared variables are zero. -/
theorem Holds.assignZero (hk : k.Coherent dialect) (h : k.Holds M trusted env m)
    (names : List Name) : (k.assignZero names).Holds M trusted (env.bindZeros names) m := by
  have hcleared : (k.clear names).Holds M trusted (env.bindZeros names) m :=
    (h.mono (sub_clear names)).frame (hk.avoids_clear names)
      (fun x hx => Env.bindZeros_of_not_mem hx) (.inr rfl)
  refine ⟨fun x e hx hmem => ?_, fun htrusted slot value hs => ?_⟩
  · rw [value?_assignZero] at hx
    split at hx
    next hname =>
      cases hx
      exact ⟨0, Env.bindZeros_of_mem hname, valueIn_zero⟩
    next => exact hcleared.values _ _ hx hmem
  · rw [storedAt?, storage_assignZero] at hs
    exact hcleared.stored htrusted _ _ hs

/-! ### Stores -/

/-- Behind a store, the stored value and what the store cannot falsify are true. -/
theorem Holds.store {prover : Simplifier} (hprover : prover.known = k.values)
    (hrules : trusted → ∀ rule ∈ prover.rules, rule ∈ RuleTable.standard)
    (h : k.Holds M trusted env m) {slot value : Name} {a b : Word} (hslot : env slot = some a)
    (hvalue : env value = some b)
    (hstorage : m'.storage = fun word => if word = a then b else m.storage word)
    (hstore : k.store prover slot value = .ok k') : k'.Holds M trusted env m' := by
  have hknows : prover.Knows M env := fun x e hx => by
    rw [hprover] at hx
    exact h.values _ _ hx List.not_mem_nil
  refine ⟨fun x e hx hmem => ?_, fun htrusted s v hs => ?_⟩
  · rw [value?_store hstore] at hx
    exact h.values _ _ hx hmem
  · have hrules := hrules htrusted
    have hsame : m'.storage a = b := by
      rw [hstorage]
      exact if_pos rfl
    have hother : ∀ word, word ≠ a → m'.storage word = m.storage word := by
      intro word hne
      rw [hstorage]
      exact if_neg hne
    rcases (storedAt?_store_eq_some hstore).1 hs with ⟨rfl, rfl⟩ | ⟨hne, hs, hkept⟩
    · exact ⟨a, hslot, by rw [hsame, hvalue]⟩
    · obtain ⟨word, hword, hv⟩ := h.stored htrusted _ _ hs
      refine ⟨word, hword, ?_⟩
      obtain ⟨different, hdifferent⟩ := Simplifier.provablyDifferent_ok hrules s slot
      obtain ⟨equal, hequal⟩ := Simplifier.provablyEqual_ok hrules v value
      rw [mayFalsify, if_neg hne, hdifferent, hequal] at hkept
      -- a fact is kept if its slot is another one, or if the store writes the same word there
      cases different with
      | true =>
          have hwords := Simplifier.ne_of_provablyDifferent hknows hrules hword hslot hdifferent
          rw [hother word hwords, hv]
      | false =>
          cases equal with
          | true =>
              obtain rfl := Simplifier.eq_of_provablyEqual hknows hrules hv hvalue hequal
              by_cases hword : word = a
              · rw [hword, hsame, hv]
              · rw [hother word hword, hv]
          | false => exact absurd rfl hkept

end StorageFlow.Knowledge
