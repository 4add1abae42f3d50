import StorageFlow.Proofs.Analysis.Reachable
import StorageFlow.Proofs.Knowledge.Clearing

/-!
# StorageFlow.Proofs.Analysis.Stores

Stores, and the facts about other slots that outlive them.

* `Knowledge.FailsOn` — a proof that a store asks for about a fact fails.
* `Knowledge.storeVisiting` — a store that visits the facts about storage in a given order.
* `storeVisiting_ok`, `storeVisiting_error` — it succeeds unless a proof about one of the facts
  fails, and fails with the error of such a proof.
* `storeVisiting_perm` — the knowledge behind it does not depend on the order.
* `Analysis.arises_preserved` — all knowledge of analyses arises by the changes that they make.
* `Analysis.store_keeps_unaliased` — what a store leaves behind, whether it succeeds or fails.
-/

namespace StorageFlow

namespace Knowledge

variable {dialect : Dialect} {prover : Simplifier} {slot value : Name} {fact : Name × Name}
variable {facts : List (Name × Name)} {k k' k'' : Knowledge} {error : Error}

/-- A proof fails that a store of `value` at `slot` asks for about a fact: that the slot of the fact
is another one or, where this was not proved, that its value is the same. -/
def FailsOn (prover : Simplifier) (slot value : Name) (fact : Name × Name) (error : Error) : Prop :=
  fact.1 ≠ slot ∧
    (prover.provablyDifferent fact.1 slot = .error error ∨
      prover.provablyDifferent fact.1 slot = .ok false ∧
        prover.provablyEqual fact.2 value = .error error)

theorem mayFalsify_eq_error_iff :
    mayFalsify prover slot value fact = .error error ↔ FailsOn prover slot value fact error := by
  unfold mayFalsify FailsOn
  by_cases hslot : fact.1 = slot
  · simp [hslot]
  · rw [if_neg hslot]
    rcases prover.provablyDifferent fact.1 slot with e | _ | _ <;>
      rcases prover.provablyEqual fact.2 value with e' | _ <;>
        simp [hslot, bind, Except.bind, pure, Except.pure]

/-- A store may falsify a fact if neither proof is found. -/
theorem mayFalsify_eq_true_iff :
    mayFalsify prover slot value fact = .ok true ↔ fact.1 ≠ slot ∧
      prover.provablyDifferent fact.1 slot = .ok false ∧
        prover.provablyEqual fact.2 value = .ok false := by
  unfold mayFalsify
  by_cases hslot : fact.1 = slot
  · simp [hslot]
  · rw [if_neg hslot]
    rcases prover.provablyDifferent fact.1 slot with e | _ | _ <;>
      rcases prover.provablyEqual fact.2 value with e' | _ <;>
        simp [hslot, bind, Except.bind, pure, Except.pure]

/-- Where no proof fails, a fact about another slot is kept if one of the proofs is found. -/
theorem mayFalsify_ne_true_iff (hslot : fact.1 ≠ slot)
    (hnot : ∀ error, ¬ FailsOn prover slot value fact error) :
    mayFalsify prover slot value fact ≠ .ok true ↔
      prover.provablyDifferent fact.1 slot = .ok true ∨
        prover.provablyEqual fact.2 value = .ok true := by
  rw [Ne, mayFalsify_eq_true_iff, and_iff_right hslot]
  cases hdifferent : prover.provablyDifferent fact.1 slot with
  | error e => exact absurd ⟨hslot, .inl hdifferent⟩ (hnot e)
  | ok different =>
      cases different with
      | true => simp
      | false =>
          cases hequal : prover.provablyEqual fact.2 value with
          | error e => exact absurd ⟨hslot, .inr ⟨hdifferent, hequal⟩⟩ (hnot e)
          | ok equal => cases equal <;> simp

theorem FailsOn.raises (h : FailsOn prover slot value fact error) :
    prover.rules.Raises prover.dialect error :=
  mayFalsify_error (mayFalsify_eq_error_iff.2 h)

/-! ### Visiting the facts about storage -/

/-- If the facts that a store may falsify are found, then no proof about any of them fails. -/
theorem not_failsOn_of_falsified {dropped : List Name}
    (h : falsified prover slot value facts = .ok dropped) (hfact : fact ∈ facts) :
    ¬ FailsOn prover slot value fact error := by
  induction facts generalizing dropped with
  | nil => cases hfact
  | cons first facts ih =>
      rw [falsified] at h
      cases hfirst : mayFalsify prover slot value first with
      | error e => rw [hfirst] at h; cases h
      | ok mayBeFalse =>
          cases hrest : falsified prover slot value facts with
          | error e => rw [hfirst, hrest] at h; cases h
          | ok rest =>
              rcases List.mem_cons.1 hfact with rfl | hfact
              · intro hfails
                rw [← mayFalsify_eq_error_iff, hfirst] at hfails
                cases hfails
              · exact ih hrest hfact

/-- If they are not found, then the proof about one of them failed with that error. -/
theorem exists_failsOn_of_falsified (h : falsified prover slot value facts = .error error) :
    ∃ fact ∈ facts, FailsOn prover slot value fact error := by
  induction facts with
  | nil => cases h
  | cons first facts ih =>
      rcases bind_eq_error h with hfirst | ⟨_, _, h⟩
      · exact ⟨first, List.mem_cons_self, mayFalsify_eq_error_iff.1 hfirst⟩
      · rcases bind_eq_error h with hrest | ⟨_, _, h⟩
        · obtain ⟨fact, hfact, hfails⟩ := ih hrest
          exact ⟨fact, List.mem_cons_of_mem _ hfact, hfails⟩
        · cases h

/-- A store that visits the given facts about storage, in their order. -/
def storeVisiting (k : Knowledge) (prover : Simplifier) (slot value : Name)
    (facts : List (Name × Name)) : Except Error Knowledge := do
  let dropped ← falsified prover slot value facts
  let kept := dropped.foldl TwoWayMap.erase k.storage
  return { k with storage := kept.set slot value }

/-- A store visits the facts in the order of their slots. -/
theorem store_eq_storeVisiting :
    k.store prover slot value = k.storeVisiting prover slot value k.storage.entries := rfl

theorem storeVisiting_eq_ok (h : k.storeVisiting prover slot value facts = .ok k') :
    ∃ dropped, falsified prover slot value facts = .ok dropped ∧
      k' = { k with storage := (dropped.foldl TwoWayMap.erase k.storage).set slot value } := by
  unfold storeVisiting at h
  cases hdropped : falsified prover slot value facts with
  | error e => rw [hdropped] at h; cases h
  | ok dropped =>
      rw [hdropped] at h
      cases h
      exact ⟨dropped, rfl, rfl⟩

theorem storeVisiting_eq_error (h : k.storeVisiting prover slot value facts = .error error) :
    ∃ fact ∈ facts, FailsOn prover slot value fact error := by
  rcases bind_eq_error h with hdropped | ⟨_, _, h⟩
  · exact exists_failsOn_of_falsified hdropped
  · cases h

/-- If no proof fails, then neither does the store. -/
theorem storeVisiting_ok (k : Knowledge)
    (h : ∀ fact ∈ facts, ∀ error, ¬ FailsOn prover slot value fact error) :
    ∃ k', k.storeVisiting prover slot value facts = .ok k' := by
  cases hstore : k.storeVisiting prover slot value facts with
  | ok k' => exact ⟨k', rfl⟩
  | error error =>
      obtain ⟨fact, hfact, hfails⟩ := storeVisiting_eq_error hstore
      exact absurd hfails (h fact hfact error)

/-- If some proof fails, then so does the store, though it may come to another failure first. -/
theorem storeVisiting_error (k : Knowledge) (hfact : fact ∈ facts)
    (h : FailsOn prover slot value fact error) :
    ∃ fact ∈ facts, ∃ error, FailsOn prover slot value fact error ∧
      k.storeVisiting prover slot value facts = .error error := by
  cases hstore : k.storeVisiting prover slot value facts with
  | ok k' =>
      obtain ⟨_, hdropped, _⟩ := storeVisiting_eq_ok hstore
      exact absurd h (not_failsOn_of_falsified hdropped hfact)
  | error error =>
      obtain ⟨fact, hfact, hfails⟩ := storeVisiting_eq_error hstore
      exact ⟨fact, hfact, error, hfails, rfl⟩

/-- Which facts are dropped does not depend on the order in which they are visited, and neither do
the two directions of the map without them. -/
theorem storeVisiting_congr (hexact : k.storage.Exact) {facts' : List (Name × Name)}
    (hsame : ∀ fact, fact ∈ facts ↔ fact ∈ facts')
    (h : k.storeVisiting prover slot value facts = .ok k')
    (h' : k.storeVisiting prover slot value facts' = .ok k'') : k' = k'' := by
  obtain ⟨dropped, hdropped, rfl⟩ := storeVisiting_eq_ok h
  obtain ⟨dropped', hdropped', rfl⟩ := storeVisiting_eq_ok h'
  have hmem (t : Name) : t ∈ dropped ↔ t ∈ dropped' := by
    simp only [mem_falsified hdropped, mem_falsified hdropped', hsame]
  have hstorage : (dropped.foldl TwoWayMap.erase k.storage).set slot value =
      (dropped'.foldl TwoWayMap.erase k.storage).set slot value := by
    refine ((hexact.foldl_erase dropped).set slot value).ext
      ((hexact.foldl_erase dropped').set slot value) fun t => ?_
    simp only [TwoWayMap.get?_set, TwoWayMap.get?_foldl_erase, hmem]
  rw [hstorage]

/-- In any order, the facts that are known beforehand lead to the same knowledge. -/
theorem storeVisiting_perm (hexact : k.storage.Exact)
    (h : k.store prover slot value = .ok k') (hperm : facts.Perm k.storage.entries) :
    k.storeVisiting prover slot value facts = .ok k' := by
  obtain ⟨dropped, hdropped, _⟩ := store_eq_ok h
  obtain ⟨k'', hstore⟩ := k.storeVisiting_ok fun fact hfact error =>
    not_failsOn_of_falsified hdropped (hperm.mem_iff.1 hfact)
  rw [hstore, storeVisiting_congr hexact (fun _ => hperm.mem_iff) hstore h]

/-- The facts about storage behind a store. Those about other slots remain that are about a slot
proved different or a value proved equal. -/
theorem storedAt?_store_iff (h : k.store prover slot value = .ok k') (t u : Name) :
    k'.storedAt? t = some u ↔ (t = slot ∧ u = value) ∨
      (t ≠ slot ∧ k.storedAt? t = some u ∧
        (prover.provablyDifferent t slot = .ok true ∨
          prover.provablyEqual u value = .ok true)) := by
  obtain ⟨_, hdropped, _⟩ := store_eq_ok h
  rw [storedAt?_store_eq_some h]
  refine or_congr_right (and_congr_right fun ht => and_congr_right fun hstored => ?_)
  have hfact : (t, u) ∈ k.storage.entries := TwoWayMap.mem_entries.2 hstored
  exact mayFalsify_ne_true_iff ht fun _ => not_failsOn_of_falsified hdropped hfact

end Knowledge

namespace Analysis

variable {σ α : Type} {context : Context} {s : State σ} {slot value : Name}

theorem attempt_store_of_ok {k : Knowledge} (node : α)
    (h : s.knowledge.store (context.simplifier s.knowledge) slot value = .ok k) :
    Step.attempt node s (s.store context slot value) = .done node { s with knowledge := k } := by
  rw [State.store, h]
  rfl

theorem attempt_store_of_error {error : Error} (node : α)
    (h : s.knowledge.store (context.simplifier s.knowledge) slot value = .error error) :
    Step.attempt node s (s.store context slot value) = .stopped node s error := by
  rw [State.store, h]
  rfl

/-- All that is known in the course of analyses arises by the changes that they make. -/
theorem arises_preserved (dialect : Dialect) : Preserved dialect (Knowledge.Arises dialect) := by
  rintro σ context hook rfl
  exact {
    empty := .empty
    clear := fun names h => h.clear names
    assign := fun names e h => h.assign names e
    assignZero := fun names h => h.assignZero names
    store := fun h hstore => h.store context.rules context.config.limits hstore
    joinStorage := fun before h => h.joinStorage before
    forgetStorage := fun h => h.forgetStorage
    call := fun _ _ => trivial }

/-- What a store leaves behind, with any rules and within any bounds. If no proof that it asks for
fails, the facts about storage behind it are the stored one and those about other slots that are
proved different or hold a value that is proved equal; nothing else changes, and any order in which
the earlier facts are visited leads to the same knowledge. If a proof fails, then the store fails
with the error of such a proof, which is that of a rule, and the state stays as it was; so it does
in any other order, if perhaps with the error of another proof. -/
theorem store_keeps_unaliased (context : Context) (h : s.knowledge.Arises context.dialect)
    (node : α) (slot value : Name) :
    let prover := context.simplifier s.knowledge
    let facts := s.knowledge.storage.entries
    let behind := Step.attempt node s (s.store context slot value)
    ((∀ fact ∈ facts, ∀ error, ¬ Knowledge.FailsOn prover slot value fact error) →
      (∀ t u, behind.state.knowledge.storedAt? t = some u ↔ (t = slot ∧ u = value) ∨
        (t ≠ slot ∧ s.knowledge.storedAt? t = some u ∧
          (prover.provablyDifferent t slot = .ok true ∨
            prover.provablyEqual u value = .ok true))) ∧
      (∃ storage : TwoWayMap Name, storage.Exact ∧
        behind = .done node { s with knowledge := { s.knowledge with storage } }) ∧
      ∀ visited : List (Name × Name), visited.Perm facts →
        s.knowledge.storeVisiting prover slot value visited = .ok behind.state.knowledge) ∧
    ((∃ fact ∈ facts, ∃ error, Knowledge.FailsOn prover slot value fact error) →
      (∃ fact ∈ facts, ∃ error, Knowledge.FailsOn prover slot value fact error ∧
        context.rules.Raises context.dialect error ∧ behind = .stopped node s error) ∧
      ∀ visited : List (Name × Name), visited.Perm facts →
        ∃ fact ∈ facts, ∃ error, Knowledge.FailsOn prover slot value fact error ∧
          s.knowledge.storeVisiting prover slot value visited = .error error) := by
  intro prover facts behind
  have hexact := h.coherent.exact
  constructor
  · intro hnone
    obtain ⟨k, hstore⟩ := s.knowledge.storeVisiting_ok hnone
    have hstore : s.knowledge.store prover slot value = .ok k :=
      Knowledge.store_eq_storeVisiting.trans hstore
    rw [show behind = .done node { s with knowledge := k } from attempt_store_of_ok node hstore]
    refine ⟨Knowledge.storedAt?_store_iff hstore, ⟨k.storage, ?_, ?_⟩, fun visited hperm =>
      Knowledge.storeVisiting_perm hexact hstore hperm⟩
    · exact (h.coherent.store hstore).exact
    · obtain ⟨_, _, rfl⟩ := Knowledge.store_eq_ok hstore
      rfl
  · rintro ⟨fact, hfact, error, hfails⟩
    constructor
    · obtain ⟨fact', hfact', error', hfails', hstore⟩ :=
        s.knowledge.storeVisiting_error hfact hfails
      have hstore : s.knowledge.store prover slot value = .error error' :=
        Knowledge.store_eq_storeVisiting.trans hstore
      exact ⟨fact', hfact', error', hfails', hfails'.raises, attempt_store_of_error node hstore⟩
    · intro visited hperm
      obtain ⟨fact', hfact', error', hfails', hstore⟩ :=
        s.knowledge.storeVisiting_error (hperm.mem_iff.2 hfact) hfails
      exact ⟨fact', hperm.mem_iff.1 hfact', error', hfails', hstore⟩

/-- A word that is stored twice, at a number and at an unknown slot, and another number. -/
def storesWordTwice : List Stmt :=
  [.declareAs ["one"] (some (.number 1)),
    .declareAs ["two"] (some (.number 2)),
    .declareAs ["word"] (some (.native .calldataload [.number 0])),
    .declareAs ["unknown"] (some (.native .calldataload [.number 32])),
    .eval (.native .sstore [.ofName "one", .ofName "word"]),
    .eval (.native .sstore [.ofName "unknown", .ofName "word"])]

/-- A rule that fails on every instruction. -/
def refusal : Rule where
  name := "refusal"
  apply _ _ _ := .error (.refused "no rule applies" .synthetic)

/-- Both facts are about slots other than the second number, but only one of them is proved so. With
rules that fail, the same store changes nothing. -/
theorem store_keeps_unaliased_wordTwice :
    let dialect := BuiltinTable.evm.toDialect
    let front := analyseStmts { dialect } (.idle : Hook Unit) storesWordTwice
      ((State.initial ()).openScope false)
    let behind := Step.attempt () front.state (front.state.store { dialect } "two" "unknown")
    let failed := Step.attempt () front.state
      (front.state.store { dialect, rules := [refusal] } "two" "unknown")
    front.state.knowledge.Arises dialect ∧
      front.state.knowledge.storage.entries = [("one", "word"), ("unknown", "word")] ∧
      behind.state.knowledge.storedAt? "one" = some "word" ∧
      behind.state.knowledge.storedAt? "unknown" ≠ some "word" ∧
      behind.state.knowledge.storedAt? "two" = some "unknown" ∧
      ∃ error, failed = .stopped () front.state error := by
  intro dialect front behind failed
  have hfront : front.error? = none := by decide +kernel
  have hat : AtStmt { dialect } .idle ⟨storesWordTwice ++ [.block .empty], .synthetic⟩
      (State.initial ()) (.block .empty) front.state := .mk hfront
  have harises : front.state.knowledge.Arises dialect :=
    (reachable_idle (.here hat)).known (arises_preserved dialect)
  have hentries : front.state.knowledge.storage.entries =
      [("one", "word"), ("unknown", "word")] := by decide +kernel
  have hone : front.state.knowledge.storedAt? "one" = some "word" :=
    TwoWayMap.mem_entries.1 (hentries ▸ List.mem_cons_self)
  have hdifferent : (Context.simplifier { dialect } front.state.knowledge).provablyDifferent
      "one" "two" = .ok true := by decide +kernel
  have hunproved : ¬ ((Context.simplifier { dialect } front.state.knowledge).provablyDifferent
        "unknown" "two" = .ok true ∨
      (Context.simplifier { dialect } front.state.knowledge).provablyEqual
        "word" "unknown" = .ok true) := by decide +kernel
  have hnone : ∀ fact ∈ front.state.knowledge.storage.entries, ∀ error,
      ¬ Knowledge.FailsOn (Context.simplifier { dialect } front.state.knowledge) "two" "unknown"
        fact error :=
    fun fact _ error hfails => RuleTable.not_raises_of_standard (fun _ hrule => hrule) hfails.raises
  have hfails : Knowledge.FailsOn
      (Context.simplifier { dialect, rules := [refusal] } front.state.knowledge) "two" "unknown"
      ("one", "word") (.refused "no rule applies" .synthetic) :=
    ⟨by decide, .inl (by decide +kernel)⟩
  -- from here on, the state in front is any state with these facts
  clear_value front
  obtain ⟨hstored, _, _⟩ := (store_keeps_unaliased { dialect } harises () "two" "unknown").1 hnone
  obtain ⟨⟨_, _, error, _, _, hfailed⟩, _⟩ := (store_keeps_unaliased
    { dialect, rules := [refusal] } harises () "two" "unknown").2
      ⟨_, TwoWayMap.mem_entries.2 hone, _, hfails⟩
  refine ⟨harises, hentries, ?_, fun hkept => ?_, ?_, error, hfailed⟩
  · exact (hstored _ _).2 (.inr ⟨by decide, hone, .inl hdifferent⟩)
  · rcases (hstored _ _).1 hkept with ⟨hslot, _⟩ | ⟨_, _, hproved⟩
    · exact absurd hslot (by decide)
    · exact hunproved hproved
  · exact (hstored _ _).2 (.inl ⟨rfl, rfl⟩)

end Analysis

end StorageFlow
