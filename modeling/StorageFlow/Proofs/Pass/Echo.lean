import StorageFlow.Proofs.Analysis.StorageTransfer
import StorageFlow.Proofs.Pass.Settled

/-!
# StorageFlow.Proofs.Pass.Echo

States that a pass cannot tell apart.

* `Knowledge.Alike` — the same values from the same sources, and for load forwarding the same facts
  about storage. Copy propagation does not use these.
* `Pass.Echoes` — such knowledge in the same scopes, and a number of replacements that is fixed.
* `Pass.Echoes.clear`, `Pass.Echoes.assign`, … — changes of both states keep them alike.
* `Pass.Echoes.replacement?_eq` — a pass replaces the same in both states.
-/

namespace StorageFlow

/-! ### Knowledge -/

/-- The pass finds the same in both. -/
structure Knowledge.Alike (pass : Pass) (k k' : Knowledge) : Prop where
  values : k'.values = k.values
  provenance : k'.provenance = k.provenance
  storage : pass = .loadForwarding → k'.storage = k.storage

namespace Knowledge.Alike

variable {pass : Pass} {k k' : Knowledge}

theorem refl (k : Knowledge) : Alike pass k k :=
  ⟨rfl, rfl, fun _ => rfl⟩

/-- Load forwarding tells all knowledge apart. -/
theorem eq_of_loadForwarding (h : Alike .loadForwarding k k') : k' = k := by
  obtain ⟨values, provenance, storage⟩ := k
  obtain ⟨values', provenance', storage'⟩ := k'
  obtain ⟨rfl, rfl, hstorage⟩ := h
  rw [Knowledge.mk.injEq]
  exact ⟨rfl, rfl, hstorage rfl⟩

theorem value?_eq (h : Alike pass k k') (x : Name) : k'.value? x = k.value? x := by
  rw [value?, value?, h.values]

theorem forget (h : Alike pass k k') (name : Name) :
    Alike pass (k.forget name) (k'.forget name) where
  values := by rw [Knowledge.forget, Knowledge.forget, h.values]
  provenance := by rw [Knowledge.forget, Knowledge.forget, h.provenance]
  storage hpass := by rw [Knowledge.forget, Knowledge.forget, h.storage hpass]

theorem clear (h : Alike pass k k') (names : List Name) :
    Alike pass (k.clear names) (k'.clear names) := by
  have hforget : ∀ (names : List Name) {k k' : Knowledge}, Alike pass k k' →
      Alike pass (names.foldl Knowledge.forget k) (names.foldl Knowledge.forget k') := by
    intro names
    induction names with
    | nil => exact fun h => h
    | cons name names ih => exact fun h => ih (h.forget name)
  rw [Knowledge.clear, Knowledge.clear, h.provenance]
  exact hforget _ h

theorem learn (h : Alike pass k k') (name : Name) (e : Expr) :
    Alike pass (k.learn name e) (k'.learn name e) :=
  ⟨congrArg (·.insert name e) h.values, h.provenance, h.storage⟩

theorem derive (h : Alike pass k k') (names sources : List Name) :
    Alike pass (k.derive names sources) (k'.derive names sources) where
  values := h.values
  provenance := by rw [Knowledge.derive, Knowledge.derive, h.provenance]
  storage := h.storage

theorem assign (h : Alike pass k k') (dialect : Dialect) (names : List Name) (e : Expr) :
    Alike pass (k.assign dialect names e) (k'.assign dialect names e) := by
  have hcleared := h.clear names
  refine derive ?_ _ _
  split
  next name =>
    split
    · exact hcleared.learn name e
    · exact hcleared
  next => exact hcleared

theorem assignZero (h : Alike pass k k') (names : List Name) :
    Alike pass (k.assignZero names) (k'.assignZero names) := by
  have hlearn : ∀ (names : List Name) {k k' : Knowledge}, Alike pass k k' →
      Alike pass (names.foldl (fun k name => k.learn name (.literal .zero)) k)
        (names.foldl (fun k name => k.learn name (.literal .zero)) k') := by
    intro names
    induction names with
    | nil => exact fun h => h
    | cons name names ih => exact fun h => ih (h.learn name _)
  exact (hlearn names (h.clear names)).derive names []

theorem joinStorage (h : Alike pass k k') {before before' : TwoWayMap Name}
    (hbefore : pass = .loadForwarding → before' = before) :
    Alike pass (k.joinStorage before) (k'.joinStorage before') where
  values := h.values
  provenance := h.provenance
  storage hpass := by
    rw [Knowledge.joinStorage, Knowledge.joinStorage, h.storage hpass, hbefore hpass]

theorem forgetStorage (h : Alike pass k k') : Alike pass k.forgetStorage k'.forgetStorage :=
  ⟨h.values, h.provenance, fun _ => rfl⟩

end Knowledge.Alike

/-! ### States -/

namespace Pass

open Analysis

/-- The pass finds the same in the same scopes. In the second state it has replaced nothing since
`counts`. -/
structure Echoes (pass : Pass) (counts : PassCounts) (s t : State PassCounts) : Prop where
  scopes : t.scopes = s.scopes
  knowledge : s.knowledge.Alike pass t.knowledge
  hook : t.hook = counts

namespace Echoes

variable {pass : Pass} {counts : PassCounts} {context : Context} {s s' t t' : State PassCounts}

/-- Only knowledge and scopes of the first state count. -/
theorem of_eq (h : Echoes pass counts s t) (hscopes : s'.scopes = s.scopes)
    (hknowledge : s'.knowledge = s.knowledge) : Echoes pass counts s' t where
  scopes := h.scopes.trans hscopes.symm
  knowledge := hknowledge ▸ h.knowledge
  hook := h.hook

/-- A pass replaces the same in both states. -/
theorem replacement?_eq (h : Echoes pass counts s t) (e : Expr) :
    pass.replacement? (t.view context) e = pass.replacement? (s.view context) e := by
  cases pass with
  | loadForwarding =>
      rw [State.view, State.view, h.knowledge.eq_of_loadForwarding, h.scopes]
  | copyPropagation =>
      cases e with
      | identifier x =>
          show propagated? (t.view context) x = propagated? (s.view context) x
          have hvalue : (t.view context).knowledge.value? x.name =
              (s.view context).knowledge.value? x.name := h.knowledge.value?_eq x.name
          have hvisible : (t.view context).isVisible = (s.view context).isVisible := by
            unfold View.isVisible State.view
            rw [h.scopes]
          rw [propagated?, propagated?, hvalue, hvisible]
      | _ => rfl

theorem clear (h : Echoes pass counts s t) (names : List Name) :
    Echoes pass counts (s.clear names) (t.clear names) :=
  ⟨h.scopes, h.knowledge.clear names, h.hook⟩

theorem assign (h : Echoes pass counts s t) (names : List Name) (e : Expr) :
    Echoes pass counts (s.assign context names e) (t.assign context names e) :=
  ⟨h.scopes, h.knowledge.assign context.dialect names e, h.hook⟩

theorem assignZero (h : Echoes pass counts s t) (names : List Name) :
    Echoes pass counts (s.assignZero names) (t.assignZero names) :=
  ⟨h.scopes, h.knowledge.assignZero names, h.hook⟩

theorem joinStorage (h : Echoes pass counts s t) {before before' : TwoWayMap Name}
    (hbefore : pass = .loadForwarding → before' = before) :
    Echoes pass counts (s.joinStorage before) (t.joinStorage before') :=
  ⟨h.scopes, h.knowledge.joinStorage hbefore, h.hook⟩

/-- For load forwarding, both states must forget what is stored or none. -/
theorem forgetStorageIf (h : Echoes pass counts s t) {changed changed' : Bool}
    (hchanged : pass = .loadForwarding → changed' = changed) :
    Echoes pass counts (s.forgetStorageIf changed) (t.forgetStorageIf changed') where
  scopes := by rw [State.scopes_forgetStorageIf, State.scopes_forgetStorageIf, h.scopes]
  knowledge := by
    cases pass with
    | loadForwarding =>
        rw [hchanged rfl]
        cases changed with
        | true => exact h.knowledge.forgetStorage
        | false => exact h.knowledge
    | copyPropagation =>
        cases changed <;> cases changed' <;>
          exact ⟨h.knowledge.values, h.knowledge.provenance, nofun⟩
  hook := (hook_forgetStorageIf changed').trans h.hook

/-- Copy propagation does not notice that only one state forgets what is stored. -/
theorem forgetStorageIf_left (h : Echoes copyPropagation counts s t) (changed : Bool) :
    Echoes copyPropagation counts (s.forgetStorageIf changed) t := by
  have hboth : Echoes copyPropagation counts (s.forgetStorageIf changed)
      (t.forgetStorageIf false) := h.forgetStorageIf nofun
  exact hboth

/-- For copy propagation, other facts about storage make no difference. -/
theorem of_copyPropagation (h : Echoes copyPropagation counts s t) (hscopes : s'.scopes = s.scopes)
    {storage : TwoWayMap Name} (hknowledge : s'.knowledge = { s.knowledge with storage }) :
    Echoes copyPropagation counts s' t where
  scopes := h.scopes.trans hscopes.symm
  knowledge := by
    rw [hknowledge]
    exact ⟨h.knowledge.values, h.knowledge.provenance, nofun⟩
  hook := h.hook

theorem declare (h : Echoes pass counts s t) (names : List Name) :
    Echoes pass counts (s.declare names) (t.declare names) where
  scopes := by rw [State.scopes_declare, State.scopes_declare, h.scopes]
  knowledge := by
    rw [knowledge_declare, knowledge_declare]
    exact h.knowledge
  hook := (hook_declare names t).trans h.hook

theorem openScope (h : Echoes pass counts s t) (isBoundary : Bool) :
    Echoes pass counts (s.openScope isBoundary) (t.openScope isBoundary) :=
  ⟨congrArg (Scope.mk ∅ isBoundary :: ·) h.scopes, h.knowledge, h.hook⟩

theorem closeScope (h : Echoes pass counts s t) :
    Echoes pass counts s.closeScope t.closeScope := by
  refine ⟨?_, ?_, (hook_closeScope t).trans h.hook⟩
  · rw [State.scopes_closeScope, State.scopes_closeScope, h.scopes]
  · unfold State.closeScope
    rw [h.scopes]
    split
    · exact h.knowledge
    · exact h.knowledge.clear _

/-- Functions start alike, whatever is around them. -/
theorem enterFunction (h : Echoes pass counts s t) (parameters results : List Name) :
    Echoes pass counts (s.enterFunction parameters results)
      (t.enterFunction parameters results) := by
  have hresults : ∀ (results : List Name) {s t : State PassCounts}, Echoes pass counts s t →
      Echoes pass counts (s.declareResults results) (t.declareResults results) := by
    intro results
    induction results with
    | nil => exact fun h => h
    | cons name results ih => exact fun h => ih ((h.declare [name]).assignZero [name])
  have hempty : Echoes pass counts { s with knowledge := ∅ } { t with knowledge := ∅ } :=
    ⟨h.scopes, .refl ∅, h.hook⟩
  exact hresults results ((hempty.openScope true).declare parameters)

theorem leaveFunction (h : Echoes pass counts s t) {inner inner' : State PassCounts}
    (hinner : Echoes pass counts inner inner') :
    Echoes pass counts (inner.leaveFunction s.knowledge) (inner'.leaveFunction t.knowledge) where
  scopes := hinner.closeScope.scopes
  knowledge := h.knowledge
  hook := hinner.closeScope.hook

end Echoes

end Pass

end StorageFlow
