import Mathlib.Data.Finset.Card
import Mathlib.Logic.Relation
import StorageFlow.Proofs.Rewriting.Failure

/-!
# StorageFlow.Proofs.Rewriting.Chain

Chains of known literals and variables.

* `Simplifier.knownLeaf?` — the literal or the variable that a variable is known to hold.
* `Simplifier.Chain` — the end of the chain that starts at a leaf, and its length.
* `Simplifier.follow` — the leaf that a bounded number of steps along the chain leads to. That is
  what simplification makes of a leaf (`Simplifier.rewriteWithin_leaf`).
* `Simplifier.follow_of_chain` — with as many steps as the chain is long, that is its end.
* `Simplifier.Acyclic.exists_chain` — if no copies form a cycle, every chain has an end.
-/

namespace StorageFlow.Simplifier

variable {s : Simplifier}

/-- The known value of a variable, if it is a literal or a variable. No other value is put in the
place of the variable. -/
def knownLeaf? (s : Simplifier) (x : Name) : Option Expr :=
  match s.known[x]? with
  | some (.literal value) => some (.literal value)
  | some (.identifier y) => some (.identifier y)
  | _ => none

/-- The chain of known literals and variables that starts at the first leaf has the given number of
steps and ends in the second leaf: a literal, or a variable that is not known to hold a leaf. -/
inductive Chain (s : Simplifier) : Nat → Expr → Expr → Prop
  | literal (value : Literal) : Chain s 0 (.literal value) (.literal value)
  | identifier {x : Identifier} (h : s.knownLeaf? x.name = none) :
      Chain s 0 (.identifier x) (.identifier x)
  | step {x : Identifier} {e r : Expr} {n : Nat} (h : s.knownLeaf? x.name = some e)
      (hr : Chain s n e r) : Chain s (n + 1) (.identifier x) r

/-- The leaf that is reached within the given number of steps. -/
def follow (s : Simplifier) : Nat → Expr → Expr
  | 0, e => e
  | steps + 1, .identifier x =>
    match s.knownLeaf? x.name with
    | some e => s.follow steps e
    | none => .identifier x
  | _ + 1, e => e

theorem root?_knownLeaf {x : Name} {e : Expr} (h : s.knownLeaf? x = some e) : e.root? = none := by
  unfold knownLeaf? at h
  split at h
  · cases h
    rfl
  · cases h
    rfl
  · cases h

/-! ### Simplification of leaves -/

@[simp] theorem follow_literal (steps : Nat) (value : Literal) :
    s.follow steps (.literal value) = .literal value := by
  cases steps <;> rfl

/-- A leaf is followed to a leaf. -/
theorem root?_follow {steps : Nat} {e : Expr} (h : e.root? = none) :
    (s.follow steps e).root? = none := by
  induction steps generalizing e with
  | zero => exact h
  | succ steps ih =>
      cases e with
      | literal value => rfl
      | identifier x =>
          unfold follow
          split
          next e hx => exact ih (root?_knownLeaf hx)
          next => rfl
      | call _ _ _ => cases h
      | instruction _ _ _ => cases h

/-- Simplification follows the chain of a leaf, and applies no rule. -/
theorem rewriteWithin_leaf {e : Expr} (h : e.root? = none) (steps : Nat) :
    s.rewriteWithin steps e = pure (s.follow steps e) := by
  induction steps generalizing e with
  | zero => cases e <;> rfl
  | succ steps ih =>
      cases e with
      | literal value => rfl
      | identifier x =>
          unfold rewriteWithin follow knownLeaf?
          rcases s.known[x.name]? with _ | value | y | _ | _
          · rfl
          · simp only [follow_literal]
          · exact ih rfl
          · rfl
          · rfl
      | call _ _ _ => cases h
      | instruction _ _ _ => cases h

/-! ### Ends of chains -/

theorem Chain.leaf {n : Nat} {e r : Expr} (h : s.Chain n e r) : e.root? = none := by
  cases h <;> rfl

theorem Chain.end_chain {n : Nat} {e r : Expr} (h : s.Chain n e r) : s.Chain 0 r r := by
  induction h with
  | literal value => exact .literal value
  | identifier hx => exact .identifier hx
  | step _ _ ih => exact ih

theorem follow_of_chain {n steps : Nat} {e r : Expr} (h : s.Chain n e r) (hn : n ≤ steps) :
    s.follow steps e = r := by
  induction h generalizing steps with
  | literal value => exact follow_literal steps value
  | identifier hx =>
      cases steps with
      | zero => rfl
      | succ steps => rw [follow, hx]
  | step hx _ ih =>
      cases steps with
      | zero => cases hn
      | succ steps =>
          rw [follow, hx]
          exact ih (Nat.le_of_succ_le_succ hn)

/-! ### Chains without cycles -/

/-- The first variable is known to be the second one. -/
def Copies (s : Simplifier) (x y : Name) : Prop :=
  ∃ z, s.known[x]? = some (.identifier z) ∧ z.name = y

/-- No copies lead from a variable back to it. -/
def Acyclic (s : Simplifier) : Prop :=
  ∀ x, ¬ Relation.TransGen s.Copies x x

theorem knownLeaf?_eq_some {x : Name} {e : Expr} (h : s.knownLeaf? x = some e) :
    (∃ value, e = .literal value) ∨ ∃ y : Identifier, e = .identifier y ∧ s.Copies x y.name := by
  unfold knownLeaf? at h
  split at h
  next value hx =>
    cases h
    exact .inl ⟨value, rfl⟩
  next y hx =>
    cases h
    exact .inr ⟨y, rfl, y, hx, rfl⟩
  next => cases h

theorem knownLeaf?_literal {x : Name} {value : Literal} (h : s.known[x]? = some (.literal value)) :
    s.knownLeaf? x = some (.literal value) := by
  rw [knownLeaf?, h]

theorem knownLeaf?_identifier {x : Name} {y : Identifier}
    (h : s.known[x]? = some (.identifier y)) : s.knownLeaf? x = some (.identifier y) := by
  rw [knownLeaf?, h]

theorem known_of_knownLeaf? {x : Name} {e : Expr} (h : s.knownLeaf? x = some e) :
    s.known[x]? = some e := by
  unfold knownLeaf? at h
  split at h
  next hx => rw [hx, h]
  next hx => rw [hx, h]
  next => cases h

/-- A chain that ends leads into no cycle. -/
theorem Chain.not_cyclic {n : Nat} {x : Identifier} {r : Expr} (h : s.Chain n (.identifier x) r) :
    ¬ Relation.TransGen s.Copies x.name x.name := by
  induction n generalizing x with
  | zero =>
      intro hcycle
      obtain ⟨_, ⟨y, hy, rfl⟩, _⟩ := Relation.TransGen.head'_iff.1 hcycle
      cases h with
      | identifier hx => cases hx.symm.trans (knownLeaf?_identifier hy)
  | succ n ih =>
      intro hcycle
      obtain ⟨_, ⟨y, hy, rfl⟩, hback⟩ := Relation.TransGen.head'_iff.1 hcycle
      cases h with
      | step hx hchain =>
          cases hx.symm.trans (knownLeaf?_identifier hy)
          exact ih hchain (.tail' hback ⟨y, hy, rfl⟩)

namespace Acyclic

open Classical in
/-- The variables with a known value that copies lead to from a variable, itself included. -/
noncomputable def reached (s : Simplifier) (x : Name) : Finset Name :=
  s.known.keys.toFinset.filter fun y => Relation.ReflTransGen s.Copies x y

/-- Fewer variables are reached from a copied variable than from its copy, as the copy itself is not
reached from there. -/
theorem card_reached_lt (h : s.Acyclic) {x y : Name} (hxy : s.Copies x y) :
    (reached s y).card < (reached s x).card := by
  classical
  have hx : x ∈ s.known.keys := by
    obtain ⟨z, hx, _⟩ := hxy
    rw [Std.ExtTreeMap.mem_keys, Std.ExtTreeMap.mem_iff_isSome_getElem?, hx]
    rfl
  refine Finset.card_lt_card (Finset.ssubset_iff_of_subset ?_ |>.2 ⟨x, ?_, ?_⟩)
  · exact Finset.monotone_filter_right _ fun z _ hyz => .head hxy hyz
  · exact Finset.mem_filter.2 ⟨List.mem_toFinset.2 hx, .refl⟩
  · intro hmem
    have hyx : Relation.ReflTransGen s.Copies y x := (Finset.mem_filter.1 hmem).2
    exact h x (Relation.TransGen.head' hxy hyx)

theorem exists_chain (h : s.Acyclic) {e : Expr} (hleaf : e.root? = none) :
    ∃ n r, s.Chain n e r := by
  have hvariable (x : Identifier) : ∃ n r, s.Chain n (.identifier x) r := by
    induction hcard : (reached s x.name).card using Nat.strong_induction_on generalizing x with
    | _ card ih =>
        cases hx : s.knownLeaf? x.name with
        | none => exact ⟨0, _, .identifier hx⟩
        | some e =>
            rcases knownLeaf?_eq_some hx with ⟨value, rfl⟩ | ⟨y, rfl, hxy⟩
            · exact ⟨1, _, .step hx (.literal value)⟩
            · obtain ⟨n, r, hr⟩ := ih _ (hcard ▸ h.card_reached_lt hxy) y rfl
              exact ⟨n + 1, r, .step hx hr⟩
  cases e with
  | literal value => exact ⟨0, _, .literal value⟩
  | identifier x => exact hvariable x
  | call _ _ _ => cases hleaf
  | instruction _ _ _ => cases hleaf

end Acyclic

end StorageFlow.Simplifier
