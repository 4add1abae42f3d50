import Mathlib.Data.List.Forall2
import StorageFlow.Proofs.Rewriting.Erasure
import StorageFlow.Proofs.Rewriting.Meaning
import StorageFlow.Syntax.Text

/-!
# StorageFlow.Proofs.Rewriting.SameSyntax

Expressions that differ in their source locations only.

* `Expr.sameSyntax_equivalence` — comparing without source locations is an equivalence.
* `Expr.congr_of_sameSyntax` — what can be computed without source locations is the same of both.
* `Expr.sameSyntax_respected` — text, effects, operations and simplification are so computed.
-/

namespace StorageFlow

namespace Expr

variable {a b : Expr}

/-! ### The equivalence -/

theorem sameSyntax_equivalence : Equivalence fun a b : Expr => a.sameSyntax b = true where
  refl a := (sameSyntax_iff a a).2 rfl
  symm h := (sameSyntax_iff _ _).2 ((sameSyntax_iff _ _).1 h).symm
  trans h h' := (sameSyntax_iff _ _).2
    (((sameSyntax_iff _ _).1 h).trans ((sameSyntax_iff _ _).1 h'))

/-- What does not change when source locations are erased is the same of both expressions. -/
theorem congr_of_sameSyntax {α : Type} {f : Expr → α} (hf : ∀ e : Expr, f e.withoutSpans = f e)
    (h : a.sameSyntax b = true) : f a = f b := by
  rw [← hf a, ← hf b, (sameSyntax_iff a b).1 h]

/-! ### Text -/

mutual

theorem toText_withoutSpans : ∀ e : Expr, e.withoutSpans.toText = e.toText
  | .literal _ => rfl
  | .identifier _ => rfl
  | .call callee arguments _ =>
      congrArg (callee.name ++ "(" ++ commaSeparated · ++ ")") (textAll_withoutSpans arguments)
  | .instruction operator arguments _ =>
      congrArg (operator.mnemonic ++ "(" ++ commaSeparated · ++ ")")
        (textAll_withoutSpans arguments)

/-- Source locations are not written. -/
theorem textAll_withoutSpans : ∀ es : List Expr, textAll (allWithoutSpans es) = textAll es
  | [] => rfl
  | e :: es => congrArg₂ List.cons (toText_withoutSpans e) (textAll_withoutSpans es)

end

/-! ### Operations -/

/-- Lists of expressions that are the same without source locations agree in each place. -/
theorem forall₂_sameSyntax {as bs : List Expr}
    (h : as.map withoutSpans = bs.map withoutSpans) :
    List.Forall₂ (fun a b => a.sameSyntax b = true) as bs := by
  simp only [sameSyntax_iff]
  exact List.forall₂_map_left_iff.1 (List.forall₂_map_right_iff.1 (h ▸ List.forall₂_refl _))

/-- The same instruction, on operands that agree in each place. -/
def SameOperation (op op' : Instruction × List Expr) : Prop :=
  op.1 = op'.1 ∧ List.Forall₂ (fun a b => a.sameSyntax b = true) op.2 op'.2

theorem rel_sameOperation {op? op'? : Option (Instruction × List Expr)}
    (h : op?.map (Prod.map id (List.map withoutSpans)) =
      op'?.map (Prod.map id (List.map withoutSpans))) : Option.Rel SameOperation op? op'? := by
  rcases op? with _ | ⟨operator, as⟩ <;> rcases op'? with _ | ⟨operator', bs⟩
  · exact .none
  · cases h
  · cases h
  · obtain ⟨hoperator, harguments⟩ := Prod.mk.inj (Option.some.inj h)
    exact .some ⟨hoperator, forall₂_sameSyntax harguments⟩

/-- Both expressions are the same operation, or none of them is one. -/
theorem operation?_of_sameSyntax (dialect : Dialect) (h : a.sameSyntax b = true) :
    Option.Rel SameOperation (dialect.operation? a) (dialect.operation? b) := by
  refine rel_sameOperation ?_
  rw [← dialect.operation?_withoutSpans, ← dialect.operation?_withoutSpans,
    (sameSyntax_iff a b).1 h]

/-! ### Simplification -/

/-- Standard rules make the same of both expressions, in as many rewrites. -/
theorem rewrite_of_sameSyntax {s : Simplifier}
    (hrules : ∀ rule ∈ s.rules, rule ∈ RuleTable.standard) (h : a.sameSyntax b = true)
    (count : Nat) :
    ∃ x y count', (s.rewrite a).run.run count = (.ok x, count') ∧
      (s.rewrite b).run.run count = (.ok y, count') ∧ x.sameSyntax y = true := by
  have hignores : s.rules.IgnoresSpans := fun rule hmem =>
    RuleTable.ignoresSpans_standard rule (hrules rule hmem)
  have herased : Expr.withoutSpans <$> s.rewrite a = Expr.withoutSpans <$> s.rewrite b := by
    rw [Simplifier.rewrite, Simplifier.rewrite, ← Simplifier.rewriteWithin_withoutSpans hignores,
      ← Simplifier.rewriteWithin_withoutSpans hignores, (sameSyntax_iff a b).1 h]
  obtain ⟨x, counta, ha⟩ := Simplifier.rewriteWithin_ok hrules (s.limits.depth + 1) a count
  obtain ⟨y, countb, hb⟩ := Simplifier.rewriteWithin_ok hrules (s.limits.depth + 1) b count
  have hrun := congrArg (fun rewriting => rewriting.run.run count) herased
  simp only [Simplifier.run_map] at hrun
  rw [show (s.rewrite a).run.run count = _ from ha, show (s.rewrite b).run.run count = _ from hb]
    at hrun
  obtain ⟨hresult, rfl⟩ := Prod.mk.inj hrun
  exact ⟨x, y, counta, ha, hb, (sameSyntax_iff x y).2 (Except.ok.inj hresult)⟩

/-- **Expressions with the same syntax are interchangeable.** They are those that are identical once
their source locations are erased, so having the same syntax is an equivalence. They have the same
text, and for each dialect the same effects and reads, and are the same operation on operands with
the same syntax. With any standard rules, limits and known values they are simplified to
expressions with the same syntax, in as many rewrites. -/
theorem sameSyntax_respected :
    (∀ a b : Expr, a.sameSyntax b = true ↔ a.withoutSpans.identical b.withoutSpans = true) ∧
    (Equivalence fun a b : Expr => a.sameSyntax b = true) ∧
    ∀ a b : Expr, a.sameSyntax b = true →
      a.toText = b.toText ∧
      (∀ dialect, EffectSummary.ofExpr dialect a = EffectSummary.ofExpr dialect b) ∧
      (∀ dialect : Dialect,
        Option.Rel SameOperation (dialect.operation? a) (dialect.operation? b)) ∧
      ∀ s : Simplifier, (∀ rule ∈ s.rules, rule ∈ RuleTable.standard) → ∀ count,
        ∃ x y count', (s.rewrite a).run.run count = (.ok x, count') ∧
          (s.rewrite b).run.run count = (.ok y, count') ∧ x.sameSyntax y = true := by
  refine ⟨fun a b => ?_, sameSyntax_equivalence, fun a b h => ⟨?_, ?_, ?_, ?_⟩⟩
  · rw [sameSyntax_iff, identical_iff]
  · exact congr_of_sameSyntax toText_withoutSpans h
  · exact fun dialect => congr_of_sameSyntax (EffectSummary.ofExpr_withoutSpans dialect) h
  · exact fun dialect => operation?_of_sameSyntax dialect h
  · exact fun s hrules count => rewrite_of_sameSyntax hrules h count

/-- The sum of `sub(x, y)` and `z`, from a text that begins at the given place. -/
def sumAt (start : Nat) : Expr :=
  .instruction .add [
    .instruction .sub [.identifier ⟨"x", ⟨start + 8, start + 9⟩⟩,
      .identifier ⟨"y", ⟨start + 11, start + 12⟩⟩] ⟨start + 4, start + 13⟩,
    .identifier ⟨"z", ⟨start + 15, start + 16⟩⟩] ⟨start, start + 17⟩

/-- What is left of two sums if `y` is known to equal `x`: each keeps its own `z`. -/
theorem sameSyntax_respected_sums :
    let s : Simplifier := {
      dialect := BuiltinTable.evm.toDialect, rules := .standard, limits := {}
      known := (∅ : NameMap Expr).insert "y" (.ofName "x") }
    (sumAt 0).sameSyntax (sumAt 40) = true ∧ (sumAt 0).identical (sumAt 40) = false ∧
      (sumAt 0).toText = (sumAt 40).toText ∧
      ∃ x y, (s.rewrite (sumAt 0)).run.run 0 = (.ok x, 2) ∧
        (s.rewrite (sumAt 40)).run.run 0 = (.ok y, 2) ∧ x.sameSyntax y = true := by
  intro s
  have hsame : (sumAt 0).sameSyntax (sumAt 40) = true := by decide
  obtain ⟨htext, _, _, hrewrite⟩ := sameSyntax_respected.2.2 _ _ hsame
  obtain ⟨x, y, count, hx, hy, hxy⟩ := hrewrite s (fun _ hrule => hrule) 0
  have hcount : count = 2 := (congrArg Prod.snd hx).symm.trans (by decide +kernel)
  subst hcount
  exact ⟨hsame, by decide, htext, x, y, hx, hy, hxy⟩

end Expr

end StorageFlow
