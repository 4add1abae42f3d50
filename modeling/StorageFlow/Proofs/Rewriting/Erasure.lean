import StorageFlow.Proofs.Syntax.Erasure
import StorageFlow.Rewriting.Simplifier

/-!
# StorageFlow.Proofs.Rewriting.Erasure

Simplification does not depend on source locations.

* `Rule.IgnoresSpans` — a rule makes the same of an operation without source locations; standard
  rules do.
* `Simplifier.rewriteWithin_withoutSpans` — with such rules, so does every simplification.
* `Simplifier.provablyDifferent_withoutSpans`, `Simplifier.provablyEqual_withoutSpans` — so that
  the same is proved of variables.
-/

namespace StorageFlow

/-- Values with the source locations erased in each of them. -/
def NameMap.withoutSpans (values : NameMap Expr) : NameMap Expr :=
  values.map fun _ e => e.withoutSpans

theorem NameMap.getElem?_withoutSpans (values : NameMap Expr) (x : Name) :
    values.withoutSpans[x]? = values[x]?.map Expr.withoutSpans :=
  Std.ExtTreeMap.getElem?_map

/-! ### Rules -/

theorem Dialect.operation?_withoutSpans (dialect : Dialect) (e : Expr) :
    dialect.operation? e.withoutSpans =
      (dialect.operation? e).map (Prod.map id (List.map Expr.withoutSpans)) := by
  cases e with
  | literal _ => rfl
  | identifier _ => rfl
  | call callee arguments _ =>
      simp only [Expr.withoutSpans, operation?, Identifier.ofName, Expr.allWithoutSpans_eq_map,
        List.length_map]
      cases (dialect.builtin? callee.name).bind Builtin.instruction? with
      | none => rfl
      | some operator =>
          simp only [Option.bind_some]
          split <;> rfl
  | instruction operator arguments _ =>
      simp only [Expr.withoutSpans, operation?, Expr.allWithoutSpans_eq_map, List.length_map]
      split <;> rfl

/-- The rule makes the same of an operation without source locations. -/
def Rule.IgnoresSpans (rule : Rule) : Prop :=
  ∀ (dialect : Dialect) (operator : Instruction) (arguments : List Expr),
    rule.apply dialect operator (arguments.map Expr.withoutSpans) =
      (rule.apply dialect operator arguments).map (Option.map Expr.withoutSpans)

theorem mapM_toNat?_withoutSpans (es : List Expr) :
    (es.map Expr.withoutSpans).mapM Expr.toNat? = es.mapM Expr.toNat? := by
  induction es with
  | nil => rfl
  | cons e es ih => rw [List.map_cons, List.mapM_cons, List.mapM_cons, ih, e.toNat?_withoutSpans]

namespace Instruction

theorem onItself?_withoutSpans (operator : Instruction) (x : Expr) :
    operator.onItself? x.withoutSpans = (operator.onItself? x).map Expr.withoutSpans := by
  cases operator <;> rfl

theorem neutral?_withoutSpans (operator : Instruction) (x y : Expr) :
    operator.neutral? x.withoutSpans y.withoutSpans =
      (operator.neutral? x y).map Expr.withoutSpans := by
  unfold neutral?
  simp only [Expr.toNat?_withoutSpans]
  split <;> (repeat' split) <;> rfl

end Instruction

namespace Rule

theorem ignoresSpans_constantFolding : constantFolding.IgnoresSpans := by
  intro dialect operator arguments
  simp only [constantFolding, mapM_toNat?_withoutSpans, Except.map, Option.map_map]
  rfl

theorem ignoresSpans_selfOperand : selfOperand.IgnoresSpans := by
  intro dialect operator arguments
  match arguments with
  | [x, y] =>
      simp only [selfOperand, List.map_cons, List.map_nil, Except.map,
        Instruction.onItself?_withoutSpans, Expr.sameSyntax_withoutSpans,
        Dialect.isDiscardable_withoutSpans]
      cases operator.onItself? x with
      | none => rfl
      | some result =>
          cases x.sameSyntax y && dialect.isDiscardable x <;> rfl
  | [] => rfl
  | [_] => rfl
  | _ :: _ :: _ :: _ => rfl

theorem ignoresSpans_neutralElement : neutralElement.IgnoresSpans := by
  intro dialect operator arguments
  match arguments with
  | [x, y] =>
      simp only [neutralElement, List.map_cons, List.map_nil, Except.map,
        Instruction.neutral?_withoutSpans]
  | [] => rfl
  | [_] => rfl
  | _ :: _ :: _ :: _ => rfl

end Rule

namespace RuleTable

/-- All rules of the table ignore source locations. -/
def IgnoresSpans (rules : RuleTable) : Prop :=
  ∀ rule ∈ rules, rule.IgnoresSpans

theorem ignoresSpans_standard : standard.IgnoresSpans := by
  simp only [IgnoresSpans, standard, List.forall_mem_cons]
  exact ⟨Rule.ignoresSpans_constantFolding, Rule.ignoresSpans_selfOperand,
    Rule.ignoresSpans_neutralElement, nofun⟩

theorem firstMatch_withoutSpans {rules : RuleTable} (h : rules.IgnoresSpans) (dialect : Dialect)
    (operator : Instruction) (arguments : List Expr) :
    rules.firstMatch dialect operator (arguments.map Expr.withoutSpans) =
      (rules.firstMatch dialect operator arguments).map
        (Option.map (Prod.map id Expr.withoutSpans)) := by
  induction rules with
  | nil => rfl
  | cons rule rules ih =>
      have hrule := h rule List.mem_cons_self dialect operator arguments
      have ih := ih fun rule hmem => h rule (List.mem_cons_of_mem _ hmem)
      rw [firstMatch, firstMatch, hrule]
      rcases rule.apply dialect operator arguments with error | _ | result
      · rfl
      · exact ih
      · rfl

end RuleTable

/-! ### Simplification -/

namespace Simplifier

variable {s : Simplifier}

/-- The simplifier with source locations erased in the values that it knows. -/
def withoutSpans (s : Simplifier) : Simplifier :=
  { s with known := s.known.withoutSpans }

theorem firstRewrite_withoutSpans (h : s.rules.IgnoresSpans) (e : Expr) :
    s.withoutSpans.firstRewrite e.withoutSpans =
      (s.firstRewrite e).map (Option.map Expr.withoutSpans) := by
  unfold firstRewrite
  rw [show s.withoutSpans.dialect = s.dialect from rfl, Dialect.operation?_withoutSpans]
  rcases s.dialect.operation? e with _ | ⟨operator, arguments⟩
  · rfl
  · simp only [Option.map_some, Prod.map, id]
    rw [show s.withoutSpans.rules = s.rules from rfl, RuleTable.firstMatch_withoutSpans h]
    rcases s.rules.firstMatch s.dialect operator arguments with error | _ | result <;> rfl

theorem run_map (f : Expr → Expr) (x : Rewriting Expr) (count : Nat) :
    (f <$> x).run.run count = ((x.run.run count).1.map f, (x.run.run count).2) := by
  rw [ExceptT.run_map]
  rfl

theorem rewriteOnce_withoutSpans (h : s.rules.IgnoresSpans) {next next' : Expr → Rewriting Expr}
    (hnext : ∀ e, next' e.withoutSpans = Expr.withoutSpans <$> next e) (e : Expr) :
    s.withoutSpans.rewriteOnce next' e.withoutSpans =
      Expr.withoutSpans <$> s.rewriteOnce next e := by
  refine ExceptT.ext (StateT.ext fun count => ?_)
  rw [run_map, run_rewriteOnce, run_rewriteOnce, firstRewrite_withoutSpans h,
    show s.withoutSpans.limits = s.limits from rfl]
  split
  · rfl
  · rcases s.firstRewrite e with error | _ | result
    · rfl
    · rfl
    · show (next' result.withoutSpans).run.run (count + 1) = _
      rw [hnext, run_map]

theorem mapM_withoutSpans {rewrite rewrite' : Expr → Rewriting Expr}
    (h : ∀ e, rewrite' e.withoutSpans = Expr.withoutSpans <$> rewrite e) (es : List Expr) :
    (es.map Expr.withoutSpans).mapM rewrite' =
      List.map Expr.withoutSpans <$> es.mapM rewrite := by
  induction es with
  | nil => rfl
  | cons e es ih =>
      rw [List.map_cons, List.mapM_cons, List.mapM_cons, h, ih]
      simp only [map_bind, bind_map_left, map_pure, List.map_cons]

theorem rewriteWithin_withoutSpans (h : s.rules.IgnoresSpans) (steps : Nat) (e : Expr) :
    s.withoutSpans.rewriteWithin steps e.withoutSpans =
      Expr.withoutSpans <$> s.rewriteWithin steps e := by
  induction steps generalizing e with
  | zero => rfl
  | succ steps ih =>
      have hoperation : ∀ e : Expr,
          (do
            let arguments ← e.withoutSpans.arguments.mapM (s.withoutSpans.rewriteWithin steps)
            s.withoutSpans.rewriteOnce (s.withoutSpans.rewriteWithin steps)
              (e.withoutSpans.withArguments arguments)) =
            Expr.withoutSpans <$> (do
              let arguments ← e.arguments.mapM (s.rewriteWithin steps)
              s.rewriteOnce (s.rewriteWithin steps) (e.withArguments arguments)) := by
        intro e
        rw [Expr.arguments_withoutSpans, mapM_withoutSpans ih, bind_map_left, map_bind]
        refine bind_congr fun arguments => ?_
        rw [← Expr.withoutSpans_withArguments]
        exact rewriteOnce_withoutSpans h ih _
      cases e with
      | literal value => rfl
      | identifier x =>
          have hknown : s.withoutSpans.known[x.name]? = s.known[x.name]?.map Expr.withoutSpans :=
            NameMap.getElem?_withoutSpans s.known x.name
          simp only [rewriteWithin, Expr.withoutSpans, Identifier.ofName, hknown]
          rcases s.known[x.name]? with _ | value | y | _ | _
          · rfl
          · rfl
          · exact ih (.identifier y)
          · rfl
          · rfl
      | call callee arguments span => exact hoperation _
      | instruction operator arguments span => exact hoperation _

theorem simplify_withoutSpans (h : s.rules.IgnoresSpans) (e : Expr) :
    s.withoutSpans.simplify e.withoutSpans = (s.simplify e).map Expr.withoutSpans := by
  have hrewrite : s.withoutSpans.rewrite e.withoutSpans = Expr.withoutSpans <$> s.rewrite e :=
    rewriteWithin_withoutSpans h _ e
  rw [simplify, simplify, hrewrite, run_map]

/-- The same is found out about two variables. -/
theorem comparison?_withoutSpans (h : s.rules.IgnoresSpans) (operator : Instruction)
    (a b : Name) : s.withoutSpans.comparison? operator a b = s.comparison? operator a b := by
  have hsimplify := simplify_withoutSpans h (.native operator [.ofName a, .ofName b])
  rw [comparison?, comparison?,
    show s.withoutSpans.simplify (.native operator [.ofName a, .ofName b]) = _ from hsimplify]
  cases s.simplify (.native operator [.ofName a, .ofName b]) with
  | error error => rfl
  | ok result => exact congrArg Except.ok result.toNat?_withoutSpans

theorem provablyDifferent_withoutSpans (h : s.rules.IgnoresSpans) (a b : Name) :
    s.withoutSpans.provablyDifferent a b = s.provablyDifferent a b := by
  simp only [provablyDifferent, comparison?_withoutSpans h]

theorem provablyEqual_withoutSpans (h : s.rules.IgnoresSpans) (a b : Name) :
    s.withoutSpans.provablyEqual a b = s.provablyEqual a b := by
  simp only [provablyEqual, comparison?_withoutSpans h]

end Simplifier

end StorageFlow
