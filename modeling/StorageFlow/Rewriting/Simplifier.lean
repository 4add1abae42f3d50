import StorageFlow.Rewriting.Standard

/-!
# StorageFlow.Rewriting.Simplifier

Bounded simplification of expressions, with the help of known values.

* `Limits` — how deep a simplification may nest and how many rules it may apply.
* `Simplifier` — everything a simplification depends on.
* `Simplifier.rewrite` — simplifies and counts the rules applied; the count survives an error.
* `Simplifier.simplify` — simplifies with a count of its own.
* `Simplifier.provablyDifferent`, `Simplifier.provablyEqual` — what simplification proves about the
  values of two variables. `false` means that nothing was proved.
-/

namespace StorageFlow

/-- The bounds of a simplification. They are numbers of any size. A machine counts depths in words,
and its largest word bounds nothing: no depth passes it. -/
structure Limits where
  /-- How many steps may nest inside the first one. -/
  depth : Nat := 32
  /-- How many rules may be applied. -/
  rewrites : Nat := 256
  deriving DecidableEq

/-- What a simplification depends on. -/
structure Simplifier where
  dialect : Dialect
  rules : RuleTable
  limits : Limits
  /-- The known values of variables. -/
  known : NameMap Expr

/-- Rewriting that counts the rules it applies and may fail. The count outlives a failure. -/
abbrev Rewriting := ExceptT Error (StateM Nat)

namespace Simplifier

/-- What the first matching rule makes of an expression, if it is an operation and a rule matches.
-/
def firstRewrite (s : Simplifier) (e : Expr) : Except Error (Option Expr) :=
  match s.dialect.operation? e with
  | none => .ok none
  | some (operator, arguments) =>
      (s.rules.firstMatch s.dialect operator arguments).map (Option.map Prod.snd)

/-- Rewrites an expression by the first rule that matches, counts the rule, and goes on with
`next`. An expression that no rule matches stays as it is, and so does any once the count is at
its limit. -/
def rewriteOnce (s : Simplifier) (next : Expr → Rewriting Expr) (e : Expr) : Rewriting Expr := do
  if s.limits.rewrites ≤ (← get) then
    return e
  match s.firstRewrite e with
  | .error error => throw error
  | .ok none => return e
  | .ok (some result) =>
    modify (· + 1)
    next result

theorem run_rewriteOnce (s : Simplifier) (next : Expr → Rewriting Expr) (e : Expr) (count : Nat) :
    (s.rewriteOnce next e).run.run count =
      if s.limits.rewrites ≤ count then (.ok e, count)
      else
        match s.firstRewrite e with
        | .error error => (.error error, count)
        | .ok none => (.ok e, count)
        | .ok (some result) => (next result).run.run (count + 1) := by
  show (if s.limits.rewrites ≤ count then _ else _ : Rewriting Expr).run.run count = _
  split
  · rfl
  · rcases s.firstRewrite e with _ | _ | _ <;> rfl

/-- Simplifies within the given number of nested steps. A variable becomes the literal it is known
to hold, or is simplified as the variable it is known to equal. An operation is rewritten after
its arguments, and what a rule made of it is simplified again. -/
def rewriteWithin (s : Simplifier) : Nat → Expr → Rewriting Expr
  | 0, e => pure e
  | _ + 1, .literal value => pure (.literal value)
  | steps + 1, .identifier x =>
    match s.known[x.name]? with
    | some (.literal value) => pure (.literal value)
    | some (.identifier y) => s.rewriteWithin steps (.identifier y)
    | _ => pure (.identifier x)
  | steps + 1, e => do
    let arguments ← e.arguments.mapM (s.rewriteWithin steps)
    s.rewriteOnce (s.rewriteWithin steps) (e.withArguments arguments)

/-- Simplifies within the limits. The call of a machine may fail to end under the largest limit of
the depth; where it returns, this is what it returns (`StorageFlow.Proofs.Rewriting.Calls`). -/
def rewrite (s : Simplifier) (e : Expr) : Rewriting Expr :=
  s.rewriteWithin (s.limits.depth + 1) e

/-- The simplified form of one expression. -/
def simplify (s : Simplifier) (e : Expr) : Except Error Expr :=
  ((s.rewrite e).run.run 0).1

/-- The number that an instruction on two variables simplifies to, if it simplifies to one. -/
def comparison? (s : Simplifier) (operator : Instruction) (a b : Name) :
    Except Error (Option Nat) :=
  (s.simplify (.native operator [.ofName a, .ofName b])).map Expr.toNat?

/-- Whether the values of two variables are proved different: their difference is a number other
than zero, or their equality is zero. -/
def provablyDifferent (s : Simplifier) (a b : Name) : Except Error Bool :=
  if a = b then .ok false
  else do
    if (← s.comparison? .sub a b).any (· != 0) then
      return true
    return (← s.comparison? .eq a b) == some 0

/-- Whether the values of two variables are proved equal: they are one variable, their difference is
zero, or their equality is a number other than zero. -/
def provablyEqual (s : Simplifier) (a b : Name) : Except Error Bool :=
  if a = b then .ok true
  else do
    if (← s.comparison? .sub a b) == some 0 then
      return true
    return (← s.comparison? .eq a b).any (· != 0)

end Simplifier

end StorageFlow
