import StorageFlow.Syntax.Expr

/-!
# StorageFlow.Syntax.Equality

Two ways to compare expressions.

* `DecidableEq Expr` — equality, source locations included (`Expr.identical_iff`).
* `Expr.sameSyntax` — equality of everything but source locations.
* `Expr.withoutSpans` — an expression with its source locations erased.
-/

namespace StorageFlow

namespace Expr

mutual

/-- Compares two expressions node by node, source locations included. -/
def identical : Expr → Expr → Bool
  | .literal a, .literal b => a = b
  | .identifier x, .identifier y => x = y
  | .call f as s, .call g bs t => f = g && identicalAll as bs && s = t
  | .instruction i as s, .instruction j bs t => i = j && identicalAll as bs && s = t
  | _, _ => false

/-- Compares two argument lists node by node, source locations included. -/
def identicalAll : List Expr → List Expr → Bool
  | [], [] => true
  | a :: as, b :: bs => a.identical b && identicalAll as bs
  | _, _ => false

end

mutual

theorem identical_iff : ∀ a b : Expr, a.identical b = true ↔ a = b
  | .literal _, b => by cases b <;> simp [identical]
  | .identifier _, b => by cases b <;> simp [identical]
  | .call _ as _, b => by
      cases b <;> simp [identical]
      rw [identicalAll_iff as]
      exact and_assoc
  | .instruction _ as _, b => by
      cases b <;> simp [identical]
      rw [identicalAll_iff as]
      exact and_assoc

theorem identicalAll_iff : ∀ as bs : List Expr, identicalAll as bs = true ↔ as = bs
  | [], bs => by cases bs <;> simp [identicalAll]
  | a :: as, bs => by
      cases bs with
      | nil => simp [identicalAll]
      | cons b bs => simp [identicalAll, identical_iff a, identicalAll_iff as]

end

instance : DecidableEq Expr := fun a b =>
  decidable_of_iff (a.identical b = true) (identical_iff a b)

mutual

/-- Whether two expressions differ at most in their source locations. -/
def sameSyntax : Expr → Expr → Bool
  | .literal a, .literal b => a.kind = b.kind && a.text = b.text
  | .identifier x, .identifier y => x.name = y.name
  | .call f as _, .call g bs _ => f.name = g.name && sameSyntaxAll as bs
  | .instruction i as _, .instruction j bs _ => i = j && sameSyntaxAll as bs
  | _, _ => false

/-- Whether two argument lists differ at most in their source locations. -/
def sameSyntaxAll : List Expr → List Expr → Bool
  | [], [] => true
  | a :: as, b :: bs => a.sameSyntax b && sameSyntaxAll as bs
  | _, _ => false

end

mutual

/-- The expression with every source location erased. -/
def withoutSpans : Expr → Expr
  | .literal a => .literal { a with span := .synthetic }
  | .identifier x => .identifier (.ofName x.name)
  | .call f as _ => .call (.ofName f.name) (allWithoutSpans as) .synthetic
  | .instruction i as _ => .instruction i (allWithoutSpans as) .synthetic

/-- The argument list with every source location erased. -/
def allWithoutSpans : List Expr → List Expr
  | [] => []
  | a :: as => a.withoutSpans :: allWithoutSpans as

end

end Expr

end StorageFlow
