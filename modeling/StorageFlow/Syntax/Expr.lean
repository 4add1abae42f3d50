import StorageFlow.Name
import StorageFlow.Instruction
import StorageFlow.Syntax.Literal

/-!
# StorageFlow.Syntax.Expr

Expressions: literals, variables, calls by name and native instructions.

* `Expr.ofName`, `Expr.number`, `Expr.callOf`, `Expr.native` — nodes without a source location.
* `Expr.arguments`, `Expr.withArguments` — the operands of a node.
* `Expr.identifier?`, `Expr.literal?`, `Expr.toNat?` — views of leaves.
-/

namespace StorageFlow

/-- An occurrence of a name. -/
structure Identifier where
  name : Name
  span : Span
  deriving DecidableEq

/-- An occurrence of `name` without a source location. -/
def Identifier.ofName (name : Name) : Identifier :=
  ⟨name, .synthetic⟩

/-- An expression. -/
inductive Expr
  | literal (value : Literal)
  | identifier (occurrence : Identifier)
  /-- A call, by name, of a builtin or of a function of the program. -/
  | call (callee : Identifier) (arguments : List Expr) (span : Span)
  /-- The direct use of a native instruction. -/
  | instruction (operator : Instruction) (arguments : List Expr) (span : Span)

namespace Expr

/-- The variable `name`. -/
def ofName (name : Name) : Expr :=
  .identifier (.ofName name)

/-- The decimal literal for `n`. -/
def number (n : Nat) : Expr :=
  .literal (.number n)

/-- The call of `name` with the given arguments. -/
def callOf (name : Name) (arguments : List Expr) : Expr :=
  .call (.ofName name) arguments .synthetic

/-- The instruction `operator` with the given arguments. -/
def native (operator : Instruction) (arguments : List Expr) : Expr :=
  .instruction operator arguments .synthetic

/-- The source location of the whole expression. -/
def span : Expr → Span
  | .literal value => value.span
  | .identifier x => x.span
  | .call _ _ span => span
  | .instruction _ _ span => span

/-- The operands of a call or an instruction, in order; a leaf has none. -/
def arguments : Expr → List Expr
  | .literal _ => []
  | .identifier _ => []
  | .call _ arguments _ => arguments
  | .instruction _ arguments _ => arguments

/-- The same call or instruction on other operands; a leaf stays as it is. -/
def withArguments : Expr → List Expr → Expr
  | .literal value, _ => .literal value
  | .identifier x, _ => .identifier x
  | .call callee _ span, arguments => .call callee arguments span
  | .instruction operator _ span, arguments => .instruction operator arguments span

/-- The variable that the expression is, if it is one. -/
def identifier? : Expr → Option Identifier
  | .identifier x => some x
  | _ => none

/-- The literal that the expression is, if it is one. -/
def literal? : Expr → Option Literal
  | .literal value => some value
  | _ => none

/-- The number that the expression is written as, if it is a literal that stands for one. -/
def toNat? (e : Expr) : Option Nat :=
  e.literal?.bind Literal.toNat?

@[simp] theorem withArguments_arguments (e : Expr) : e.withArguments e.arguments = e := by
  cases e <;> rfl

end Expr

end StorageFlow
