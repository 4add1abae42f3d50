import StorageFlow.Rewriting.Rule
import StorageFlow.Syntax.Equality

/-!
# StorageFlow.Rewriting.Standard

The standard rules.

* `Rule.constantFolding` — operations on literals: `add(2, 3)` becomes `5`.
* `Rule.selfOperand` — operations on an operand and itself: `sub(x, x)` becomes `0`.
* `Rule.neutralElement` — an operand that changes nothing: `add(x, 0)` becomes `x`.
* `RuleTable.standard` — the three of them in this order.

Words have 256 bits, but literals stand for numbers below `numericLimit`. An operation is folded
only if its exact result is such a number, so that no fold depends on the width of a word.
-/

namespace StorageFlow

/-- The number, if a literal can stand for it. -/
def representable? (n : Nat) : Option Nat :=
  if n < numericLimit then some n else none

/-- One for true and zero for false. -/
def truthNumber (p : Bool) : Nat :=
  if p then 1 else 0

/-- The exact result of an instruction on numbers, if a literal can stand for it. The quotient and
the remainder of a division by zero are zero. -/
def Instruction.fold? : Instruction → List Nat → Option Nat
  | .iszero, [a] => some (truthNumber (a == 0))
  | .add, [a, b] => representable? (a + b)
  | .sub, [a, b] => if b ≤ a then some (a - b) else none
  | .mul, [a, b] => representable? (a * b)
  | .div, [a, b] => some (a / b)
  | .mod, [a, b] => some (if b = 0 then 0 else a % b)
  | .eq, [a, b] => some (truthNumber (a == b))
  | .lt, [a, b] => some (truthNumber (decide (a < b)))
  | .gt, [a, b] => some (truthNumber (decide (b < a)))
  | .and, [a, b] => some (a &&& b)
  | .or, [a, b] => some (a ||| b)
  | .xor, [a, b] => some (a ^^^ b)
  | _, _ => none

/-- The result of an instruction on an operand `x` and itself, for the instructions where it does
not depend on the operand's value or is that value. -/
def Instruction.onItself? (x : Expr) : Instruction → Option Expr
  | .sub | .xor => some (.number 0)
  | .eq => some (.number 1)
  | .lt | .gt | .slt | .sgt => some (.number 0)
  | .and | .or => some x
  | _ => none

/-- The operand that is the result because the other one is neutral. -/
def Instruction.neutral? (x y : Expr) : Instruction → Option Expr
  | .add | .or | .xor =>
      if y.toNat? = some 0 then some x
      else if x.toNat? = some 0 then some y
      else none
  | .sub => if y.toNat? = some 0 then some x else none
  | .mul =>
      if y.toNat? = some 1 then some x
      else if x.toNat? = some 1 then some y
      else none
  | .div => if y.toNat? = some 1 then some x else none
  | _ => none

namespace Rule

/-- Evaluates operations on literals that all stand for numbers. -/
def constantFolding : Rule where
  name := "constant-folding"
  apply _ operator arguments :=
    .ok (((arguments.mapM Expr.toNat?).bind operator.fold?).map Expr.number)

/-- Evaluates operations on an operand and itself, if the operand may be dropped. -/
def selfOperand : Rule where
  name := "self-operand"
  apply
    | dialect, operator, [x, y] =>
      .ok ((operator.onItself? x).filter fun _ => x.sameSyntax y && dialect.isDiscardable x)
    | _, _, _ => .ok none

/-- Drops an operand that does not change the result. -/
def neutralElement : Rule where
  name := "neutral-element"
  apply
    | _, operator, [x, y] => .ok (operator.neutral? x y)
    | _, _, _ => .ok none

end Rule

/-- The standard rules in their order. -/
def RuleTable.standard : RuleTable :=
  [.constantFolding, .selfOperand, .neutralElement]

end StorageFlow
