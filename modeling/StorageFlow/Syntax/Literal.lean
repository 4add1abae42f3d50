import StorageFlow.Span
import StorageFlow.Text.Numeral

/-!
# StorageFlow.Syntax.Literal

Literals keep the text they were written with.

* `Literal.number`, `Literal.boolean`, `Literal.string`, `Literal.zero` — literals for given values.
* `Literal.toNat?` — the number a literal stands for, if it is below `numericLimit`.
-/

namespace StorageFlow

/-- What kind of value a literal is written as. -/
inductive Literal.Kind
  | number
  | boolean
  | string
  deriving DecidableEq

/-- A literal: its kind and the text between its delimiters, whatever that text is. -/
structure Literal where
  kind : Literal.Kind
  text : String
  span : Span
  deriving DecidableEq

/-- The least number that no literal is taken to stand for: numbers have 128 bits. -/
def numericLimit : Nat := Nat.pow 2 128

namespace Literal

/-- The decimal literal for `n`. -/
def number (n : Nat) : Literal :=
  ⟨.number, toString n, .synthetic⟩

/-- The literal `true` or `false`. -/
def boolean (b : Bool) : Literal :=
  ⟨.boolean, if b then "true" else "false", .synthetic⟩

/-- The string literal with the given contents. -/
def string (text : String) : Literal :=
  ⟨.string, text, .synthetic⟩

/-- The literal `0`, the value of a variable that was declared without one. -/
def zero : Literal :=
  number 0

/-- The number a literal stands for: decimal and `0x` hexadecimal numerals stand for their value
if it is below `numericLimit`, booleans for one and zero, strings for none. -/
def toNat? (literal : Literal) : Option Nat :=
  match literal.kind with
  | .number => (Numeral.readNumber? literal.text.toList).filter (· < numericLimit)
  | .boolean =>
    if literal.text = "true" then some 1
    else if literal.text = "false" then some 0
    else none
  | .string => none

theorem lt_of_toNat? {literal : Literal} {n : Nat} (h : literal.toNat? = some n) :
    n < numericLimit := by
  unfold toNat? at h
  split at h
  · exact of_decide_eq_true (Option.filter_eq_some_iff.1 h).2
  · split at h
    · cases h; decide
    · split at h
      · cases h; decide
      · cases h
  · cases h

end Literal

end StorageFlow
