/-!
# StorageFlow.Text.Numeral

Readers for unsigned numerals.

* `digitValue?` — the value of one digit, letters of either case standing for ten and more.
* `readDigits?` — a non-empty run of digits, read by position.
* `readUnsigned?` — digits with an optional leading plus sign.
* `readNumber?` — a decimal numeral, or a hexadecimal one behind the mark `0x`.
-/

namespace StorageFlow.Numeral

/-- The value of `c` as a digit of the given base, at most sixteen. -/
def digitValue? (base : Nat) (c : Char) : Option Nat :=
  let value :=
    if '0' ≤ c ∧ c ≤ '9' then some (c.toNat - '0'.toNat)
    else if 'a' ≤ c ∧ c ≤ 'f' then some (c.toNat - 'a'.toNat + 10)
    else if 'A' ≤ c ∧ c ≤ 'F' then some (c.toNat - 'A'.toNat + 10)
    else none
  value.filter (· < base)

/-- Appends the digits of a numeral to the value read so far. -/
def appendDigits? (base : Nat) (value : Nat) : List Char → Option Nat
  | [] => some value
  | c :: cs => (digitValue? base c).bind fun digit => appendDigits? base (value * base + digit) cs

/-- The positional value of a non-empty run of digits. -/
def readDigits? (base : Nat) : List Char → Option Nat
  | [] => none
  | cs => appendDigits? base 0 cs

/-- The value of a run of digits that may follow one plus sign. -/
def readUnsigned? (base : Nat) : List Char → Option Nat
  | '+' :: cs => readDigits? base cs
  | cs => readDigits? base cs

/-- The value of a hexadecimal numeral marked by `0x`, or of a decimal one. -/
def readNumber? : List Char → Option Nat
  | '0' :: 'x' :: cs => readUnsigned? 16 cs
  | cs => readUnsigned? 10 cs

end StorageFlow.Numeral
