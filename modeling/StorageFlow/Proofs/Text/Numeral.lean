import StorageFlow.Proofs.Syntax.Literal
import Mathlib.Data.List.Forall2
import Mathlib.Data.Nat.Digits.Defs

/-!
# StorageFlow.Proofs.Text.Numeral

Which texts are numerals, and what number a numeral stands for.

* `Numeral.IsDigit`, `Numeral.Digits`, `Numeral.Unsigned`, `Numeral.Written` — the numerals and
  their positional values, without reference to how they are read.
* `Numeral.digitValue?_eq_some_iff`, `Numeral.appendDigits?_eq_some_iff`,
  `Numeral.readDigits?_eq_some_iff`, `Numeral.readUnsigned?_eq_some_iff`,
  `Numeral.readNumber?_eq_some_iff` — each reader accepts exactly these.
* `Literal.toNat?_mk_number_iff` — the number that a number literal stands for.
* `Literal.numerals_decode` — literals for numbers stand for them, and number literals stand for
  the same number if and only if their texts do.
-/

namespace StorageFlow

namespace Numeral

/-- The digits, each at the position that is its value. -/
def lowerDigits : List Char :=
  ['0', '1', '2', '3', '4', '5', '6', '7', '8', '9', 'a', 'b', 'c', 'd', 'e', 'f']

/-- The digits with upper-case letters, each at the position that is its value. -/
def upperDigits : List Char :=
  ['0', '1', '2', '3', '4', '5', '6', '7', '8', '9', 'A', 'B', 'C', 'D', 'E', 'F']

/-- The character is the digit `d` of the base, which is at most sixteen. -/
def IsDigit (base : Nat) (c : Char) (d : Nat) : Prop :=
  d < base ∧ (lowerDigits[d]? = some c ∨ upperDigits[d]? = some c)

/-- The text is a non-empty run of digits with the positional value `v`. -/
def Digits (base : Nat) (text : List Char) (v : Nat) : Prop :=
  text ≠ [] ∧
    ∃ digits, List.Forall₂ (IsDigit base) text digits ∧ v = Nat.ofDigits base digits.reverse

/-- The text is a run of digits with the value `v`, directly behind a plus sign or alone. -/
inductive Unsigned (base : Nat) : List Char → Nat → Prop
  | plain {text v} : Digits base text v → Unsigned base text v
  | signed {text v} : Digits base text v → Unsigned base ('+' :: text) v

/-- The text is a numeral for `v`: a decimal one, or a hexadecimal one behind the mark `0x`. -/
inductive Written : List Char → Nat → Prop
  | decimal {text v} : Unsigned 10 text v → Written text v
  | hexadecimal {text v} : Unsigned 16 text v → Written ('0' :: 'x' :: text) v

variable {base : Nat} {c : Char} {d value v : Nat} {text : List Char}

theorem IsDigit.mem (h : IsDigit base c d) : c ∈ lowerDigits ++ upperDigits := by
  rcases h.2 with hlower | hupper
  · exact List.mem_append_left _ (List.mem_of_getElem? hlower)
  · exact List.mem_append_right _ (List.mem_of_getElem? hupper)

/-- A character of a range has a code point of that range. -/
theorem eq_ofNat_of_le_of_le {first last : Char} (h : first ≤ c ∧ c ≤ last) :
    ∃ i ≤ last.toNat - first.toNat, c = Char.ofNat (first.toNat + i) ∧
      c.toNat - first.toNat = i := by
  have hfirst : first.toNat ≤ c.toNat := h.1
  have hlast : c.toNat ≤ last.toNat := h.2
  refine ⟨c.toNat - first.toNat, by omega, ?_, rfl⟩
  rw [Nat.add_sub_cancel' hfirst, Char.ofNat_toNat]

/-- The reader of single digits finds their values. -/
theorem digitValue?_eq_some_iff : digitValue? base c = some d ↔ IsDigit base c d := by
  simp only [digitValue?, IsDigit, Option.filter_eq_some_iff, decide_eq_true_eq]
  rw [and_comm]
  refine and_congr_right fun _ => ⟨fun h => ?_, fun h => ?_⟩
  · split at h
    next hrange =>
      obtain ⟨i, hi, hc, rfl⟩ := eq_ofNat_of_le_of_le hrange
      cases h
      have hdigit : ∀ i ≤ 9, lowerDigits[i]? = some (Char.ofNat ('0'.toNat + i)) := by decide
      exact .inl ((hdigit _ hi).trans (congrArg some hc.symm))
    next =>
      split at h
      next hrange =>
        obtain ⟨i, hi, hc, rfl⟩ := eq_ofNat_of_le_of_le hrange
        cases h
        have hdigit : ∀ i ≤ 5, lowerDigits[i + 10]? = some (Char.ofNat ('a'.toNat + i)) := by
          decide
        exact .inl ((hdigit _ hi).trans (congrArg some hc.symm))
      next =>
        obtain ⟨hrange, h⟩ := Option.ite_none_right_eq_some.1 h
        obtain ⟨i, hi, hc, rfl⟩ := eq_ofNat_of_le_of_le hrange
        cases h
        have hdigit : ∀ i ≤ 5, upperDigits[i + 10]? = some (Char.ofNat ('A'.toNat + i)) := by
          decide
        exact .inr ((hdigit _ hi).trans (congrArg some hc.symm))
  · have hlower : ∀ d < 16, (lowerDigits[d]?).bind (digitValue? 16) = some d := by decide
    have hupper : ∀ d < 16, (upperDigits[d]?).bind (digitValue? 16) = some d := by decide
    have hvalue : digitValue? 16 c = some d := by
      rcases h with h | h
      · have hd := hlower d (List.getElem?_eq_some_iff.1 h).1
        rwa [h] at hd
      · have hd := hupper d (List.getElem?_eq_some_iff.1 h).1
        rwa [h] at hd
    exact (Option.filter_eq_some_iff.1 hvalue).1

/-- Digits are read with what was read before them as a digit in front. -/
theorem appendDigits?_eq_some_iff :
    appendDigits? base value text = some v ↔
      ∃ digits, List.Forall₂ (IsDigit base) text digits ∧
        v = Nat.ofDigits base (digits.reverse ++ [value]) := by
  induction text generalizing value with
  | nil => simp [appendDigits?, eq_comm]
  | cons c text ih =>
      have hshift (d : Nat) (digits : List Nat) :
          Nat.ofDigits base (digits.reverse ++ [value * base + d]) =
            Nat.ofDigits base ((d :: digits).reverse ++ [value]) := by
        simp only [List.reverse_cons, List.append_assoc, List.cons_append, List.nil_append,
          Nat.ofDigits_append, Nat.ofDigits_cons, Nat.ofDigits_nil]
        rw [Nat.mul_zero, Nat.add_zero, Nat.add_zero, Nat.add_comm (value * base),
          Nat.mul_comm value]
      simp only [appendDigits?, Option.bind_eq_some_iff, digitValue?_eq_some_iff, ih, hshift]
      constructor
      · rintro ⟨d, hd, digits, hdigits, hv⟩
        exact ⟨d :: digits, .cons hd hdigits, hv⟩
      · rintro ⟨_, _ | ⟨hd, hdigits⟩, hv⟩
        exact ⟨_, hd, _, hdigits, hv⟩

theorem readDigits?_eq_some_iff : readDigits? base text = some v ↔ Digits base text v := by
  cases text with
  | nil => simp [readDigits?, Digits]
  | cons c text => simp [readDigits?, Digits, appendDigits?_eq_some_iff]

theorem not_digits_plus : ¬ Digits base ('+' :: text) v := by
  rintro ⟨_, _, _ | ⟨hplus, _⟩, _⟩
  exact absurd hplus.mem (by decide)

theorem readUnsigned?_eq_some_iff : readUnsigned? base text = some v ↔ Unsigned base text v := by
  unfold readUnsigned?
  split
  next text =>
    rw [readDigits?_eq_some_iff]
    refine ⟨.signed, fun h => ?_⟩
    cases h with
    | plain h => exact absurd h not_digits_plus
    | signed h => exact h
  next text hplus =>
    rw [readDigits?_eq_some_iff]
    refine ⟨.plain, fun h => ?_⟩
    cases h with
    | plain h => exact h
    | signed h => exact absurd rfl (hplus _)

/-- The mark of a hexadecimal numeral does not start a decimal one. -/
theorem not_unsigned_mark : ¬ Unsigned 10 ('0' :: 'x' :: text) v := by
  rintro ⟨_, _, _ | ⟨_, _ | ⟨hmark, _⟩⟩, _⟩
  exact absurd hmark.mem (by decide)

/-- The reader of numerals accepts the numerals, and finds what they stand for. -/
theorem readNumber?_eq_some_iff : readNumber? text = some v ↔ Written text v := by
  unfold readNumber?
  split
  next text =>
    rw [readUnsigned?_eq_some_iff]
    refine ⟨.hexadecimal, fun h => ?_⟩
    cases h with
    | decimal h => exact absurd h not_unsigned_mark
    | hexadecimal h => exact h
  next text hmark =>
    rw [readUnsigned?_eq_some_iff]
    refine ⟨.decimal, fun h => ?_⟩
    cases h with
    | decimal h => exact h
    | hexadecimal h => exact absurd rfl (hmark _)

/-- A text is a numeral for at most one number. -/
theorem Written.unique {w : Nat} (hv : Written text v) (hw : Written text w) : v = w :=
  Option.some.inj ((readNumber?_eq_some_iff.2 hv).symm.trans (readNumber?_eq_some_iff.2 hw))

end Numeral

namespace Literal

/-- A number literal stands for the number that its text is a numeral for, if that is below the
limit. -/
theorem toNat?_mk_number_iff {text : String} {span : Span} {v : Nat} :
    (Literal.mk .number text span).toNat? = some v ↔
      Numeral.Written text.toList v ∧ v < numericLimit := by
  simp [toNat?, Option.filter_eq_some_iff, Numeral.readNumber?_eq_some_iff]

/-- Literals are encoded and decoded alike. The literal for a number of 128 bits stands for that
number; a number literal with any text stands for `v` if and only if the text is a numeral for `v`
and `v` has 128 bits; and two number literals that stand for numbers stand for the same one if and
only if their texts are numerals for the same one. -/
theorem numerals_decode :
    (∀ n : BitVec 128, (number n.toNat).toNat? = some n.toNat) ∧
      (∀ (text : String) (span : Span) (v : Nat),
        (Literal.mk .number text span).toNat? = some v ↔
          Numeral.Written text.toList v ∧ v < 2 ^ 128) ∧
      ∀ a b : Literal, a.kind = .number → b.kind = .number →
        a.toNat?.isSome = true → b.toNat?.isSome = true →
        ((∃ v, Numeral.Written a.text.toList v ∧ Numeral.Written b.text.toList v) ↔
          a.toNat? = b.toNat?) := by
  refine ⟨fun n => toNat?_number n.isLt, fun _ _ _ => toNat?_mk_number_iff, ?_⟩
  rintro ⟨_, atext, aspan⟩ ⟨_, btext, bspan⟩ rfl rfl ha hb
  obtain ⟨v, hv⟩ := Option.isSome_iff_exists.1 ha
  obtain ⟨w, hw⟩ := Option.isSome_iff_exists.1 hb
  rw [hv, hw, Option.some.injEq]
  rw [toNat?_mk_number_iff] at hv hw
  constructor
  · rintro ⟨u, hu, hu'⟩
    exact (hv.1.unique hu).trans (hu'.unique hw.1)
  · rintro rfl
    exact ⟨v, hv.1, hw.1⟩

/-- A hexadecimal numeral and a decimal one for the same number. -/
theorem numerals_decode_twoNotations :
    (∃ v, Numeral.Written "0x00fF".toList v ∧ Numeral.Written "+255".toList v) ∧
      (Literal.mk .number "0x00fF" .synthetic).toNat? = some 255 := by
  obtain ⟨_, hread, hsame⟩ := numerals_decode
  have hhex : (Literal.mk .number "0x00fF" .synthetic).toNat? = some 255 := by decide +kernel
  have hdecimal : (Literal.mk .number "+255" .synthetic).toNat? = some 255 := by decide +kernel
  refine ⟨(hsame _ _ rfl rfl ?_ ?_).2 (hhex.trans hdecimal.symm), hhex⟩
  · exact Option.isSome_of_eq_some hhex
  · exact Option.isSome_of_eq_some hdecimal

end Literal

end StorageFlow
