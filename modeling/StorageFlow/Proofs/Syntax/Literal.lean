import StorageFlow.Syntax.Literal

/-!
# StorageFlow.Proofs.Syntax.Literal

Numbers survive being written as literals.

* `Numeral.readNumber?_toDigits` — decimal digits are read back.
* `Literal.toNat?_number` — the literal for a number stands for it, if it is below `numericLimit`.
-/

namespace StorageFlow

namespace Numeral

theorem digitValue?_of_isDigit {c : Char} (h : c.isDigit = true) :
    digitValue? 10 c = some (c.toNat - '0'.toNat) := by
  have hrange : '0' ≤ c ∧ c ≤ '9' := by
    simpa [Char.isDigit, Char.le_def] using h
  have hlt : c.toNat - '0'.toNat < 10 := by
    have hle : c.toNat ≤ '9'.toNat := hrange.2
    have h9 : '9'.toNat = 57 := rfl
    have h0 : '0'.toNat = 48 := rfl
    omega
  simp only [digitValue?, if_pos hrange]
  rw [Option.filter_eq_some_iff]
  exact ⟨rfl, decide_eq_true hlt⟩

/-- Digits are read by position, as the library reads them. -/
theorem appendDigits?_of_isDigit {cs : List Char} (h : ∀ c ∈ cs, c.isDigit = true) (value : Nat) :
    appendDigits? 10 value cs = some (Nat.ofDigitChars 10 cs value) := by
  induction cs generalizing value with
  | nil => rfl
  | cons c cs ih =>
      rw [appendDigits?, digitValue?_of_isDigit (h c List.mem_cons_self), Option.bind_some,
        ih fun c hc => h c (List.mem_cons_of_mem _ hc), Nat.ofDigitChars_cons, Nat.mul_comm]

/-- Decimal digits are read back. -/
theorem readNumber?_toDigits (n : Nat) : readNumber? (Nat.toDigits 10 n) = some n := by
  have hdigits : ∀ c ∈ Nat.toDigits 10 n, c.isDigit = true :=
    fun c hc => Nat.isDigit_of_mem_toDigits (by decide) (by decide) hc
  have hread : readUnsigned? 10 (Nat.toDigits 10 n) = some n := by
    unfold readUnsigned?
    split
    next cs hcs =>
      have hplus := hdigits '+' (by rw [hcs]; exact List.mem_cons_self)
      cases hplus
    next =>
      unfold readDigits?
      split
      next hnil => exact absurd hnil Nat.toDigits_ne_nil
      next => rw [appendDigits?_of_isDigit hdigits, Nat.ofDigitChars_ten_toDigits]
  unfold readNumber?
  split
  next cs hcs =>
    have hmark := hdigits 'x' (by rw [hcs]; exact List.mem_cons_of_mem _ List.mem_cons_self)
    cases hmark
  next => exact hread

end Numeral

namespace Literal

/-- The literal for a number stands for it, if it is below the limit. -/
theorem toNat?_number {n : Nat} (h : n < numericLimit) : (number n).toNat? = some n := by
  have htext : (number n).text.toList = Nat.toDigits 10 n := Nat.toList_repr
  rw [toNat?]
  simp only [htext, Numeral.readNumber?_toDigits]
  exact Option.filter_eq_some_iff.2 ⟨rfl, decide_eq_true h⟩

end Literal

end StorageFlow
