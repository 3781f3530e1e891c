import WhileLang.Text.Decimal

/-!
# Decimal numerals and their values

Which texts are numerals of 64-bit integers, told without reading them digit by digit.

Main definitions:

- Relation {lit}`Decimal.Denotes`: an optional sign and at least one digit, with the value in range.

Main results:

- Theorem {lit}`Decimal.readInt64_eq_ok`: exactly these texts are read, and as their values.
- Theorem {lit}`Decimal.readUnsigned_toString`: numbers within the limit are read back.
-/

namespace WhileLang
namespace Decimal

/-- A text is an optional sign and at least one digit, and its value is a 64-bit integer. -/
inductive Denotes : String → Int64 → Prop where
  | unsigned {text : String} {value : Int64} (hdigits : text.toList.all Char.isDigit = true)
      (hne : text.toList ≠ []) (hvalue : value.toInt = Nat.ofDigitChars 10 text.toList 0) :
      Denotes text value
  | positive {text : String} {digits : List Char} {value : Int64}
      (htext : text.toList = '+' :: digits) (hdigits : digits.all Char.isDigit = true)
      (hne : digits ≠ []) (hvalue : value.toInt = Nat.ofDigitChars 10 digits 0) :
      Denotes text value
  | negative {text : String} {digits : List Char} {value : Int64}
      (htext : text.toList = '-' :: digits) (hdigits : digits.all Char.isDigit = true)
      (hne : digits ≠ []) (hvalue : value.toInt = -Nat.ofDigitChars 10 digits 0) :
      Denotes text value

/-! ## Magnitudes -/

theorem le_ofDigitChars (digits : List Char) (magnitude : Nat) :
    magnitude ≤ Nat.ofDigitChars 10 digits magnitude := by
  induction digits generalizing magnitude with
  | nil => simp
  | cons c rest ih =>
    rw [Nat.ofDigitChars_cons]
    have hrest := ih (10 * magnitude + (c.toNat - '0'.toNat))
    omega

/-- Digits are read if their value is within the limit. -/
theorem readDigits_eq_ok {limit : Nat} {excess : Fault} {digits : List Char} {magnitude value : Nat}
    (hlimit : magnitude ≤ limit) :
    readDigits limit excess magnitude digits = .ok value ↔
      digits.all Char.isDigit = true ∧ value = Nat.ofDigitChars 10 digits magnitude
        ∧ value ≤ limit := by
  induction digits generalizing magnitude with
  | nil =>
    simp only [readDigits, Except.ok.injEq, List.all_nil, Nat.ofDigitChars_nil, true_and]
    omega
  | cons c rest ih =>
    rw [readDigits, Nat.ofDigitChars_cons, List.all_cons, Nat.mul_comm 10]
    by_cases hdigit : c.isDigit = true
    · have hvalue : digitValue? c = some (c.toNat - '0'.toNat) := if_pos hdigit
      simp only [hvalue]
      by_cases hexcess : limit < magnitude * 10 + (c.toNat - '0'.toNat)
      · -- Digits that follow only add to a magnitude that is too large.
        rw [if_pos hexcess]
        have hle := le_ofDigitChars rest (magnitude * 10 + (c.toNat - '0'.toNat))
        simp only [reduceCtorEq, false_iff]
        rintro ⟨-, rfl, hvalue⟩
        omega
      · rw [if_neg hexcess, ih (by omega)]
        simp [hdigit]
    · have hvalue : digitValue? c = none := if_neg hdigit
      simp [hvalue, hdigit]

theorem readMagnitude_eq_ok {limit : Nat} {excess : Fault} {digits : List Char} {value : Nat} :
    readMagnitude limit excess digits = .ok value ↔
      digits.all Char.isDigit = true ∧ digits ≠ [] ∧ value = Nat.ofDigitChars 10 digits 0
        ∧ value ≤ limit := by
  cases digits with
  | nil => simp [readMagnitude]
  | cons c rest =>
    rw [readMagnitude, readDigits_eq_ok (Nat.zero_le limit)]
    · simp
    · simp

/-! ## Unsigned integers -/

/-- A number within the limit is read back from its digits. -/
theorem readUnsigned_toString {limit number : Nat} (h : number ≤ limit) :
    readUnsigned limit (toString number) = .ok number := by
  have htext : (toString number).toList = Nat.toDigits 10 number := Nat.toList_repr
  have hdigits : (Nat.toDigits 10 number).all Char.isDigit = true := by
    rw [List.all_eq_true]
    exact fun c hc => Nat.isDigit_of_mem_toDigits (by decide) (by decide) hc
  have hread : readMagnitude limit .tooLarge (Nat.toDigits 10 number) = .ok number :=
    readMagnitude_eq_ok.2 ⟨hdigits, Nat.toDigits_ne_nil, Nat.ofDigitChars_ten_toDigits.symm, h⟩
  unfold readUnsigned
  rw [htext]
  split
  · next hnil => exact absurd hnil Nat.toDigits_ne_nil
  · next digits hplus => simp [hplus] at hdigits
  · exact hread

/-! ## Signed integers -/

theorem ofInt_eq_iff {number : Int} {value : Int64} (hlower : -int64Magnitude ≤ number)
    (hupper : number < int64Magnitude) : Int64.ofInt number = value ↔ value.toInt = number := by
  unfold int64Magnitude at hlower hupper
  constructor
  · rintro rfl
    exact Int64.toInt_ofInt_of_le (by omega) (by omega)
  · rintro rfl
    exact Int64.ofInt_toInt value

theorem map_readMagnitude_eq_ok {limit : Nat} {excess : Fault} {digits : List Char}
    {f : Nat → Int64} {value : Int64} :
    (readMagnitude limit excess digits).map f = .ok value ↔
      digits.all Char.isDigit = true ∧ digits ≠ [] ∧ Nat.ofDigitChars 10 digits 0 ≤ limit
        ∧ f (Nat.ofDigitChars 10 digits 0) = value := by
  have hmap : (readMagnitude limit excess digits).map f = .ok value ↔
      ∃ magnitude, readMagnitude limit excess digits = .ok magnitude ∧ f magnitude = value := by
    cases readMagnitude limit excess digits with
    | error _ => simp [Except.map]
    | ok magnitude => simp [Except.map]
  rw [hmap]
  constructor
  · rintro ⟨magnitude, hread, hvalue⟩
    obtain ⟨hdigits, hne, rfl, hlimit⟩ := readMagnitude_eq_ok.1 hread
    exact ⟨hdigits, hne, hlimit, hvalue⟩
  · rintro ⟨hdigits, hne, hlimit, hvalue⟩
    exact ⟨_, readMagnitude_eq_ok.2 ⟨hdigits, hne, rfl, hlimit⟩, hvalue⟩

/-- What is read without a minus sign is the value of the digits. -/
theorem map_readMagnitude_positive {digits : List Char} {value : Int64} :
    (readMagnitude (int64Magnitude - 1) .tooLarge digits).map readInt64.positive = .ok value ↔
      digits.all Char.isDigit = true ∧ digits ≠ []
        ∧ value.toInt = Nat.ofDigitChars 10 digits 0 := by
  rw [map_readMagnitude_eq_ok]
  have hmagnitude : int64Magnitude = 9223372036854775808 := rfl
  have hupper := value.toInt_lt
  constructor
  · rintro ⟨hdigits, hne, hlimit, hvalue⟩
    exact ⟨hdigits, hne, (ofInt_eq_iff (by omega) (by omega)).1 hvalue⟩
  · rintro ⟨hdigits, hne, hvalue⟩
    exact ⟨hdigits, hne, by omega, (ofInt_eq_iff (by omega) (by omega)).2 hvalue⟩

/-- What is read after a minus sign is the negated value of the digits. -/
theorem map_readMagnitude_negative {digits : List Char} {value : Int64} :
    (readMagnitude int64Magnitude .tooSmall digits).map readInt64.negative = .ok value ↔
      digits.all Char.isDigit = true ∧ digits ≠ []
        ∧ value.toInt = -Nat.ofDigitChars 10 digits 0 := by
  rw [map_readMagnitude_eq_ok]
  have hmagnitude : int64Magnitude = 9223372036854775808 := rfl
  have hlower := value.le_toInt
  constructor
  · rintro ⟨hdigits, hne, hlimit, hvalue⟩
    exact ⟨hdigits, hne, (ofInt_eq_iff (by omega) (by omega)).1 hvalue⟩
  · rintro ⟨hdigits, hne, hvalue⟩
    exact ⟨hdigits, hne, by omega, (ofInt_eq_iff (by omega) (by omega)).2 hvalue⟩

/-- Exactly the numerals of 64-bit integers are read, as the integers they denote. -/
theorem readInt64_eq_ok {text : String} {value : Int64} :
    readInt64 text = .ok value ↔ Denotes text value := by
  constructor
  · intro h
    unfold readInt64 at h
    split at h
    · cases h
    · rename_i digits htext
      obtain ⟨hdigits, hne, hvalue⟩ := map_readMagnitude_positive.1 h
      exact .positive htext hdigits hne hvalue
    · rename_i digits htext
      obtain ⟨hdigits, hne, hvalue⟩ := map_readMagnitude_negative.1 h
      exact .negative htext hdigits hne hvalue
    · obtain ⟨hdigits, hne, hvalue⟩ := map_readMagnitude_positive.1 h
      exact .unsigned hdigits hne hvalue
  · intro h
    unfold readInt64
    cases h with
    | positive htext hdigits hne hvalue =>
      rw [htext]
      exact map_readMagnitude_positive.2 ⟨hdigits, hne, hvalue⟩
    | negative htext hdigits hne hvalue =>
      rw [htext]
      exact map_readMagnitude_negative.2 ⟨hdigits, hne, hvalue⟩
    | unsigned hdigits hne hvalue =>
      split
      · rename_i htext
        exact absurd htext hne
      · rename_i digits htext
        simp [htext] at hdigits
      · rename_i digits htext
        simp [htext] at hdigits
      · exact map_readMagnitude_positive.2 ⟨hdigits, hne, hvalue⟩

end Decimal
end WhileLang
