import SchemaByExample.Proofs.Json.NumberText
import SchemaByExample.Proofs.Number.DecimalText
import SchemaByExample.Proofs.Number.ReadingBack

/-! What is written for a number determines it. The text of a double is a literal of the decimal
that it was made of, a literal determines its decimal, and rounding the decimal gives the double
back. An integer is told from a double by the lack of a point and an exponent. -/
namespace SchemaByExample.Json

open Number Literal

def NumberLiteral.toDecimal (l : NumberLiteral) : DecimalLiteral where
  sign := if l.negative then .minus else .absent
  whole := l.whole.chars
  fraction := l.fraction.map Digits.chars
  exponent := l.exponent
  whole_digits := l.whole.digit
  fraction_digits := by
    rintro ds hds
    obtain ⟨fraction, -, rfl⟩ := Option.mem_map.mp hds
    exact fraction.digit
  some_digit := .inl l.whole.ne_nil

namespace NumberLiteral

theorem chars_toDecimal (l : NumberLiteral) : l.toDecimal.chars = l.chars := by
  have hfraction : DecimalLiteral.pointChars l.toDecimal.fraction = fractionChars l.fraction := by
    obtain ⟨_, _, _ | _, _, _⟩ := l <;> rfl
  have hunsigned : l.toDecimal.unsigned = l.unsigned := by
    rw [DecimalLiteral.unsigned, unsigned, hfraction]
    rfl
  rw [DecimalLiteral.chars, chars, hunsigned, toDecimal]
  cases l.negative <;> rfl

theorem decimal_toDecimal (l : NumberLiteral) : l.toDecimal.decimal = l.decimal := by
  have hplaces : l.toDecimal.places.map Literal.digitValue =
      l.fraction.elim [] Digits.values := by
    obtain ⟨_, _, _ | _, _, _⟩ := l <;> rfl
  have hsign : decide (l.toDecimal.sign = .minus) = l.negative := by
    rw [toDecimal]
    cases l.negative <;> rfl
  rw [DecimalLiteral.decimal, decimal, hplaces, hsign]
  rfl

/-- The text of a literal determines its number. -/
theorem decimal_eq_of_chars {l m : NumberLiteral} (h : l.chars = m.chars) :
    l.decimal = m.decimal := by
  -- there is a reader of decimals that rounds nothing
  have hread (l : NumberLiteral) : DecimalText.decimal? l.chars = some (l.decimal, []) := by
    have hends : EndsLiteral [] := nofun
    have h := l.toDecimal.decimal?_append hends
    rwa [List.append_nil, chars_toDecimal, decimal_toDecimal] at h
  have hboth := (hread l).symm.trans (h ▸ hread m)
  exact congrArg Prod.fst (Option.some.inj hboth)

/-- A literal with a point or an exponent has a character that no integer has. -/
theorem exists_mark {l : NumberLiteral} (h : l.fraction ≠ none ∨ l.exponent ≠ none) :
    ∃ c ∈ l.chars, c.isDigit = false ∧ c ≠ '-' := by
  have hmem {c : Char} (hc : c ∈ l.unsigned) : c ∈ l.chars := by
    rw [chars]
    split
    · exact List.mem_cons_of_mem '-' hc
    · exact hc
  obtain hfraction | hexponent := h
  · obtain ⟨fraction, hf⟩ := Option.ne_none_iff_exists'.mp hfraction
    refine ⟨'.', hmem ?_, rfl, by decide⟩
    rw [unsigned, hf, fractionChars]
    simp
  · obtain ⟨e, he⟩ := Option.ne_none_iff_exists'.mp hexponent
    refine ⟨e.mark, hmem ?_, ?_⟩
    · rw [unsigned, he, exponentChars, ExponentPart.chars]
      simp
    · rw [ExponentPart.mark]
      split <;> decide

end NumberLiteral

/-- Zeros at the end of the digits may be counted in the exponent. -/
theorem magnitude_shift (negative : Bool) (n k : Nat) (g : Int) :
    (⟨negative, n * tenTo k, g - k⟩ : Decimal).magnitude = n * 10 ^ g := by
  have hten : (10 : ℚ) ≠ 0 := by norm_num
  have hpower : ((tenTo k : Nat) : ℚ) = 10 ^ k := Nat.cast_pow 10 k
  have hpos : (10 : ℚ) ^ k ≠ 0 := pow_ne_zero k hten
  rw [Decimal.magnitude, Nat.cast_mul, hpower, zpow_sub₀ hten, zpow_natCast]
  field_simp

/-- The text of a decimal is a literal of the same number, and is no integer. -/
theorem exists_literal_decimal (d : Decimal) : ∃ l : NumberLiteral,
    l.chars = (documentStyle.text d).toList ∧ l.decimal.negative = d.negative ∧
      l.decimal.magnitude = d.magnitude ∧ (l.fraction ≠ none ∨ l.exponent ≠ none) := by
  obtain ⟨l, hl⟩ := spelled_magnitude d.negative (lead_trimmed d)
  obtain ⟨k, hk⟩ := hl.decimal
  obtain ⟨j, hdigits, hlength⟩ := exists_trimmed d.digits
  refine ⟨l, by rw [NumberLiteral.chars, hl.sign, hl.unsigned, text_eq], by rw [hk], ?_, hl.pointed⟩
  rw [hk, magnitude_shift]
  by_cases h0 : d.digits = 0
  · rw [Decimal.magnitude, h0, number_trimmed_zero, Nat.cast_zero, zero_mul, zero_mul]
  · rw [leadExponent_sub h0 hlength, ← magnitude_shift d.negative _ j, ← hdigits,
      Int.add_sub_cancel]

/-- The text of a double determines the double. -/
theorem text_injective {x y : Double} (h : x.text = y.text) : x = y := by
  obtain ⟨l, hl, hnegative, hmagnitude, -⟩ := exists_literal_decimal x.shortest
  obtain ⟨m, hm, hnegative', hmagnitude', -⟩ := exists_literal_decimal y.shortest
  have hdecimal : l.decimal = m.decimal :=
    NumberLiteral.decimal_eq_of_chars (hl.trans ((congrArg String.toList h).trans hm.symm))
  rw [hdecimal] at hnegative hmagnitude
  have hread : x.shortest.toBinary Format.double = y.shortest.toBinary Format.double :=
    Decimal.toBinary_congr (hnegative.symm.trans hnegative') (hmagnitude.symm.trans hmagnitude')
  rw [Binary.toBinary_shortest, Binary.toBinary_shortest] at hread
  exact Option.some.inj hread

/-- The text of an integer has no character but digits and a minus sign. -/
theorem isDigit_of_mem_intChars {n : Int} {c : Char} (h : c ∈ intChars n) (hc : c ≠ '-') :
    c.isDigit = true := by
  rw [intChars] at h
  split at h
  · exact isDigit_of_mem ((List.mem_cons.mp h).resolve_left hc)
  · exact isDigit_of_mem h

theorem intChars_injective {m n : Int} (h : intChars m = intChars n) : m = n := by
  have hdigits {i j : Nat} (h : Nat.toDigits 10 i = Nat.toDigits 10 j) : i = j := by
    rw [← ofDigits_toDigits i, h, ofDigits_toDigits]
  -- digits do not begin with a sign
  have hsign (i : Nat) (cs : List Char) : '-' :: cs ≠ Nat.toDigits 10 i := by
    intro h
    have hminus : '-'.isDigit = true := isDigit_of_mem (h ▸ List.mem_cons_self)
    exact absurd hminus (by decide)
  rw [intChars, intChars] at h
  split at h
  · split at h
    · have := hdigits (List.cons.inj h).2
      omega
    · exact absurd h (hsign _ _)
  · split at h
    · exact absurd h.symm (hsign _ _)
    · have := hdigits h
      omega

theorem intChars_ne_text (n : Int) (x : Double) : intChars n ≠ x.text.toList := by
  intro h
  obtain ⟨l, hl, -, -, hpointed⟩ := exists_literal_decimal x.shortest
  obtain ⟨c, hc, hdigit, hminus⟩ := l.exists_mark hpointed
  rw [hl, ← Binary.text, ← h] at hc
  rw [isDigit_of_mem_intChars hc hminus] at hdigit
  cases hdigit

/-- What is written for a number determines it: integers, doubles, and which of them it is. -/
theorem numberChars_injective {m n : JsonNumber} (h : numberChars m = numberChars n) : m = n := by
  cases m with
  | word v =>
    cases n with
    | word w =>
      obtain ⟨v, hlow, hhigh⟩ := v
      obtain ⟨w, hlow', hhigh'⟩ := w
      obtain rfl : v = w := intChars_injective h
      rfl
    | double y => exact absurd h (intChars_ne_text _ y)
  | double x =>
    cases n with
    | word w => exact absurd h.symm (intChars_ne_text _ x)
    | double y => rw [text_injective (String.toList_inj.mp h)]

end SchemaByExample.Json
