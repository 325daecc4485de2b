import Mathlib.Tactic.FieldSimp
import SchemaByExample.Number.DecimalText
import SchemaByExample.Proofs.Json.NumberText
import SchemaByExample.Proofs.Number.Range

/-! Decimal literals, and their reading. The reader takes a literal from the front of a text if
there is one, and takes the whole of it where nothing follows that could go on with it. -/
namespace SchemaByExample.Number

open Json DecimalText
open Literal (digitValue)

def decimalNumber (ds : List Char) : Nat := ofDigits 10 (ds.map digitValue)

/-- A decimal literal: digits, or digits on one side of a point at least. -/
structure DecimalLiteral where
  sign : Sign
  whole : List Char
  fraction : Option (List Char)
  exponent : Option ExponentPart
  whole_digits : ∀ c ∈ whole, c.isDigit = true
  fraction_digits : ∀ ds ∈ fraction, ∀ c ∈ ds, c.isDigit = true
  some_digit : whole ≠ [] ∨ ∃ ds ∈ fraction, ds ≠ []

namespace DecimalLiteral

def pointChars : Option (List Char) → List Char
  | none => []
  | some ds => '.' :: ds

variable (l : DecimalLiteral)

def places : List Char := l.fraction.getD []

def unsigned : List Char := l.whole ++ (pointChars l.fraction ++ exponentChars l.exponent)

def chars : List Char := l.sign.chars ++ l.unsigned

def value : ℚ :=
  (if l.sign = .minus then -1 else 1) *
    ((decimalNumber l.whole + decimalNumber l.places / 10 ^ l.places.length) *
      10 ^ exponentValue l.exponent)

def decimal : Decimal :=
  .ofParts (l.sign = .minus) (l.whole.map digitValue) (l.places.map digitValue)
    (exponentValue l.exponent)

theorem abs_value : |l.value| = l.decimal.magnitude := by
  have hten : (10 : ℚ) ≠ 0 := by norm_num
  have hsign : |if l.sign = .minus then (-1 : ℚ) else 1| = 1 := by split <;> simp
  have hnonneg : 0 ≤ ((decimalNumber l.whole : ℚ) + decimalNumber l.places / 10 ^ l.places.length) *
      10 ^ exponentValue l.exponent := by positivity
  have hdigits : (l.decimal.digits : ℚ) =
      decimalNumber l.whole * 10 ^ l.places.length + decimalNumber l.places := by
    simp only [decimal, Decimal.ofParts, ofDigits_append, List.length_map, tenTo, decimalNumber,
      Nat.pow_eq]
    push_cast
    rfl
  have hexponent : l.decimal.exponent = exponentValue l.exponent - l.places.length := by
    simp only [decimal, Decimal.ofParts, List.length_map]
  have hpos : (10 : ℚ) ^ l.places.length ≠ 0 := pow_ne_zero _ hten
  rw [value, abs_mul, hsign, one_mul, abs_of_nonneg hnonneg, Decimal.magnitude, hdigits, hexponent,
    zpow_sub₀ hten, zpow_natCast]
  field_simp

/-- A literal has a nearest double if its number is below the midpoint. -/
theorem isSome_toBinary_iff :
    (l.decimal.toBinary Format.double).isSome = true ↔ |l.value| < 2 ^ 1024 - 2 ^ 970 := by
  rw [Decimal.isSome_toBinary_iff, Decimal.inRange_iff, abs_value]

end DecimalLiteral

/-! Reading. -/

theorem digits_eq (cs : List Char) : digits cs =
    ((cs.takeWhile Char.isDigit).map digitValue, cs.dropWhile Char.isDigit) := by
  have hdigit : DecimalText.isDigit = Char.isDigit := by
    funext c
    rw [Bool.eq_iff_iff, DecimalText.isDigit, Bool.and_eq_true, decide_eq_true_eq,
      decide_eq_true_eq]
    exact ⟨fun h => Literal.isDigit_of_bounds h.1 h.2, Literal.isDigit_bounds⟩
  rw [digits, hdigit]
  rfl

def NoDigit (rest : List Char) : Prop := ∀ c ∈ rest.head?, c.isDigit = false

def EndsLiteral (rest : List Char) : Prop :=
  ∀ c ∈ rest.head?, c.isDigit = false ∧ c ∉ ['.', 'e', 'E']

theorem EndsLiteral.noDigit {rest : List Char} (h : EndsLiteral rest) : NoDigit rest :=
  fun c hc => (h c hc).1

theorem noDigit_cons {c : Char} (h : c.isDigit = false) (rest : List Char) :
    NoDigit (c :: rest) := by
  intro d hd
  rwa [← Option.some.inj hd]

theorem digits_append {ds rest : List Char} (hds : ∀ c ∈ ds, c.isDigit = true)
    (hrest : NoDigit rest) : digits (ds ++ rest) = (ds.map digitValue, rest) := by
  have hstop : rest.takeWhile Char.isDigit = [] ∧ rest.dropWhile Char.isDigit = rest := by
    cases rest with
    | nil => exact ⟨rfl, rfl⟩
    | cons c rest => simp [hrest c rfl]
  rw [digits_eq, List.takeWhile_append_of_pos hds, List.dropWhile_append_of_pos hds, hstop.1,
    hstop.2, List.append_nil]

theorem exists_of_digits {cs rest : List Char} {values : List Nat}
    (h : digits cs = (values, rest)) : ∃ ds : List Char, (∀ c ∈ ds, c.isDigit = true) ∧
      values = ds.map digitValue ∧ cs = ds ++ rest ∧ NoDigit rest := by
  rw [digits_eq] at h
  obtain ⟨rfl, rfl⟩ := Prod.mk.inj h
  refine ⟨cs.takeWhile Char.isDigit, List.all_eq_true.mp List.all_takeWhile, rfl,
    List.takeWhile_append_dropWhile.symm, fun c hc => ?_⟩
  have hhead := List.head?_dropWhile_not Char.isDigit cs
  rw [Option.mem_def.mp hc] at hhead
  simpa using hhead

theorem sign_append {s : Sign} {cs : List Char} (h : ∀ c ∈ cs.head?, c ≠ '+' ∧ c ≠ '-') :
    sign (s.chars ++ cs) = (decide (s = .minus), cs) := by
  cases s with
  | plus => rfl
  | minus => rfl
  | absent =>
    cases cs with
    | nil => rfl
    | cons c cs =>
      obtain ⟨hplus, hminus⟩ := h c rfl
      simp only [Sign.chars, List.nil_append]
      rw [sign.eq_def]
      split
      · rename_i heq
        exact absurd (List.cons.inj heq).1 hplus
      · rename_i heq
        exact absurd (List.cons.inj heq).1 hminus
      · rfl

theorem exists_of_sign {cs rest : List Char} {negative : Bool} (h : sign cs = (negative, rest)) :
    ∃ s : Sign, negative = decide (s = .minus) ∧ cs = s.chars ++ rest := by
  rw [sign.eq_def] at h
  split at h
  · cases h
    exact ⟨.plus, rfl, rfl⟩
  · cases h
    exact ⟨.minus, rfl, rfl⟩
  · cases h
    exact ⟨.absent, rfl, rfl⟩

theorem unsigned_of_isDigit {c : Char} (h : c.isDigit = true) : c ≠ '+' ∧ c ≠ '-' := by
  constructor <;> (rintro rfl; cases h)

theorem exponent_none {rest : List Char} (h : EndsLiteral rest) : exponent rest = (0, rest) := by
  cases rest with
  | nil => rfl
  | cons c rest =>
    have hc := (h c rfl).2
    simp only [List.mem_cons, List.not_mem_nil, or_false, not_or] at hc
    rw [exponent, if_neg (by simp [hc.2])]

/-- An exponent is read whole if no digit follows. -/
theorem exponent_chars (e : ExponentPart) {rest : List Char} (h : NoDigit rest) :
    exponent (e.chars ++ rest) = (e.value, rest) := by
  obtain ⟨d, ds, hd⟩ := List.exists_cons_of_ne_nil e.digits.ne_nil
  have hdigit : ∀ c ∈ (e.digits.chars ++ rest).head?, c ≠ '+' ∧ c ≠ '-' := by
    rw [hd]
    rintro c ⟨⟩
    exact unsigned_of_isDigit (e.digits.digit d (by rw [hd]; simp))
  have hmark : e.mark = 'e' ∨ e.mark = 'E' := by
    rw [ExponentPart.mark]
    split <;> simp
  -- so the reader does not take the letter for something behind the literal
  have hvalues : e.digits.chars.map digitValue ≠ [] := by simp [e.digits.ne_nil]
  simp only [ExponentPart.chars, List.cons_append, List.append_assoc, exponent,
    if_pos hmark, sign_append hdigit, digits_append e.digits.digit h,
    ExponentPart.value, decide_eq_true_eq]
  rfl

theorem exponent_append (e : Option ExponentPart) {rest : List Char} (h : EndsLiteral rest) :
    exponent (exponentChars e ++ rest) = (exponentValue e, rest) := by
  cases e with
  | none => exact exponent_none h
  | some e => exact exponent_chars e h.noDigit

theorem exists_of_exponent {cs rest : List Char} {value : Int}
    (h : exponent cs = (value, rest)) :
    ∃ e : Option ExponentPart, value = exponentValue e ∧ cs = exponentChars e ++ rest := by
  have hnone (heq : ((0 : Int), cs) = (value, rest)) :
      ∃ e : Option ExponentPart, value = exponentValue e ∧ cs = exponentChars e ++ rest := by
    cases heq
    exact ⟨none, rfl, rfl⟩
  cases cs with
  | nil => exact hnone h
  | cons c cs =>
    rw [exponent] at h
    split at h
    · rename_i hc
      cases hs : sign cs with
      | mk negative cs' =>
        obtain ⟨s, rfl, rfl⟩ := exists_of_sign hs
        simp only [hs] at h
        split at h
        · exact hnone h
        · rename_i values rest' hne hdigits
          obtain ⟨ds, hds, rfl, rfl, -⟩ := exists_of_digits hdigits
          cases h
          have hne' : ds ≠ [] := by
            rintro rfl
            exact hne rfl
          refine ⟨some ⟨decide (c = 'E'), s, ⟨ds, hne', hds⟩⟩, ?_, ?_⟩
          · simp only [exponentValue, ExponentPart.value, decide_eq_true_eq]
            rfl
          · simp only [exponentChars, ExponentPart.chars, ExponentPart.mark, List.cons_append,
              List.append_assoc]
            obtain rfl | rfl := hc <;> rfl
    · exact hnone h

open DecimalLiteral (pointChars)

/-- The digits on both sides of the point, of which there have to be some. -/
theorem mantissa?_append {whole : List Char} {fraction : Option (List Char)} {rest : List Char}
    (hw : ∀ c ∈ whole, c.isDigit = true) (hf : ∀ ds ∈ fraction, ∀ c ∈ ds, c.isDigit = true)
    (hsome : whole ≠ [] ∨ ∃ ds ∈ fraction, ds ≠ [])
    (hrest : NoDigit rest) (hpoint : fraction = none → rest.head? ≠ some '.') :
    mantissa? (whole ++ (pointChars fraction ++ rest)) =
      some (whole.map digitValue, (fraction.getD []).map digitValue, rest) := by
  have hpoint' (cs : List Char) : NoDigit ('.' :: cs) := noDigit_cons (by decide) cs
  cases whole with
  | nil =>
    obtain ⟨ds, rfl, hds⟩ : ∃ ds, fraction = some ds ∧ ds ≠ [] := by simpa using hsome
    obtain ⟨d, ds, rfl⟩ := List.exists_cons_of_ne_nil hds
    have hempty := digits_append hw (hpoint' (d :: ds ++ rest))
    have hdigits := digits_append (hf _ rfl) hrest
    show mantissa? ([] ++ '.' :: (d :: ds ++ rest)) = _
    rw [mantissa?, hempty]
    simp only [List.map_nil, hdigits]
    rfl
  | cons c whole =>
    cases fraction with
    | some ds =>
      have hwhole := digits_append hw (hpoint' (ds ++ rest))
      have hdigits := digits_append (hf _ rfl) hrest
      show mantissa? (c :: whole ++ '.' :: (ds ++ rest)) = _
      rw [mantissa?, hwhole]
      simp only [List.map_cons, hdigits]
      rfl
    | none =>
      simp only [mantissa?, pointChars, List.nil_append, digits_append hw hrest, List.map_cons]
      cases rest with
      | nil => rfl
      | cons d rest =>
        have hd : d ≠ '.' := fun hd => hpoint rfl (by rw [hd]; rfl)
        split
        · rename_i heq
          cases heq
        · rename_i heq
          cases heq
        · rename_i heq
          exact absurd (List.cons.inj (Prod.mk.inj heq).2).1 hd
        · rename_i heq
          cases heq
          rfl

theorem exists_of_mantissa? {cs rest : List Char} {ws fs : List Nat}
    (h : mantissa? cs = some (ws, fs, rest)) :
    ∃ (whole : List Char) (fraction : Option (List Char)),
      (∀ c ∈ whole, c.isDigit = true) ∧ (∀ ds ∈ fraction, ∀ c ∈ ds, c.isDigit = true) ∧
      (whole ≠ [] ∨ ∃ ds ∈ fraction, ds ≠ []) ∧ ws = whole.map digitValue ∧
      fs = (fraction.getD []).map digitValue ∧ cs = whole ++ (pointChars fraction ++ rest) := by
  rw [mantissa?] at h
  split at h
  · rename_i cs' hdigits
    obtain ⟨whole, hw, hempty, rfl, -⟩ := exists_of_digits hdigits
    obtain rfl := List.map_eq_nil_iff.mp hempty.symm
    split at h
    · cases h
    · rename_i fs' rest' hne hdigits'
      obtain ⟨ds, hds, rfl, rfl, -⟩ := exists_of_digits hdigits'
      cases h
      refine ⟨[], some ds, hw, ?_, .inr ⟨ds, rfl, ?_⟩, rfl, rfl, rfl⟩
      · rintro _ ⟨⟩
        exact hds
      · rintro rfl
        exact hne rfl
  · cases h
  · rename_i ws' cs' hne hdigits
    obtain ⟨whole, hw, rfl, rfl, -⟩ := exists_of_digits hdigits
    cases hdigits' : digits cs' with
    | mk fs' rest' =>
      obtain ⟨ds, hds, rfl, rfl, -⟩ := exists_of_digits hdigits'
      simp only [hdigits'] at h
      cases h
      refine ⟨whole, some ds, hw, ?_, .inl ?_, rfl, rfl, rfl⟩
      · rintro _ ⟨⟩
        exact hds
      · rintro rfl
        exact hne rfl
  · rename_i ws' rest' hne hne' hdigits
    obtain ⟨whole, hw, rfl, rfl, -⟩ := exists_of_digits hdigits
    cases h
    refine ⟨whole, none, hw, by simp, .inl ?_, rfl, rfl, rfl⟩
    rintro rfl
    exact hne rfl

namespace DecimalLiteral

/-- Without its sign a literal begins with a digit or a point. -/
theorem exists_head (l : DecimalLiteral) (rest : List Char) :
    ∃ c cs, l.unsigned ++ rest = c :: cs ∧ (c.isDigit = true ∨ c = '.') := by
  rw [unsigned]
  cases hw : l.whole with
  | cons c whole => exact ⟨c, _, rfl, .inl (l.whole_digits c (by rw [hw]; simp))⟩
  | nil =>
    obtain ⟨ds, hds, -⟩ : ∃ ds ∈ l.fraction, ds ≠ [] := by simpa [hw] using l.some_digit
    rw [Option.mem_def.mp hds]
    exact ⟨'.', _, rfl, .inr rfl⟩

theorem head_unsigned (l : DecimalLiteral) (rest : List Char) :
    ∀ c ∈ (l.unsigned ++ rest).head?, c ≠ '+' ∧ c ≠ '-' := by
  obtain ⟨d, cs, hd, hhead⟩ := l.exists_head rest
  rw [hd]
  rintro c ⟨⟩
  obtain hdigit | rfl := hhead
  · exact unsigned_of_isDigit hdigit
  · decide

/-- The letter of an exponent ends the digits before it. -/
theorem noDigit_chars (e : ExponentPart) (rest : List Char) :
    NoDigit (e.chars ++ rest) ∧ (e.chars ++ rest).head? ≠ some '.' := by
  rw [ExponentPart.chars, ExponentPart.mark]
  split <;> exact ⟨noDigit_cons (by decide) _, by simp⟩

theorem noDigit_exponentChars (e : Option ExponentPart) {rest : List Char}
    (h : EndsLiteral rest) :
    NoDigit (exponentChars e ++ rest) ∧ (exponentChars e ++ rest).head? ≠ some '.' := by
  cases e with
  | none =>
    refine ⟨h.noDigit, fun hpoint => ?_⟩
    have hnot := (h '.' hpoint).2
    simp at hnot
  | some e => exact noDigit_chars e rest

/-- A literal is read whole if nothing goes on with it. -/
theorem decimal?_append (l : DecimalLiteral) {rest : List Char} (h : EndsLiteral rest) :
    decimal? (l.chars ++ rest) = some (l.decimal, rest) := by
  obtain ⟨hdigit, hpoint⟩ := noDigit_exponentChars l.exponent h
  have hmantissa := mantissa?_append l.whole_digits l.fraction_digits l.some_digit hdigit
    fun _ => hpoint
  rw [chars, List.append_assoc, decimal?, sign_append (l.head_unsigned rest), unsigned]
  simp only [List.append_assoc, hmantissa, exponent_append l.exponent h, bind, Option.bind]
  rfl

/-- Whatever the reader takes is a literal. -/
theorem exists_of_decimal? {cs rest : List Char} {d : Decimal}
    (h : decimal? cs = some (d, rest)) :
    ∃ l : DecimalLiteral, d = l.decimal ∧ cs = l.chars ++ rest := by
  rw [decimal?] at h
  cases hs : DecimalText.sign cs with
  | mk negative cs' =>
    obtain ⟨s, rfl, rfl⟩ := exists_of_sign hs
    cases hm : mantissa? cs' with
    | none =>
      simp only [hs, hm] at h
      cases h
    | some m =>
      obtain ⟨ws, fs, cs''⟩ := m
      obtain ⟨whole, fraction, hw, hf, hsome, rfl, rfl, rfl⟩ := exists_of_mantissa? hm
      cases he : DecimalText.exponent cs'' with
      | mk value rest' =>
        obtain ⟨e, rfl, rfl⟩ := exists_of_exponent he
        simp only [hs, hm, he, bind, Option.bind] at h
        cases h
        refine ⟨⟨s, whole, fraction, e, hw, hf, hsome⟩, rfl, ?_⟩
        simp only [chars, unsigned, List.append_assoc]

end DecimalLiteral

end SchemaByExample.Number
