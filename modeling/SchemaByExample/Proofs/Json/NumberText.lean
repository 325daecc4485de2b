import SchemaByExample.Proofs.Json.NumberReading
import SchemaByExample.Proofs.Number.Shortest

/-! What is written for a number is a literal, and the literal is in range. Which number it
denotes is left open: a double may come back as one of its neighbours. -/
namespace SchemaByExample.Json

open Number Literal

/-! Rows of digits. -/

theorem foldl_digits (ds : List Nat) (n : Nat) :
    ds.foldl (fun n d => 10 * n + d) n = n * tenTo ds.length + ofDigits 10 ds := by
  induction ds generalizing n with
  | nil => exact (Nat.mul_one n).symm
  | cons d ds ih =>
    have hcons : ofDigits 10 (d :: ds) = d * tenTo ds.length + ofDigits 10 ds := by
      rw [ofDigits, List.foldl_cons, ih, Nat.mul_zero, Nat.zero_add]
    rw [List.foldl_cons, ih, hcons, List.length_cons, tenTo_succ, Nat.add_mul, Nat.mul_comm 10,
      Nat.mul_assoc, Nat.mul_comm 10, Nat.add_assoc]

theorem ofDigits_append (ds es : List Nat) :
    ofDigits 10 (ds ++ es) = ofDigits 10 ds * tenTo es.length + ofDigits 10 es := by
  rw [ofDigits, List.foldl_append, foldl_digits es]
  rfl

theorem ofDigits_cons (d : Nat) (ds : List Nat) :
    ofDigits 10 (d :: ds) = d * tenTo ds.length + ofDigits 10 ds := by
  rw [ofDigits, List.foldl_cons, foldl_digits, Nat.mul_zero, Nat.zero_add]

theorem ofDigits_lt {ds : List Nat} (h : ∀ d ∈ ds, d < 10) : ofDigits 10 ds < tenTo ds.length := by
  induction ds with
  | nil => exact Nat.one_pos
  | cons d ds ih =>
    obtain ⟨hd, hds⟩ := List.forall_mem_cons.mp h
    rw [ofDigits_cons, List.length_cons, tenTo_succ]
    have hrest := ih hds
    have hle : d * tenTo ds.length ≤ 9 * tenTo ds.length := Nat.mul_le_mul_right _ (by omega)
    omega

theorem digitValue_lt {c : Char} (h : c.isDigit = true) : digitValue c < 10 := by
  have := isDigit_bounds h
  simp only [digitValue]
  omega

theorem number_lt (ds : Digits) : ds.number < tenTo ds.chars.length := by
  have hdigits : ∀ d ∈ ds.values, d < 10 :=
    List.forall_mem_map.mpr fun c hc => digitValue_lt (ds.digit c hc)
  have hlt := ofDigits_lt hdigits
  rwa [Digits.values, List.length_map] at hlt

theorem ofDigits_zeros (n : Nat) : ofDigits 10 (List.replicate n 0) = 0 := by
  induction n with
  | zero => rfl
  | succ n ih => rw [List.replicate_succ, ofDigits_cons, ih, Nat.zero_mul]

/-! Literals in range. -/

/-- What is taken of the digits behind a number that a word holds. -/
theorem append_bounds {n : Nat} (hn : n < 0x10000000000000000) (ds : List Nat) :
    (Mantissa.append n ds).1 < 0x10000000000000000 ∧
      (Mantissa.append n ds).1 * tenTo (ds.length - (Mantissa.append n ds).2) ≤
        ds.foldl (fun n d => 10 * n + d) n := by
  induction ds generalizing n with
  | nil => exact ⟨hn, Nat.le_of_eq (Nat.mul_one n)⟩
  | cons d ds ih =>
    rw [Mantissa.append]
    split
    · rename_i hlt
      obtain ⟨hword, hle⟩ := ih hlt
      refine ⟨hword, ?_⟩
      rw [List.length_cons, Nat.add_sub_add_right]
      exact hle
    · refine ⟨hn, ?_⟩
      rw [foldl_digits]
      exact Nat.le_add_right ..

def places (l : NumberLiteral) : List Nat := l.fraction.elim [] Digits.values

theorem decimal_eq (l : NumberLiteral) : l.decimal = ⟨l.negative,
    (places l).foldl (fun n d => 10 * n + d) l.whole.number,
    exponentValue l.exponent - (places l).length⟩ := by
  rw [NumberLiteral.decimal, Decimal.ofParts, ofDigits, List.foldl_append]
  rfl

theorem mantissa_eq {l : NumberLiteral} (hw : l.whole.number < 0x10000000000000000) :
    l.mantissa = Mantissa.withFraction ⟨l.negative, l.whole.number, 0⟩ (places l) := by
  have hwhole : Mantissa.ofWhole l.negative l.whole.values = ⟨l.negative, l.whole.number, 0⟩ :=
    ofWhole_eq l.negative hw
  rw [NumberLiteral.mantissa, hwhole, places]
  cases l.fraction <;> rfl

/-- A number below the bound has a double, however it is written. -/
theorem exists_double_of_within {l : NumberLiteral} (hw : l.whole.number < 0x10000000000000000)
    (he : exponentValue l.exponent ≤ maxExponent)
    (h : Within safeBound l.decimal.digits l.decimal.exponent) : ∃ n, l.double? = some n := by
  rw [NumberLiteral.double?, if_neg (by omega), mantissa_eq hw]
  rw [decimal_eq] at h
  generalize l.whole.number = w at hw h ⊢
  generalize places l = ds at h ⊢
  have htaken := append_le ds w
  obtain ⟨hword, hle⟩ := append_bounds hw ds
  have hscaled := within_shift.mp (h.mono hle)
  have hexponent : exponentValue l.exponent - ds.length +
      (ds.length - (Mantissa.append w ds).2 : Nat) =
        0 - ((Mantissa.append w ds).2 : Int) + exponentValue l.exponent := by omega
  rw [hexponent] at hscaled
  obtain ⟨x, hx⟩ := Option.isSome_iff_exists.mp (scaleByTen_of_within l.negative hword hscaled)
  exact ⟨.double x, by rw [Mantissa.withFraction, hx]; rfl⟩

/-! The text of a decimal. -/

theorem trimZeros_append (digits : List Char) :
    ∃ k, digits = FloatStyle.trimZeros digits ++ FloatStyle.zeros k := by
  cases digits with
  | nil => exact ⟨0, rfl⟩
  | cons c cs =>
    have hzeros : cs.reverse.takeWhile (· == '0') =
        FloatStyle.zeros (cs.reverse.takeWhile (· == '0')).length :=
      List.eq_replicate_of_mem fun d hd => eq_of_beq (List.all_eq_true.mp List.all_takeWhile d hd)
    have hsplit : cs = (cs.reverse.dropWhile (· == '0')).reverse ++
        FloatStyle.zeros (cs.reverse.takeWhile (· == '0')).length :=
      calc cs = (cs.reverse.takeWhile (· == '0') ++ cs.reverse.dropWhile (· == '0')).reverse := by
            rw [List.takeWhile_append_dropWhile, List.reverse_reverse]
        _ = _ := by
            rw [List.reverse_append, hzeros, FloatStyle.zeros, List.reverse_replicate,
              List.length_replicate]
            rfl
    exact ⟨_, congrArg (c :: ·) hsplit⟩

theorem isDigit_zeros (n : Nat) : ∀ c ∈ FloatStyle.zeros n, c.isDigit = true := by
  intro c hc
  rw [List.eq_of_mem_replicate hc]
  rfl

theorem values_zeros (n : Nat) : (FloatStyle.zeros n).map digitValue = List.replicate n 0 :=
  List.map_replicate ..

theorem number_append_zeros {ds es : Digits} {k : Nat}
    (h : es.chars = ds.chars ++ FloatStyle.zeros k) : es.number = ds.number * tenTo k := by
  rw [Digits.number, Digits.values, h, List.map_append, ofDigits_append, values_zeros,
    ofDigits_zeros, List.length_replicate]
  rfl

def Printed (negative : Bool) (text : List Char) : Prop :=
  ∃ (l : NumberLiteral) (n : JsonNumber),
    l.negative = negative ∧ l.unsigned = text ∧ l.value? = some n

def decimalDigits (n : Nat) : Digits :=
  ⟨Nat.toDigits 10 n, Nat.toDigits_ne_nil, fun _ => isDigit_of_mem⟩

theorem number_decimalDigits (n : Nat) : (decimalDigits n).number = n := ofDigits_toDigits n

/-- Only the digits of zero begin with a zero. -/
theorem lead_decimalDigits (n : Nat) :
    (decimalDigits n).chars.head? = some '0' → (decimalDigits n).chars = ['0'] := by
  intro hhead
  obtain ⟨c, cs, hc, -⟩ := toDigits_head n
  have hc' : c = '0' := by simpa [decimalDigits, hc] using hhead
  have hzero : n = 0 := Decidable.byContradiction fun h0 => head_toDigits h0 hc hc'
  rw [hzero]
  rfl

def writtenExponent (e : Int) : ExponentPart :=
  ⟨false, if e < 0 then .minus else .plus, decimalDigits e.natAbs⟩

theorem value_writtenExponent (e : Int) : (writtenExponent e).value = e := by
  have habs : (writtenExponent e).digits.number = e.natAbs := number_decimalDigits e.natAbs
  rw [ExponentPart.value, habs]
  by_cases hneg : e < 0
  · rw [if_pos (by simp [writtenExponent, hneg])]
    omega
  · rw [if_neg (by simp [writtenExponent, hneg])]
    omega

theorem chars_writtenExponent (e : Int) :
    (writtenExponent e).chars =
      'e' :: (if e < 0 then ['-'] else ['+']) ++ Nat.toDigits 10 e.natAbs := by
  by_cases hneg : e < 0 <;>
    simp [ExponentPart.chars, ExponentPart.mark, writtenExponent, Sign.chars, decimalDigits, hneg]

/-- The literal has the text without its sign, and is of the number `±n * 10 ^ g`, with zeros
behind its digits perhaps. It is no integer, a word holds the digits before its point, and `e` is
its exponent if it has one. -/
structure Spells (negative : Bool) (text : List Char) (n : Nat) (g e : Int) (l : NumberLiteral) :
    Prop where
  sign : l.negative = negative
  unsigned : l.unsigned = text
  decimal : ∃ k, l.decimal = ⟨negative, n * tenTo k, g - k⟩
  whole : l.whole.number < 0x10000000000000000
  pointed : l.fraction ≠ none ∨ l.exponent ≠ none
  exponent : exponentValue l.exponent = 0 ∨ exponentValue l.exponent = e

section Magnitude

variable (negative : Bool)

theorem spelled_of_parts {n : Nat} {g : Int} (e : Int) (k : Nat) (whole : Digits)
    (fraction : Option Digits) (exponent : Option ExponentPart)
    (hlead : whole.chars.head? = some '0' → whole.chars = ['0'])
    (hlength : whole.chars.length ≤ 16) (hplain : fraction ≠ none ∨ exponent ≠ none)
    (hexponent : exponentValue exponent = 0 ∨ exponentValue exponent = e)
    (hdigits : ofDigits 10 (whole.values ++ fraction.elim [] Digits.values) = n * tenTo k)
    (hg : exponentValue exponent - (fraction.elim [] Digits.values).length = g - k) :
    ∃ l, Spells negative (whole.chars ++ (fractionChars fraction ++ exponentChars exponent)) n g e
      l := by
  let l : NumberLiteral := ⟨negative, whole, fraction, exponent, hlead⟩
  have hdecimal : l.decimal = ⟨negative, n * tenTo k, g - k⟩ := by
    rw [← hdigits, ← hg]
    rfl
  have hwhole : whole.number < 0x10000000000000000 :=
    calc whole.number < tenTo whole.chars.length := number_lt whole
      _ ≤ tenTo 16 := tenTo_le_tenTo hlength
      _ ≤ 0x10000000000000000 := by decide
  exact ⟨l, rfl, rfl, ⟨k, hdecimal⟩, hwhole, hplain, hexponent⟩

variable {ds : Digits} {e : Int}

/-- A magnitude below one. -/
theorem spelled_small (he : e < 0) :
    ∃ l, Spells negative ('0' :: '.' :: FloatStyle.zeros (-e - 1).toNat ++ ds.chars) ds.number
      (e - (ds.chars.length - 1)) e l := by
  let fraction : Digits := ⟨FloatStyle.zeros (-e - 1).toNat ++ ds.chars, by simp [ds.ne_nil],
    List.forall_mem_append.mpr ⟨isDigit_zeros _, ds.digit⟩⟩
  have hvalues : fraction.values = List.replicate (-e - 1).toNat 0 ++ ds.values := by
    rw [← values_zeros, Digits.values, Digits.values, ← List.map_append]
  have hdigits : ofDigits 10 ((decimalDigits 0).values ++ fraction.values) =
      ds.number * tenTo 0 := by
    rw [hvalues, ofDigits_append, ofDigits_append, ofDigits_zeros, Nat.zero_mul, Nat.zero_add]
    exact (congrArg (· + ds.number) (Nat.zero_mul _)).trans
      ((Nat.zero_add _).trans (Nat.mul_one _).symm)
  have hg : (0 : Int) - fraction.values.length = e - (ds.chars.length - 1) - (0 : Nat) := by
    rw [hvalues, List.length_append, List.length_replicate, Digits.values, List.length_map]
    omega
  have hspelled := spelled_of_parts negative e 0 (decimalDigits 0) (some fraction) none
    (fun _ => rfl) (by decide) (.inl (Option.some_ne_none _)) (.inl rfl) hdigits hg
  simpa [fractionChars, exponentChars, decimalDigits, fraction] using hspelled

/-- A magnitude with an exponent. -/
theorem spelled_scientific :
    ∃ l, Spells negative (
      (match ds.chars with
        | c :: d :: ds => c :: '.' :: d :: ds
        | ds => ds) ++
      'e' :: (if e < 0 then ['-'] else ['+']) ++ Nat.toDigits 10 e.natAbs) ds.number
      (e - (ds.chars.length - 1)) e l := by
  have hvalue : exponentValue (some (writtenExponent e)) = e := value_writtenExponent e
  have hchars : exponentChars (some (writtenExponent e)) = _ := chars_writtenExponent e
  rw [List.append_assoc, ← hchars]
  obtain ⟨chars, hne, hdigit⟩ := ds
  cases chars with
  | nil => exact absurd rfl hne
  | cons c cs =>
    let whole : Digits := ⟨[c], by simp, by simpa using hdigit c List.mem_cons_self⟩
    have hlead : whole.chars.head? = some '0' → whole.chars = ['0'] := by simp [whole]
    cases cs with
    | nil =>
      exact spelled_of_parts negative e 0 whole none (some (writtenExponent e)) hlead
        (by simp [whole]) (.inr (Option.some_ne_none _)) (.inr hvalue) (Nat.mul_one _).symm
        (by simp [hvalue])
    | cons d ds =>
      let fraction : Digits := ⟨d :: ds, by simp, fun b hb => hdigit b (List.mem_cons_of_mem c hb)⟩
      have hg : exponentValue (some (writtenExponent e)) - fraction.values.length =
          e - ((c :: d :: ds).length - 1) - (0 : Nat) := by
        rw [hvalue]
        simp [fraction, Digits.values]
      exact spelled_of_parts negative e 0 whole (some fraction) (some (writtenExponent e)) hlead
        (by simp [whole]) (.inr (Option.some_ne_none _)) (.inr hvalue) (Nat.mul_one _).symm hg

variable (hlead : ds.chars.head? = some '0' → ds.chars = ['0'] ∧ e = 0)

include hlead

/-- A magnitude without digits behind the point. -/
theorem spelled_whole (he : 0 ≤ e) (hlow : e ≤ 15) (hfit : ds.chars.length ≤ e.toNat + 1) :
    ∃ l, Spells negative
      (ds.chars ++ FloatStyle.zeros (e.toNat + 1 - ds.chars.length) ++ ['.', '0']) ds.number
      (e - (ds.chars.length - 1)) e l := by
  let whole : Digits := ⟨ds.chars ++ FloatStyle.zeros (e.toNat + 1 - ds.chars.length),
    by simp [ds.ne_nil], List.forall_mem_append.mpr ⟨ds.digit, isDigit_zeros _⟩⟩
  have hwhole : whole.chars.head? = some '0' → whole.chars = ['0'] := by
    intro hhead
    obtain ⟨hds, rfl⟩ := hlead (by simpa [whole, ds.ne_nil] using hhead)
    simp [whole, hds, FloatStyle.zeros]
  have hlength : whole.chars.length ≤ 16 := by
    simp only [whole, List.length_append, FloatStyle.zeros, List.length_replicate]
    omega
  have hdigits : ofDigits 10 (whole.values ++ (decimalDigits 0).values) =
      ds.number * tenTo (e.toNat + 1 - ds.chars.length + 1) := by
    have hnumber : whole.number = ds.number * tenTo (e.toNat + 1 - ds.chars.length) :=
      number_append_zeros rfl
    rw [ofDigits_append, tenTo_succ, ← Nat.mul_assoc, ← hnumber]
    rfl
  have hg : (0 : Int) - (decimalDigits 0).values.length =
      e - (ds.chars.length - 1) - (e.toNat + 1 - ds.chars.length + 1 : Nat) := by
    have hone : (decimalDigits 0).values.length = 1 := rfl
    omega
  have hspelled := spelled_of_parts negative e _ whole (some (decimalDigits 0)) none hwhole hlength
    (.inl (Option.some_ne_none _)) (.inl rfl) hdigits hg
  simpa [fractionChars, exponentChars, decimalDigits, whole] using hspelled

/-- A magnitude with digits on both sides of the point. -/
theorem spelled_mixed (he : 0 ≤ e) (hlow : e ≤ 15) (hlong : e.toNat + 1 < ds.chars.length) :
    ∃ l, Spells negative (ds.chars.take (e.toNat + 1) ++ '.' :: ds.chars.drop (e.toNat + 1))
      ds.number (e - (ds.chars.length - 1)) e l := by
  let whole : Digits := ⟨ds.chars.take (e.toNat + 1), by simp [ds.ne_nil],
    fun c hc => ds.digit c (List.mem_of_mem_take hc)⟩
  let fraction : Digits := ⟨ds.chars.drop (e.toNat + 1), by simpa using hlong,
    fun c hc => ds.digit c (List.mem_of_mem_drop hc)⟩
  have hwhole : whole.chars.head? = some '0' → whole.chars = ['0'] := by
    intro hhead
    obtain ⟨hds, -⟩ := hlead (by simpa [whole, List.head?_take] using hhead)
    rw [hds] at hlong
    exact absurd hlong (by simp)
  have hlength : whole.chars.length ≤ 16 := by
    simp only [whole, List.length_take]
    omega
  have hvalues : whole.values ++ fraction.values = ds.values := by
    rw [Digits.values, Digits.values, ← List.map_append, List.take_append_drop]
    rfl
  have hdigits : ofDigits 10 (whole.values ++ fraction.values) = ds.number * tenTo 0 := by
    rw [hvalues]
    exact (Nat.mul_one _).symm
  have hg : (0 : Int) - fraction.values.length = e - (ds.chars.length - 1) - (0 : Nat) := by
    simp only [fraction, Digits.values, List.length_map, List.length_drop]
    omega
  have hspelled := spelled_of_parts negative e 0 whole (some fraction) none hwhole hlength
    (.inl (Option.some_ne_none _)) (.inl rfl) hdigits hg
  simpa [fractionChars, exponentChars, whole, fraction] using hspelled

theorem spelled_magnitude :
    ∃ l, Spells negative (documentStyle.magnitude ds.chars e) ds.number
      (e - (ds.chars.length - 1)) e l := by
  have hlowest : documentStyle.lowest = -5 := rfl
  have hhighest : documentStyle.highest = 15 := rfl
  unfold FloatStyle.magnitude
  split
  · rename_i hrange
    split
    · exact spelled_small negative ‹_›
    · simp only
      split
      · exact spelled_whole negative hlead (by omega) (by omega) ‹_›
      · exact spelled_mixed negative hlead (by omega) (by omega) (by omega)
  · exact spelled_scientific negative

end Magnitude

/-! Magnitudes in range. -/

theorem tenTo_le_number {ds : Digits} (h : ds.chars.head? ≠ some '0') :
    tenTo (ds.chars.length - 1) ≤ ds.number := by
  obtain ⟨chars, hne, hdigit⟩ := ds
  obtain ⟨c, cs, rfl⟩ := List.exists_cons_of_ne_nil hne
  have hc := isDigit_bounds (hdigit c List.mem_cons_self)
  have hzero : c.toNat ≠ 48 := fun h48 => h (congrArg some (Char.toNat_inj.mp h48))
  have hpos : 1 ≤ digitValue c := by
    simp only [digitValue]
    omega
  calc tenTo cs.length = 1 * tenTo (cs.map digitValue).length := by
        rw [List.length_map, Nat.one_mul]
    _ ≤ digitValue c * tenTo (cs.map digitValue).length := Nat.mul_le_mul_right _ hpos
    _ ≤ ofDigits 10 (digitValue c :: cs.map digitValue) := by
        rw [ofDigits_cons]
        exact Nat.le_add_right ..

structure Placed (ds : Digits) (e : Int) : Prop where
  within : Within safeBound ds.number (e - (ds.chars.length - 1))
  lead : ds.chars.head? = some '0' → ds.chars = ['0'] ∧ e = 0

section Placed

variable {ds : Digits} {e : Int} (h : Placed ds e)

include h

theorem le_maxExponent_of_placed : e ≤ maxExponent := by
  by_cases he : e = 0
  · rw [he]
    decide
  have hle := tenTo_le_number fun hhead => he (h.lead hhead).2
  have hone : Within safeBound (1 * tenTo (ds.chars.length - 1)) (e - (ds.chars.length - 1)) :=
    h.within.mono (by rwa [Nat.one_mul])
  have hpos : 0 < ds.chars.length := List.length_pos_iff.mpr ds.ne_nil
  have hmax := le_maxPower_of_within (by decide) (within_shift.mp hone)
  simp only [maxPower, maxExponent] at hmax ⊢
  omega

theorem printed_magnitude (negative : Bool) :
    Printed negative (documentStyle.magnitude ds.chars e) := by
  obtain ⟨l, hl⟩ := spelled_magnitude negative h.lead
  obtain ⟨k, hdecimal⟩ := hl.decimal
  have hwithin : Within safeBound l.decimal.digits l.decimal.exponent := by
    rw [hdecimal]
    refine within_shift.mpr ?_
    rw [Int.sub_add_cancel]
    exact h.within
  have hexponent : exponentValue l.exponent ≤ maxExponent := by
    obtain hzero | heq := hl.exponent
    · rw [hzero]
      decide
    · rw [heq]
      exact le_maxExponent_of_placed h
  obtain ⟨n, hn⟩ := exists_double_of_within hl.whole hexponent hwithin
  exact ⟨l, n, hl.sign, hl.unsigned, (value?_eq_double? hl.pointed).trans hn⟩

end Placed

def trimmedDigits (n : Nat) : Digits where
  chars := FloatStyle.trimZeros (Nat.toDigits 10 n)
  ne_nil := by
    obtain ⟨c, cs, hc, -⟩ := toDigits_head n
    rw [hc, FloatStyle.trimZeros]
    exact List.cons_ne_nil c _
  digit b hb := by
    obtain ⟨k, hk⟩ := trimZeros_append (Nat.toDigits 10 n)
    refine isDigit_of_mem (n := n) ?_
    rw [hk]
    exact List.mem_append_left _ hb

theorem exists_trimmed (n : Nat) :
    ∃ k, n = (trimmedDigits n).number * tenTo k ∧
      (Nat.toDigits 10 n).length = (trimmedDigits n).chars.length + k := by
  obtain ⟨k, hk⟩ := trimZeros_append (Nat.toDigits 10 n)
  have hnumber : (decimalDigits n).number = (trimmedDigits n).number * tenTo k :=
    number_append_zeros hk
  refine ⟨k, (number_decimalDigits n).symm.trans hnumber, ?_⟩
  rw [hk]
  simp [trimmedDigits, FloatStyle.zeros]

theorem head_trimmedDigits {n : Nat} (h : n ≠ 0) : (trimmedDigits n).chars.head? ≠ some '0' := by
  intro hhead
  obtain ⟨c, cs, hc, -⟩ := toDigits_head n
  have hc' : c = '0' := by simpa [trimmedDigits, hc, FloatStyle.trimZeros] using hhead
  exact head_toDigits h hc hc'

def leadExponent (d : Decimal) : Int :=
  if d.digits = 0 then 0 else (Nat.toDigits 10 d.digits).length - 1 + d.exponent

theorem chars_trimmed_zero : (trimmedDigits 0).chars = ['0'] := by
  simp [trimmedDigits, FloatStyle.trimZeros]

theorem number_trimmed_zero : (trimmedDigits 0).number = 0 := by
  rw [Digits.number, Digits.values, chars_trimmed_zero]
  rfl

theorem lead_trimmed (d : Decimal) :
    (trimmedDigits d.digits).chars.head? = some '0' →
      (trimmedDigits d.digits).chars = ['0'] ∧ leadExponent d = 0 := by
  intro hhead
  by_cases h0 : d.digits = 0
  · exact ⟨h0 ▸ chars_trimmed_zero, if_pos h0⟩
  · exact absurd hhead (head_trimmedDigits h0)

/-- Without the zeros at their end the digits have an exponent that is larger by their number. -/
theorem leadExponent_sub {d : Decimal} (h0 : d.digits ≠ 0) {k : Nat}
    (hk : (Nat.toDigits 10 d.digits).length = (trimmedDigits d.digits).chars.length + k) :
    leadExponent d - ((trimmedDigits d.digits).chars.length - 1) = d.exponent + k := by
  rw [leadExponent, if_neg h0, hk]
  omega

theorem placed_trimmed {d : Decimal} (h : Within safeBound d.digits d.exponent) :
    Placed (trimmedDigits d.digits) (leadExponent d) := by
  refine ⟨?_, lead_trimmed d⟩
  obtain ⟨k, hdigits, hlength⟩ := exists_trimmed d.digits
  by_cases h0 : d.digits = 0
  · rw [h0, number_trimmed_zero]
    exact within_zero _ _
  · rw [leadExponent_sub h0 hlength]
    refine within_shift.mp ?_
    rwa [← hdigits]

theorem text_eq (d : Decimal) : (documentStyle.text d).toList =
    if d.negative then
      '-' :: documentStyle.magnitude (trimmedDigits d.digits).chars (leadExponent d)
    else documentStyle.magnitude (trimmedDigits d.digits).chars (leadExponent d) := by
  rw [FloatStyle.text, String.toList_ofList]
  rfl

/-- The text of a decimal in range. -/
theorem exists_literal_text {d : Decimal} (h : Within safeBound d.digits d.exponent) :
    ∃ (l : NumberLiteral) (n : JsonNumber),
      l.chars = (documentStyle.text d).toList ∧ l.value? = some n := by
  obtain ⟨l, n, hnegative, hunsigned, hvalue⟩ := printed_magnitude (placed_trimmed h) d.negative
  exact ⟨l, n, by rw [NumberLiteral.chars, hnegative, hunsigned, text_eq], hvalue⟩

/-! Numbers of documents. -/

def largestLiteral (negative : Bool) : NumberLiteral where
  negative := negative
  whole := decimalDigits 1
  fraction := some (decimalDigits 7976931348623157)
  exponent := some ⟨false, .plus, decimalDigits 308⟩
  leading := lead_decimalDigits 1

theorem value?_largestLiteral (negative : Bool) :
    (largestLiteral negative).chars = (largest negative).text.toList ∧
      (largestLiteral negative).value?.isSome := by
  cases negative <;> decide +kernel

theorem exists_literal_double (x : Double) :
    ∃ (l : NumberLiteral) (n : JsonNumber), l.chars = x.text.toList ∧ l.value? = some n := by
  obtain hlargest | hle := eq_largest_or_units_le x
  · obtain ⟨hchars, hvalue⟩ := value?_largestLiteral x.negative
    obtain ⟨n, hn⟩ := Option.isSome_iff_exists.mp hvalue
    exact ⟨largestLiteral x.negative, n, by rw [hchars, ← hlargest], hn⟩
  · exact exists_literal_text (Binary.within_shortest hle)

theorem exists_literal_word (w : Word) :
    ∃ l : NumberLiteral, l.chars = intChars w.value ∧ l.value? = some (.word w) := by
  let l : NumberLiteral := ⟨decide (w.value < 0), decimalDigits w.value.natAbs, none, none,
    lead_decimalDigits _⟩
  have hinteger : l.integer = w.value := by
    simp only [NumberLiteral.integer, l, number_decimalDigits, decide_eq_true_eq]
    split <;> omega
  refine ⟨l, ?_, ?_⟩
  · simp [NumberLiteral.chars, NumberLiteral.unsigned, intChars, l, decimalDigits, fractionChars,
      exponentChars]
  · rw [NumberLiteral.value?, if_pos, hinteger, Word.ofInt?_value]
    refine ⟨rfl, rfl, ?_⟩
    simp only [l, number_decimalDigits, decide_eq_true_eq]
    omega

end SchemaByExample.Json
