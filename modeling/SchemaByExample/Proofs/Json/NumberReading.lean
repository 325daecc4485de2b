import SchemaByExample.Proofs.Json.Grammar

/-! Reading number literals. The reader gives a result for exactly those literals that denote
a number, and the result is that number. -/
namespace SchemaByExample.Literal

open Read Number Json

variable {bytes rest : Bytes} {m : Mantissa} {n : JsonNumber}

/-! Rows of digits. -/

def StopsDigits (bytes : Bytes) : Prop := ∀ b ∈ bytes.head?, isDigit b = false

theorem StopsDigits.cons {b : UInt8} (h : isDigit b = false) (bytes : Bytes) :
    StopsDigits (b :: bytes) := by
  intro b' hb
  obtain rfl := Option.some.inj hb
  exact h

theorem stopsDigits_of_endsValue (h : endsValue bytes = true) : StopsDigits bytes := by
  cases bytes with
  | nil => simp [StopsDigits]
  | cons b bytes => exact .cons (not_isDigit_of_endsValue h).1 bytes

theorem isDigit_of_bounds {c : Char} (h : 48 ≤ c.toNat) (h' : c.toNat < 58) :
    c.isDigit = true := by
  simp only [Char.isDigit, Bool.and_eq_true, decide_eq_true_eq]
  exact ⟨h, Nat.le_of_lt_succ h'⟩

theorem values_ne_nil (ds : Digits) : ds.values ≠ [] := by
  simpa [Digits.values] using ds.ne_nil

theorem digits_chars (ds : Digits) (h : StopsDigits rest) :
    digits (Utf8.encode ds.chars ++ rest) = (ds.values, rest) := by
  rw [encode_digits ds.digit]
  exact digits_append_of_stop ds.digit h

theorem exists_chars_of_digits {front : Bytes} (h : ∀ b ∈ front, isDigit b = true) :
    ∃ cs : List Char, (∀ c ∈ cs, c.isDigit = true) ∧ front = cs.map byte := by
  induction front with
  | nil => exact ⟨[], by simp, rfl⟩
  | cons b front ih =>
    obtain ⟨hb, hfront⟩ := List.forall_mem_cons.mp h
    obtain ⟨cs, hcs, rfl⟩ := ih hfront
    simp only [isDigit, Bool.and_eq_true, decide_eq_true_eq] at hb
    obtain ⟨c, hc, rfl⟩ := exists_char_of_lt (b := b) (by omega)
    refine ⟨c :: cs, List.forall_mem_cons.mpr ⟨?_, hcs⟩, rfl⟩
    exact isDigit_of_bounds (by omega) (by omega)

theorem exists_digits {values : List Nat} (h : digits bytes = (values, rest))
    (hne : values ≠ []) :
    ∃ ds : Digits, ds.values = values ∧ bytes = Utf8.encode ds.chars ++ rest := by
  obtain ⟨rfl, rfl⟩ := Prod.mk.inj h
  obtain ⟨cs, hcs, hfront⟩ :=
    exists_chars_of_digits (List.all_eq_true.mp (List.all_takeWhile (l := bytes) (p := isDigit)))
  have hnil : cs ≠ [] := by
    rintro rfl
    rw [hfront] at hne
    exact hne rfl
  refine ⟨⟨cs, hnil, hcs⟩, ?_, ?_⟩
  · rw [hfront, List.map_map, Digits.values]
    refine List.map_congr_left fun c hc => ?_
    have hb : (byte c).toNat = c.toNat :=
      byte_toNat (Nat.lt_trans (isDigit_bounds (hcs c hc)).2 (by decide))
    rw [Function.comp_apply, hb, digitValue]
  · rw [encode_digits hcs, ← hfront, List.takeWhile_append_dropWhile]

/-! Doubles. -/

structure Scales (m : Mantissa) (e : Int) (n : JsonNumber) : Prop where
  small : ¬(maxExponent < e ∧ m.significand ≠ 0)
  double : (scaleByTen m.negative m.significand (m.exponent + e)).map .double = some n

theorem Scales.scaled {e : Int} (h : Scales m e n) (rest : Bytes) :
    m.scaled e rest = .ok (n, rest) := by
  obtain ⟨x, hx, rfl⟩ := Option.map_eq_some_iff.mp h.double
  simp only [Mantissa.scaled, hx]

theorem scaled_eq_ok_iff {e : Int} (hs : ¬(maxExponent < e ∧ m.significand ≠ 0)) :
    m.scaled e bytes = .ok (n, rest) ↔ rest = bytes ∧ Scales m e n := by
  constructor
  · intro h
    rw [Mantissa.scaled] at h
    split at h
    · rename_i x hx
      cases h
      exact ⟨rfl, hs, by rw [hx]; rfl⟩
    · cases h
  · rintro ⟨rfl, h⟩
    exact h.scaled _

theorem not_large_zero : ¬((maxExponent : Int) < 0 ∧ m.significand ≠ 0) := by
  simp [maxExponent]

/-- What is made of a whole literal: the number that it denotes, or if there is none, that it is
out of range. -/
inductive Settles (rest : Bytes) : Option JsonNumber → Except Failure (JsonNumber × Bytes) → Prop
  | read (n : JsonNumber) : Settles rest (some n) (.ok (n, rest))
  | beyond (left : Nat) : Settles rest none (.error ⟨.numberOutOfRange, [], left⟩)

theorem Settles.eq_ok {x : Except Failure (JsonNumber × Bytes)} (h : Settles rest (some n) x) :
    x = .ok (n, rest) := by
  cases h
  rfl

theorem Settles.eq_error {x : Except Failure (JsonNumber × Bytes)} (h : Settles rest none x) :
    ∃ left, x = .error ⟨.numberOutOfRange, [], left⟩ := by
  cases h
  exact ⟨_, rfl⟩

def double? (m : Mantissa) (e : Int) : Option JsonNumber :=
  if maxExponent < e ∧ m.significand ≠ 0 then none
  else (scaleByTen m.negative m.significand (m.exponent + e)).map .double

theorem double?_eq_some_iff_scales {e : Int} : double? m e = some n ↔ Scales m e n := by
  rw [double?]
  constructor
  · intro h
    split at h
    · cases h
    · rename_i hsmall
      exact ⟨hsmall, h⟩
  · intro h
    rw [if_neg h.small]
    exact h.double

theorem settles_scaled {e : Int} (hs : ¬(maxExponent < e ∧ m.significand ≠ 0)) (rest : Bytes) :
    Settles rest (double? m e) (m.scaled e rest) := by
  rw [double?, if_neg hs, Mantissa.scaled]
  cases scaleByTen m.negative m.significand (m.exponent + e) with
  | none => exact .beyond _
  | some x => exact .read _

/-! Exponents. -/

def signOf : Bytes → Sign × Bytes
  | b :: rest =>
    if b = byte '+' then (.plus, rest) else if b = byte '-' then (.minus, rest)
    else (.absent, b :: rest)
  | [] => (.absent, [])

theorem signOf_chars {b : UInt8} (hb : isDigit b = true) (s : Sign) (tail : Bytes) :
    signOf (Utf8.encode s.chars ++ b :: tail) = (s, b :: tail) := by
  cases s with
  | absent =>
    have hne {c : Char} (hc : isDigit (byte c) = false) : b ≠ byte c := by
      rintro rfl
      rw [hb] at hc
      cases hc
    rw [Sign.chars, Utf8.encode_nil, List.nil_append, signOf, if_neg (hne (by decide)),
      if_neg (hne (by decide))]
  | plus => rfl
  | minus => rfl

theorem eq_of_signOf {s : Sign} (h : signOf bytes = (s, rest)) :
    bytes = Utf8.encode s.chars ++ rest := by
  unfold signOf at h
  split at h
  · split at h
    · rename_i hb
      cases h
      rw [hb]
      rfl
    · split at h
      · rename_i hb
        cases h
        rw [hb]
        rfl
      · cases h
        rfl
  · cases h
    rfl

def unsignedExponent (m : Mantissa) (negative : Bool) (bytes : Bytes) :
    Except Failure (JsonNumber × Bytes) :=
  match bytes with
  | [] => fail .eofInValue []
  | b :: rest =>
    if isDigit b then
      let (es, after) := digits bytes
      let n := ofDigits 10 es
      if n > maxExponent && m.significand != 0 && !negative then
        fail .numberOutOfRange (bytes.drop (digitsToOverflow 0 es))
      else m.scaled (if negative then -(n : Int) else n) after
    else fail .invalidNumber rest

theorem exponent_eq (m : Mantissa) (bytes : Bytes) :
    exponent m bytes = unsignedExponent m ((signOf bytes).1 == .minus) (signOf bytes).2 := by
  cases bytes with
  | nil => rfl
  | cons b rest =>
    by_cases hplus : b = byte '+'
    · simp only [exponent, signOf, if_pos hplus]
      rfl
    · by_cases hminus : b = byte '-'
      · simp only [exponent, signOf, if_neg hplus, if_pos hminus]
        rfl
      · simp only [exponent, signOf, if_neg hplus, if_neg hminus]
        rfl

theorem digits_cons (ds : Digits) (rest : Bytes) :
    ∃ b tail, Utf8.encode ds.chars ++ rest = b :: tail ∧ isDigit b = true := by
  obtain ⟨c, cs, hcs⟩ := List.exists_cons_of_ne_nil ds.ne_nil
  have hc : c.isDigit = true := ds.digit c (hcs ▸ List.mem_cons_self)
  have hlt : c.val.toNat < 0x80 := Nat.lt_trans (isDigit_bounds hc).2 (by decide)
  exact ⟨byte c, _, by rw [hcs, encode_ascii_cons hlt]; rfl, isDigit_byte hc⟩

theorem settles_exponent (e : ExponentPart) (hr : StopsDigits rest) :
    Settles rest (double? m e.value)
      (exponent m (Utf8.encode (e.sign.chars ++ e.digits.chars) ++ rest)) := by
  obtain ⟨b, tail, htail, hb⟩ := digits_cons e.digits rest
  have hdigits := digits_chars e.digits hr
  rw [htail] at hdigits
  have hvalue : (if e.sign == .minus then -(ofDigits 10 e.digits.values : Int)
      else ofDigits 10 e.digits.values) = e.value := by
    simp only [ExponentPart.value, Digits.number, beq_iff_eq]
  have hlarge : (ofDigits 10 e.digits.values > maxExponent && m.significand != 0 &&
      !(e.sign == .minus)) = true ↔ maxExponent < e.value ∧ m.significand ≠ 0 := by
    simp only [Bool.and_eq_true, decide_eq_true_eq, bne_iff_ne, Bool.not_eq_true',
      beq_eq_false_iff_ne, ExponentPart.value, Digits.number]
    by_cases hsign : e.sign = .minus
    · have hnegative : ¬(maxExponent : Int) < -(ofDigits 10 e.digits.values : Int) := by
        simp only [maxExponent]
        omega
      rw [if_pos hsign]
      exact ⟨fun h => absurd hsign h.2, fun h => absurd h.1 hnegative⟩
    · rw [if_neg hsign]
      exact ⟨fun h => ⟨Int.ofNat_lt.mpr h.1.1, h.1.2⟩,
        fun h => ⟨⟨Int.ofNat_lt.mp h.1, h.2⟩, hsign⟩⟩
  rw [exponent_eq, Utf8.encode_append, List.append_assoc, htail, signOf_chars hb]
  simp only [unsignedExponent, hb, if_true, hdigits, hlarge, hvalue]
  split
  · rename_i hbeyond
    rw [double?, if_pos hbeyond]
    exact .beyond _
  · rename_i hsmall
    exact settles_scaled hsmall rest

theorem exists_exponent (h : exponent m bytes = .ok (n, rest)) (capital : Bool) :
    ∃ e : ExponentPart, e.capital = capital ∧ Scales m e.value n ∧
      bytes = Utf8.encode (e.sign.chars ++ e.digits.chars) ++ rest := by
  rw [exponent_eq] at h
  obtain ⟨s, after, hs⟩ : ∃ s after, signOf bytes = (s, after) := ⟨_, _, rfl⟩
  rw [hs] at h
  obtain rfl := eq_of_signOf hs
  simp only [unsignedExponent] at h
  split at h
  · cases h
  rename_i b tail
  split at h
  · rename_i hb
    obtain ⟨values, left, hv⟩ : ∃ values left, digits (b :: tail) = (values, left) := ⟨_, _, rfl⟩
    have hne : values ≠ [] := by
      obtain ⟨rfl, -⟩ := Prod.mk.inj hv
      simp [hb]
    obtain ⟨ds, hds, hchars⟩ := exists_digits hv hne
    simp only [hv] at h
    split at h
    · cases h
    rename_i hsmall
    have hvalue : (if s == .minus then -(ofDigits 10 values : Int) else ofDigits 10 values) =
        ExponentPart.value ⟨capital, s, ds⟩ := by
      simp only [ExponentPart.value, Digits.number, beq_iff_eq, hds]
    have hfits : ¬((maxExponent : Int) < ExponentPart.value ⟨capital, s, ds⟩ ∧
        m.significand ≠ 0) := by
      rintro ⟨hlarge, hne⟩
      rw [← hvalue] at hlarge
      refine hsmall ?_
      simp only [Bool.and_eq_true, decide_eq_true_eq, bne_iff_ne, Bool.not_eq_true',
        beq_eq_false_iff_ne]
      split at hlarge
      · simp only [maxExponent] at hlarge
        omega
      · rename_i hsign
        exact ⟨⟨Int.ofNat_lt.mp hlarge, hne⟩, by simpa using hsign⟩
    rw [hvalue] at h
    obtain ⟨rfl, hscales⟩ := (scaled_eq_ok_iff hfits).mp h
    refine ⟨⟨capital, s, ds⟩, rfl, hscales, ?_⟩
    rw [hchars, Utf8.encode_append, List.append_assoc]
  · cases h

theorem mark_byte (e : ExponentPart) : e.mark.val.toNat < 0x80 ∧ isDigit (byte e.mark) = false ∧
    byte e.mark ≠ byte '.' ∧ (byte e.mark = byte 'e' ∨ byte e.mark = byte 'E') := by
  simp only [ExponentPart.mark]
  cases e.capital <;> decide

theorem encode_exponent (e : ExponentPart) :
    Utf8.encode e.chars = byte e.mark :: Utf8.encode (e.sign.chars ++ e.digits.chars) :=
  encode_ascii_cons (mark_byte e).1 _

/-- A letter that begins an exponent tells which kind it is of. -/
theorem exists_mark {b : UInt8} (h : b = byte 'e' ∨ b = byte 'E') :
    ∃ capital : Bool, b = byte (if capital then 'E' else 'e') := by
  obtain rfl | rfl := h
  · exact ⟨false, rfl⟩
  · exact ⟨true, rfl⟩

theorem stopsDigits_exponent (e : Option ExponentPart) (hr : endsValue rest = true) :
    StopsDigits (Utf8.encode (exponentChars e) ++ rest) := by
  cases e with
  | none => exact stopsDigits_of_endsValue hr
  | some e =>
    rw [exponentChars, encode_exponent]
    exact .cons (mark_byte e).2.1 _

theorem settles_afterDigits (e : Option ExponentPart) (hr : endsValue rest = true) :
    Settles rest (double? m (exponentValue e))
      (afterDigits m (Utf8.encode (exponentChars e) ++ rest)) := by
  cases e with
  | none =>
    cases rest with
    | nil => exact settles_scaled not_large_zero []
    | cons b rest =>
      obtain ⟨-, -, he, hE⟩ := not_isDigit_of_endsValue hr
      rw [exponentChars, Utf8.encode_nil, List.nil_append, afterDigits,
        if_neg (by simp [he, hE])]
      exact settles_scaled not_large_zero _
  | some e =>
    rw [exponentChars, encode_exponent, List.cons_append, afterDigits,
      if_pos (mark_byte e).2.2.2]
    exact settles_exponent e (stopsDigits_of_endsValue hr)

theorem exists_afterDigits (h : afterDigits m bytes = .ok (n, rest)) :
    ∃ e : Option ExponentPart, Scales m (exponentValue e) n ∧
      bytes = Utf8.encode (exponentChars e) ++ rest := by
  have hnone {bytes : Bytes} (h : m.scaled 0 bytes = .ok (n, rest)) :
      ∃ e : Option ExponentPart, Scales m (exponentValue e) n ∧
        bytes = Utf8.encode (exponentChars e) ++ rest := by
    obtain ⟨rfl, hscales⟩ := (scaled_eq_ok_iff not_large_zero).mp h
    exact ⟨none, hscales, rfl⟩
  unfold afterDigits at h
  split at h
  · split at h
    · rename_i hmark
      obtain ⟨capital, rfl⟩ := exists_mark hmark
      obtain ⟨e, rfl, hscales, hbytes⟩ := exists_exponent h capital
      exact ⟨some e, hscales, by rw [exponentChars, encode_exponent, hbytes]; rfl⟩
    · exact hnone h
  · exact hnone h

/-! Integers. -/

/-- A significand that takes all digits is the number they write. -/
theorem lt_of_append_all {ds : List Nat} {k : Nat} (hk : k < 0x10000000000000000)
    (h : (Mantissa.append k ds).2 = ds.length) :
    ds.foldl (fun n d => 10 * n + d) k < 0x10000000000000000 := by
  induction ds generalizing k with
  | nil => exact hk
  | cons d ds ih =>
    rw [Mantissa.append] at h
    split at h
    · rename_i hlt
      exact ih hlt (by simpa using h)
    · cases h

theorem append_le (ds : List Nat) (k : Nat) : (Mantissa.append k ds).2 ≤ ds.length := by
  induction ds generalizing k with
  | nil => exact Nat.le_refl 0
  | cons d ds ih =>
    rw [Mantissa.append]
    split
    · exact Nat.succ_le_succ (ih _)
    · exact Nat.zero_le _

/-- The digits that a word does not hold leave an exponent. -/
theorem ofWhole_exponent_ne {negative : Bool} {ds : List Nat}
    (h : 0x10000000000000000 ≤ ofDigits 10 ds) : (Mantissa.ofWhole negative ds).exponent ≠ 0 := by
  have hle := append_le ds 0
  have hne : (Mantissa.append 0 ds).2 ≠ ds.length := fun he =>
    absurd (lt_of_append_all (by decide) he) (Nat.not_lt.mpr h)
  simp only [Mantissa.ofWhole]
  omega

theorem mantissa_negative (l : NumberLiteral) : l.mantissa.negative = l.negative := by
  unfold NumberLiteral.mantissa
  split <;> rfl

theorem double?_literal (l : NumberLiteral) :
    l.double? = double? l.mantissa (exponentValue l.exponent) := by
  rw [NumberLiteral.double?, double?, mantissa_negative]

theorem double?_eq_some_iff (l : NumberLiteral) :
    l.double? = some n ↔ Scales l.mantissa (exponentValue l.exponent) n := by
  rw [double?_literal, double?_eq_some_iff_scales]

/-- An integer is at fault for its range only. -/
theorem beyond_of_integer {f : Failure} (h : integer m bytes = .error f) :
    ∃ left, f = ⟨.numberOutOfRange, [], left⟩ := by
  have hscaled (h : m.scaled 0 bytes = .error f) : ∃ left, f = ⟨.numberOutOfRange, [], left⟩ := by
    rw [Mantissa.scaled] at h
    split at h <;> cases h
    exact ⟨_, rfl⟩
  simp only [integer] at h
  split at h
  · split at h
    · cases h
    · exact hscaled h
  · exact hscaled h

/-- A literal without fraction and exponent. -/
theorem integer_eq_ok_iff {l : NumberLiteral} (hf : l.fraction = none) (he : l.exponent = none) :
    integer (.ofWhole l.negative l.whole.values) bytes = .ok (n, rest) ↔
      rest = bytes ∧ l.value? = some n := by
  have hmantissa : l.mantissa = .ofWhole l.negative l.whole.values := by
    simp only [NumberLiteral.mantissa, hf]
  have hscaled : (Mantissa.ofWhole l.negative l.whole.values).scaled 0 bytes = .ok (n, rest) ↔
      rest = bytes ∧ l.double? = some n := by
    rw [scaled_eq_ok_iff not_large_zero, double?_eq_some_iff, hmantissa, he]
    rfl
  by_cases hword : l.whole.number < 0x10000000000000000
  · have hwhole : Mantissa.ofWhole l.negative l.whole.values = ⟨l.negative, l.whole.number, 0⟩ :=
      ofWhole_eq l.negative hword
    by_cases hzero : l.negative = true ∧ l.whole.number = 0
    · have hvalue : l.value? = l.double? := by
        rw [NumberLiteral.value?, if_neg fun h => h.2.2 hzero]
      rw [hvalue, ← hscaled, hwhole]
      simp only [integer]
      rw [if_neg fun h => h.2 hzero]
    · have hplain : l.fraction.isNone ∧ l.exponent.isNone ∧
          ¬(l.negative = true ∧ l.whole.number = 0) := by
        rw [hf, he]
        exact ⟨rfl, rfl, hzero⟩
      rw [hwhole] at hscaled ⊢
      rw [NumberLiteral.value?, if_pos hplain, NumberLiteral.integer]
      simp only [integer]
      rw [if_pos ⟨trivial, hzero⟩]
      cases Word.ofInt? (if l.negative = true then -(l.whole.number : Int) else _) with
      | some w =>
        simp only [Except.ok.injEq, Prod.mk.injEq, Option.some.injEq]
        exact ⟨fun h => ⟨h.2.symm, h.1⟩, fun h => ⟨h.2, h.1.symm⟩⟩
      | none => exact hscaled
  · have hlarge : 0x10000000000000000 ≤ l.whole.number := Nat.le_of_not_lt hword
    have hnone : Word.ofInt? l.integer = none := by
      rw [Word.ofInt?, dif_neg]
      simp only [NumberLiteral.integer]
      split <;> omega
    have hvalue : l.value? = l.double? := by
      rw [NumberLiteral.value?]
      split
      · rw [hnone]
      · rfl
    rw [hvalue, ← hscaled]
    simp only [integer]
    rw [if_neg fun h => ofWhole_exponent_ne hlarge h.1]

theorem settles_integer {l : NumberLiteral} (hf : l.fraction = none) (he : l.exponent = none) :
    Settles bytes l.value? (integer (.ofWhole l.negative l.whole.values) bytes) := by
  have hread (n : JsonNumber) (rest : Bytes) :
      integer (.ofWhole l.negative l.whole.values) bytes = .ok (n, rest) ↔
        rest = bytes ∧ l.value? = some n := integer_eq_ok_iff hf he
  cases hresult : integer (.ofWhole l.negative l.whole.values) bytes with
  | ok p =>
    obtain ⟨hrest, hvalue⟩ := (hread p.1 p.2).mp hresult
    rw [hvalue, ← hrest]
    exact .read p.1
  | error f =>
    cases hvalue : l.value? with
    | some n =>
      rw [(hread n bytes).mpr ⟨rfl, hvalue⟩] at hresult
      cases hresult
    | none =>
      obtain ⟨left, rfl⟩ := beyond_of_integer hresult
      exact .beyond left

/-- A literal with a fraction or an exponent denotes a double. -/
theorem value?_eq_double? {l : NumberLiteral} (h : l.fraction ≠ none ∨ l.exponent ≠ none) :
    l.value? = l.double? := by
  rw [NumberLiteral.value?, if_neg]
  rintro ⟨hf, he, -⟩
  obtain h | h := h
  · exact h (Option.isNone_iff_eq_none.mp hf)
  · exact h (Option.isNone_iff_eq_none.mp he)

/-! Whole literals. -/

def tailChars (l : NumberLiteral) : List Char :=
  fractionChars l.fraction ++ exponentChars l.exponent

theorem encode_fraction (ds : Digits) :
    Utf8.encode (fractionChars (some ds)) = byte '.' :: Utf8.encode ds.chars :=
  encode_ascii_cons (by decide) _

theorem stopsDigits_tail (l : NumberLiteral) (hr : endsValue rest = true) :
    StopsDigits (Utf8.encode (tailChars l) ++ rest) := by
  rw [tailChars, Utf8.encode_append, List.append_assoc]
  cases l.fraction with
  | none => exact stopsDigits_exponent l.exponent hr
  | some ds =>
    rw [encode_fraction]
    exact .cons (by decide) _

theorem settles_afterWhole (l : NumberLiteral) (hr : endsValue rest = true) :
    Settles rest l.value?
      (afterWhole (.ofWhole l.negative l.whole.values) (Utf8.encode (tailChars l) ++ rest)) := by
  rw [tailChars, Utf8.encode_append, List.append_assoc]
  cases hf : l.fraction with
  | some ds =>
    have hdigits := digits_chars ds (stopsDigits_exponent l.exponent hr)
    have hmantissa : l.mantissa =
        (Mantissa.ofWhole l.negative l.whole.values).withFraction ds.values := by
      simp only [NumberLiteral.mantissa, hf]
    obtain ⟨d, ds', hds⟩ := List.exists_cons_of_ne_nil (values_ne_nil ds)
    rw [hds] at hdigits hmantissa
    rw [encode_fraction, List.cons_append, afterWhole, if_pos rfl, hdigits,
      value?_eq_double? (.inl (by simp [hf])), double?_literal]
    simp only
    rw [← hmantissa]
    exact settles_afterDigits l.exponent hr
  | none =>
    have hmantissa : l.mantissa = .ofWhole l.negative l.whole.values := by
      simp only [NumberLiteral.mantissa, hf]
    rw [fractionChars, Utf8.encode_nil, List.nil_append]
    cases he : l.exponent with
    | some e =>
      obtain ⟨-, -, hdot, hmark⟩ := mark_byte e
      rw [exponentChars, encode_exponent, List.cons_append, afterWhole, if_neg hdot, if_pos hmark,
        value?_eq_double? (.inr (by simp [he])), double?_literal, hmantissa, he]
      exact settles_exponent e (stopsDigits_of_endsValue hr)
    | none =>
      rw [exponentChars, Utf8.encode_nil, List.nil_append, afterWhole_eq _ hr]
      exact settles_integer hf he

/-- Of a whole literal the reader makes the number it denotes. -/
theorem settles_number (l : NumberLiteral) (hr : endsValue rest = true) :
    Settles rest l.value? (number l.negative (Utf8.encode l.unsigned ++ rest)) := by
  have hafter := settles_afterWhole l hr
  have hstop := stopsDigits_tail l hr
  have hdigits := digits_chars l.whole hstop
  obtain ⟨c, cs, hcs⟩ := List.exists_cons_of_ne_nil l.whole.ne_nil
  have hc : c.isDigit = true := l.whole.digit c (hcs ▸ List.mem_cons_self)
  have hlt : c.val.toNat < 0x80 := Nat.lt_trans (isDigit_bounds hc).2 (by decide)
  have hbytes : Utf8.encode l.unsigned ++ rest =
      byte c :: (Utf8.encode cs ++ (Utf8.encode (tailChars l) ++ rest)) := by
    rw [NumberLiteral.unsigned, ← tailChars, Utf8.encode_append, List.append_assoc, hcs,
      encode_ascii_cons hlt]
    rfl
  rw [hcs, encode_ascii_cons hlt, List.cons_append] at hdigits
  rw [hbytes]
  by_cases hzero : c = '0'
  · subst hzero
    have hwhole : l.whole.chars = ['0'] := l.leading (by rw [hcs]; rfl)
    have hvalues : l.whole.values = [0] := by
      rw [Digits.values, hwhole]
      rfl
    obtain rfl : cs = [] := by
      rw [hcs] at hwhole
      exact (List.cons.inj hwhole).2
    rw [hvalues] at hafter
    rw [Utf8.encode_nil, List.nil_append]
    cases htail : Utf8.encode (tailChars l) ++ rest with
    | nil =>
      rw [htail] at hafter
      simpa only [number, if_true] using hafter
    | cons b tail =>
      rw [htail] at hafter hstop
      simpa only [number, if_true, hstop b rfl, Bool.false_eq_true, if_false] using hafter
  · have hne := byte_ne (by omega) (by decide) hzero
    simpa only [number, if_neg hne, isDigit_byte hc, if_true, hdigits] using hafter

/-- A literal is read as the number it denotes. -/
theorem number_chars (l : NumberLiteral) (h : l.value? = some n) (hr : endsValue rest = true) :
    number l.negative (Utf8.encode l.unsigned ++ rest) = .ok (n, rest) :=
  (h ▸ settles_number l hr).eq_ok

/-- A literal that denotes no number is out of range. -/
theorem number_beyond (l : NumberLiteral) (h : l.value? = none) (hr : endsValue rest = true) :
    ∃ left, number l.negative (Utf8.encode l.unsigned ++ rest) =
      .error ⟨.numberOutOfRange, [], left⟩ :=
  (h ▸ settles_number l hr).eq_error

def Completes (negative : Bool) (whole : Digits) (n : JsonNumber) (bytes rest : Bytes) : Prop :=
  ∃ l : NumberLiteral, l.negative = negative ∧ l.whole = whole ∧ l.value? = some n ∧
    bytes = Utf8.encode (tailChars l) ++ rest

section Tails

variable {negative : Bool} {whole : Digits}
  (hleading : whole.chars.head? = some '0' → whole.chars = ['0'])

include hleading

theorem completes_integer (h : integer (.ofWhole negative whole.values) bytes = .ok (n, rest)) :
    Completes negative whole n bytes rest := by
  let l : NumberLiteral := ⟨negative, whole, none, none, hleading⟩
  obtain ⟨rfl, hvalue⟩ := (integer_eq_ok_iff (l := l) rfl rfl).mp h
  exact ⟨l, rfl, rfl, hvalue, rfl⟩

theorem completes_fraction {values : List Nat} {after : Bytes} (hne : values ≠ [])
    (hdigits : digits bytes = (values, after))
    (h : afterDigits ((Mantissa.ofWhole negative whole.values).withFraction values) after =
      .ok (n, rest)) :
    Completes negative whole n (byte '.' :: bytes) rest := by
  obtain ⟨fraction, rfl, rfl⟩ := exists_digits hdigits hne
  obtain ⟨e, hscales, rfl⟩ := exists_afterDigits h
  let l : NumberLiteral := ⟨negative, whole, some fraction, e, hleading⟩
  have hvalue : l.value? = some n := by
    rw [value?_eq_double? (.inl (by simp [l])), double?_eq_some_iff]
    exact hscales
  refine ⟨l, rfl, rfl, hvalue, ?_⟩
  rw [tailChars, Utf8.encode_append, encode_fraction]
  simp [l]

theorem completes_exponent {b : UInt8} (hmark : b = byte 'e' ∨ b = byte 'E')
    (h : exponent (.ofWhole negative whole.values) bytes = .ok (n, rest)) :
    Completes negative whole n (b :: bytes) rest := by
  obtain ⟨capital, rfl⟩ := exists_mark hmark
  obtain ⟨e, rfl, hscales, rfl⟩ := exists_exponent h capital
  let l : NumberLiteral := ⟨negative, whole, none, some e, hleading⟩
  have hvalue : l.value? = some n := by
    rw [value?_eq_double? (.inr (by simp [l])), double?_eq_some_iff]
    exact hscales
  refine ⟨l, rfl, rfl, hvalue, ?_⟩
  change _ = Utf8.encode e.chars ++ rest
  rw [encode_exponent]
  rfl

/-- What stands behind the whole digits of a literal that is read. -/
theorem completes_of_afterWhole
    (h : afterWhole (.ofWhole negative whole.values) bytes = .ok (n, rest)) :
    Completes negative whole n bytes rest := by
  unfold afterWhole at h
  split at h
  · exact completes_integer hleading h
  rename_i b tail
  split at h
  · rename_i hdot
    subst hdot
    obtain ⟨values, after, hdigits⟩ : ∃ values after, digits tail = (values, after) := ⟨_, _, rfl⟩
    simp only [hdigits] at h
    cases values with
    | nil => cases after <;> cases h
    | cons d ds => exact completes_fraction hleading (List.cons_ne_nil d ds) hdigits h
  split at h
  · rename_i hmark
    exact completes_exponent hleading hmark h
  · exact completes_integer hleading h

end Tails

/-- Whatever is read as a number is a literal that denotes it. -/
theorem exists_literal {negative : Bool} (h : number negative bytes = .ok (n, rest)) :
    ∃ l : NumberLiteral, l.negative = negative ∧ l.value? = some n ∧
      bytes = Utf8.encode l.unsigned ++ rest := by
  have hunsigned {tail : Bytes} {whole : Digits}
      (hleading : whole.chars.head? = some '0' → whole.chars = ['0'])
      (h : afterWhole (.ofWhole negative whole.values) tail = .ok (n, rest)) :
      ∃ l : NumberLiteral, l.negative = negative ∧ l.value? = some n ∧
        Utf8.encode whole.chars ++ tail = Utf8.encode l.unsigned ++ rest := by
    obtain ⟨l, hnegative, rfl, hvalue, rfl⟩ := completes_of_afterWhole hleading h
    refine ⟨l, hnegative, hvalue, ?_⟩
    rw [NumberLiteral.unsigned, ← tailChars, Utf8.encode_append, List.append_assoc]
  unfold number at h
  split at h
  · cases h
  · rename_i b tail
    split at h
    · rename_i hzero
      let zero : Digits := ⟨['0'], by simp, by simp⟩
      have hafter : afterWhole (.ofWhole negative [0]) tail = .ok (n, rest) := by
        split at h
        · split at h
          · cases h
          · exact h
        · exact h
      rw [hzero]
      exact @hunsigned tail zero (fun _ => rfl) hafter
    · split at h
      · rename_i hzero hb
        obtain ⟨values, after, hdigits⟩ : ∃ values after, digits (b :: tail) = (values, after) :=
          ⟨_, _, rfl⟩
        simp only [hdigits] at h
        have hne : values ≠ [] := by
          obtain ⟨rfl, -⟩ := Prod.mk.inj hdigits
          simp [hb]
        obtain ⟨whole, hwhole, hbytes⟩ := exists_digits hdigits hne
        rw [hbytes]
        rw [← hwhole] at h
        refine hunsigned (fun hhead => ?_) h
        obtain ⟨c, cs, hcs⟩ := List.exists_cons_of_ne_nil whole.ne_nil
        rw [hcs] at hhead
        obtain rfl := Option.some.inj hhead
        rw [hcs, encode_ascii_cons (by decide)] at hbytes
        exact absurd (List.cons.inj hbytes).1 hzero
      · cases h

end SchemaByExample.Literal
