import SchemaByExample.Proofs.Shape.NumericText

/-! The number at the front of a text is the longest one. The readers take digits as long as there
are some, and give a letter `e` back if no exponent follows. So they leave no more of a text than
stands behind any number that the text begins with. -/
namespace SchemaByExample.Number

open Json DecimalText
open DecimalLiteral (pointChars)

theorem exists_digits (cs : List Char) : ∃ ds rest : List Char,
    (∀ c ∈ ds, c.isDigit = true) ∧ NoDigit rest ∧ cs = ds ++ rest := by
  obtain ⟨ds, hds, -, hcs, hrest⟩ := @exists_of_digits cs _ _ Prod.mk.eta.symm
  exact ⟨ds, _, hds, hrest, hcs⟩

/-- A mantissa goes on as long as digits follow, and over one point. -/
theorem mantissa?_goes_on {whole : List Char} {fraction : Option (List Char)}
    (hw : ∀ c ∈ whole, c.isDigit = true) (hf : ∀ ds ∈ fraction, ∀ c ∈ ds, c.isDigit = true)
    (hsome : whole ≠ [] ∨ ∃ ds ∈ fraction, ds ≠ []) (rest : List Char) :
    ∃ ws fs left, mantissa? (whole ++ (pointChars fraction ++ rest)) = some (ws, fs, left) ∧
      left <:+ rest := by
  obtain ⟨ds, left, hds, hleft, rfl⟩ := exists_digits rest
  cases fraction with
  | some places =>
    have htext : whole ++ (pointChars (some places) ++ (ds ++ left)) =
        whole ++ (pointChars (some (places ++ ds)) ++ left) := by
      simp [pointChars]
    have hplaces : ∀ es ∈ some (places ++ ds), ∀ c ∈ es, c.isDigit = true := by
      intro es hes
      obtain rfl := Option.some.inj hes
      exact List.forall_mem_append.mpr ⟨hf places rfl, hds⟩
    have hsome' : whole ≠ [] ∨ ∃ es ∈ some (places ++ ds), es ≠ [] := by
      refine hsome.imp_right fun h => ⟨_, rfl, ?_⟩
      exact List.append_ne_nil_of_left_ne_nil (by simpa using h) ds
    rw [htext]
    exact ⟨_, _, left, mantissa?_append hw hplaces hsome' hleft (by simp),
      List.suffix_append ds left⟩
  | none =>
    have hwhole : ∀ c ∈ whole ++ ds, c.isDigit = true := List.forall_mem_append.mpr ⟨hw, hds⟩
    have hne : whole ++ ds ≠ [] :=
      List.append_ne_nil_of_left_ne_nil (by simpa using hsome) ds
    by_cases hpoint : left.head? = some '.'
    · -- the point belongs to the number, whether digits follow it or not
      obtain ⟨more, rfl⟩ := List.head?_eq_some_iff.mp hpoint
      obtain ⟨es, left, hes, hleft', rfl⟩ := exists_digits more
      have htext : whole ++ (pointChars none ++ (ds ++ '.' :: (es ++ left))) =
          whole ++ ds ++ (pointChars (some es) ++ left) := by
        simp [pointChars]
      rw [htext]
      refine ⟨_, _, left, mantissa?_append hwhole (by simpa using hes) (.inl hne) hleft' (by simp),
        ?_⟩
      exact ⟨ds ++ '.' :: es, by simp⟩
    · have htext : whole ++ (pointChars none ++ (ds ++ left)) =
          whole ++ ds ++ (pointChars none ++ left) := by
        simp [pointChars]
      rw [htext]
      exact ⟨_, _, left, mantissa?_append hwhole (by simp) (.inl hne) hleft fun _ => hpoint,
        List.suffix_append ds left⟩

theorem exponent_suffix (cs : List Char) : (exponent cs).2 <:+ cs := by
  obtain ⟨e, -, hcs⟩ := @exists_of_exponent cs _ _ Prod.mk.eta.symm
  exact ⟨exponentChars e, hcs.symm⟩

def lengthened (e : ExponentPart) {ds : List Char} (hds : ∀ c ∈ ds, c.isDigit = true) :
    ExponentPart where
  capital := e.capital
  sign := e.sign
  digits := ⟨e.digits.chars ++ ds, List.append_ne_nil_of_left_ne_nil e.digits.ne_nil ds,
    List.forall_mem_append.mpr ⟨e.digits.digit, hds⟩⟩

theorem chars_lengthened (e : ExponentPart) {ds : List Char}
    (hds : ∀ c ∈ ds, c.isDigit = true) : (lengthened e hds).chars = e.chars ++ ds := by
  rw [ExponentPart.chars, ExponentPart.chars, List.cons_append, List.append_assoc]
  rfl

/-- An exponent goes on as long as digits follow. -/
theorem exponent_goes_on (e : ExponentPart) (rest : List Char) :
    (exponent (e.chars ++ rest)).2 <:+ rest := by
  obtain ⟨ds, left, hds, hleft, rfl⟩ := exists_digits rest
  rw [← List.append_assoc, ← chars_lengthened e hds, exponent_chars (lengthened e hds) hleft]
  exact List.suffix_append ds left

namespace DecimalLiteral

theorem unsigned_goes_on (l : DecimalLiteral) (rest : List Char) : ∃ ws fs after,
    mantissa? (l.unsigned ++ rest) = some (ws, fs, after) ∧
      (DecimalText.exponent after).2 <:+ rest := by
  rw [unsigned, List.append_assoc, List.append_assoc]
  cases l.exponent with
  | none =>
    obtain ⟨ws, fs, after, hm, hafter⟩ :=
      mantissa?_goes_on l.whole_digits l.fraction_digits l.some_digit rest
    exact ⟨ws, fs, after, hm, (exponent_suffix after).trans hafter⟩
  | some e =>
    obtain ⟨hdigit, hpoint⟩ := noDigit_chars e rest
    have hm := mantissa?_append l.whole_digits l.fraction_digits l.some_digit hdigit
      fun _ => hpoint
    exact ⟨_, _, _, hm, exponent_goes_on e rest⟩

/-- A literal at the front is read, and no more is left than stands behind it. -/
theorem decimal?_goes_on (l : DecimalLiteral) (rest : List Char) :
    ∃ d left, decimal? (l.chars ++ rest) = some (d, left) ∧ left <:+ rest := by
  obtain ⟨ws, fs, after, hm, hleft⟩ := l.unsigned_goes_on rest
  cases he : DecimalText.exponent after with
  | mk e left =>
    rw [he] at hleft
    refine ⟨.ofParts (l.sign = .minus) ws fs e, left, ?_, hleft⟩
    rw [chars, List.append_assoc, decimal?, sign_append (l.head_unsigned rest)]
    simp only [hm, he, bind, Option.bind]
    rfl

end DecimalLiteral

end SchemaByExample.Number

namespace SchemaByExample.NumericText

open Number DecimalText
open Json (Sign)

/-- A number that a text may begin with: a word for an infinity, or a decimal literal. -/
inductive Numeral where
  | infinity (s : Sign)
  | decimal (l : DecimalLiteral)

namespace Numeral

def chars : Numeral → List Char
  | .infinity s => infinityWord s
  | .decimal l => l.chars

/-- The nearest double to the number; an infinity beyond the doubles. -/
def value : Numeral → Real
  | .infinity s => .infinite (decide (s = .minus))
  | .decimal l => l.decimal.toExtended Format.double

def Longest (n : Numeral) (cs : List Char) : Prop :=
  n.chars <+: cs ∧ ∀ m : Numeral, m.chars <+: cs → m.chars.length ≤ n.chars.length

theorem value_ne_nan (n : Numeral) : n.value ≠ .nan := by
  cases n with
  | infinity s => simp [value]
  | decimal l =>
    rw [value, Decimal.toExtended]
    split <;> simp

end Numeral

def number? (cs : List Char) : Option (Real × List Char) :=
  match infinity? cs with
  | some (negative, rest) => some (.infinite negative, rest)
  | none => (decimal? cs).map fun p => (p.1.toExtended Format.double, p.2)

theorem ofPrefix_eq (cs : List Char) :
    ofPrefix cs = ((number? (trimStart cs)).map (·.1)).getD .nan := by
  rw [ofPrefix, number?]
  cases infinity? (trimStart cs) with
  | some p => rfl
  | none => cases decimal? (trimStart cs) <;> rfl

theorem number?_infinity (s : Sign) (rest : List Char) :
    number? (infinityWord s ++ rest) = some (.infinite (decide (s = .minus)), rest) := by
  simp only [number?, infinity?_append]

theorem number?_literal (l : DecimalLiteral) (rest : List Char) :
    number? (l.chars ++ rest) =
      (decimal? (l.chars ++ rest)).map fun p => (p.1.toExtended Format.double, p.2) := by
  simp only [number?, infinity?_literal]

namespace Numeral

theorem exists_of_number? {cs rest : List Char} {x : Real} (h : number? cs = some (x, rest)) :
    ∃ n : Numeral, x = n.value ∧ cs = n.chars ++ rest := by
  rw [number?] at h
  split at h
  · rename_i hinfinity
    cases h
    obtain ⟨s, rfl, hcs⟩ := exists_of_infinity? hinfinity
    exact ⟨.infinity s, rfl, hcs⟩
  · obtain ⟨p, hd, hx⟩ := Option.map_eq_some_iff.mp h
    cases hx
    obtain ⟨l, hl, hcs⟩ := DecimalLiteral.exists_of_decimal? hd
    exact ⟨.decimal l, by rw [hl, value], hcs⟩

variable (n : Numeral)

/-- A number is read whole if nothing goes on with it. -/
theorem number?_append {rest : List Char} (h : EndsLiteral rest) :
    number? (n.chars ++ rest) = some (n.value, rest) := by
  cases n with
  | infinity s => exact number?_infinity s rest
  | decimal l => rw [chars, number?_literal, l.decimal?_append h, Option.map_some, value]

theorem number?_chars : number? n.chars = some (n.value, []) := by
  have hends : EndsLiteral [] := by
    intro c hc
    cases hc
  have hread := n.number?_append hends
  rwa [List.append_nil] at hread

theorem number?_goes_on (rest : List Char) :
    ∃ x left, number? (n.chars ++ rest) = some (x, left) ∧ left <:+ rest := by
  cases n with
  | infinity s => exact ⟨_, rest, number?_infinity s rest, List.suffix_refl rest⟩
  | decimal l =>
    obtain ⟨d, left, hd, hleft⟩ := l.decimal?_goes_on rest
    refine ⟨d.toExtended Format.double, left, ?_, hleft⟩
    rw [chars, number?_literal, hd, Option.map_some]

variable {n}

theorem value_eq_of_chars {m : Numeral} (h : n.chars = m.chars) : n.value = m.value := by
  have hn := n.number?_chars
  rw [h, m.number?_chars] at hn
  exact (Prod.mk.inj (Option.some.inj hn)).1.symm

/-- What is read is a longest number. -/
theorem longest_of_number? {cs rest : List Char} {x : Real} (h : number? cs = some (x, rest)) :
    ∃ n : Numeral, n.Longest cs ∧ cs = n.chars ++ rest ∧ x = n.value := by
  obtain ⟨n, hx, hcs⟩ := exists_of_number? h
  refine ⟨n, ⟨⟨rest, hcs.symm⟩, fun m hm => ?_⟩, hcs, hx⟩
  obtain ⟨after, hafter⟩ := hm
  obtain ⟨y, left, hy, hleft⟩ := m.number?_goes_on after
  rw [hafter, h] at hy
  cases hy
  have hlength := hleft.length_le
  have htotal : m.chars.length + after.length = n.chars.length + rest.length := by
    rw [← List.length_append, hafter, hcs, List.length_append]
  omega

theorem number?_eq_some_iff {cs rest : List Char} {x : Real} : number? cs = some (x, rest) ↔
    ∃ n : Numeral, n.Longest cs ∧ cs = n.chars ++ rest ∧ x = n.value := by
  refine ⟨longest_of_number?, fun h => ?_⟩
  obtain ⟨n, ⟨-, hlongest⟩, rfl, rfl⟩ := h
  obtain ⟨y, left, hy, -⟩ := n.number?_goes_on rest
  obtain ⟨m, ⟨hm, hlongest'⟩, htext, rfl⟩ := longest_of_number? hy
  have hlength : n.chars.length = m.chars.length :=
    Nat.le_antisymm (hlongest' n (List.prefix_append n.chars rest)) (hlongest m hm)
  obtain ⟨hchars, rfl⟩ := List.append_inj htext hlength
  rw [hy, value_eq_of_chars hchars]

theorem number?_eq_none_iff {cs : List Char} :
    number? cs = none ↔ ∀ n : Numeral, ¬n.chars <+: cs := by
  constructor
  · intro h n hn
    obtain ⟨rest, rfl⟩ := hn
    obtain ⟨x, left, hx, -⟩ := n.number?_goes_on rest
    rw [h] at hx
    cases hx
  · intro h
    refine Option.eq_none_iff_forall_ne_some.mpr fun p hp => ?_
    obtain ⟨n, -, hcs⟩ := exists_of_number? hp
    exact h n ⟨p.2, hcs.symm⟩

end Numeral

theorem ofPrefix_eq_nan_iff {cs : List Char} :
    ofPrefix cs = .nan ↔ ∀ n : Numeral, ¬n.chars <+: trimStart cs := by
  rw [← Numeral.number?_eq_none_iff, ofPrefix_eq]
  cases h : number? (trimStart cs) with
  | none => exact iff_of_true rfl rfl
  | some p =>
    obtain ⟨n, hx, -⟩ := Numeral.exists_of_number? h
    refine iff_of_false (fun hnan => n.value_ne_nan ?_) (by simp)
    rw [← hx]
    exact hnan

theorem ofWhole_of_infinity {cs : List Char} {s : Sign} (h : trim cs = infinityWord s) :
    ofWhole cs = .infinite (decide (s = .minus)) := by
  have hinfinity := infinity?_append s []
  rw [List.append_nil] at hinfinity
  have hempty : ¬(infinityWord s).isEmpty = true := by cases s <;> decide
  simp only [ofWhole, h, if_neg hempty, hinfinity]

/-- The number at the front, behind blanks, is the longest that the text begins with there, and
its value is taken; without any there is no value. If the text between blanks is a number, that
is the one, and the reading of the whole text gives its value too. -/
theorem ofPrefix_takes_longest (cs : List Char) :
    ofPrefix cs = ((number? (trimStart cs)).map (·.1)).getD .nan ∧
    (∀ x rest, number? (trimStart cs) = some (x, rest) ↔
      ∃ n : Numeral, n.Longest (trimStart cs) ∧ trimStart cs = n.chars ++ rest ∧ x = n.value) ∧
    (ofPrefix cs = .nan ↔ ∀ n : Numeral, ¬n.chars <+: trimStart cs) ∧
    ∀ n : Numeral, trim cs = n.chars →
      n.Longest (trimStart cs) ∧ ofPrefix cs = n.value ∧ ofWhole cs = n.value := by
  refine ⟨ofPrefix_eq cs, fun x rest => Numeral.number?_eq_some_iff, ofPrefix_eq_nan_iff,
    fun n h => ?_⟩
  obtain ⟨bl, hbl, htrim⟩ := exists_blanks cs
  have hread : number? (trimStart cs) = some (n.value, bl) := by
    rw [htrim, h]
    exact n.number?_append (endsLiteral_blanks hbl)
  obtain ⟨m, hlongest, hm, -⟩ := Numeral.longest_of_number? hread
  have hchars : m.chars = n.chars := by
    rw [htrim, h] at hm
    exact (List.append_cancel_right hm).symm
  refine ⟨?_, ?_, ?_⟩
  · rw [Numeral.Longest, ← hchars]
    exact hlongest
  · rw [ofPrefix_eq, hread]
    rfl
  · cases n with
    | infinity s => exact ofWhole_of_infinity h
    | decimal l => exact ofWhole_of_literal h

def thousandths : DecimalLiteral where
  sign := .plus
  whole := []
  fraction := some ['5']
  exponent := some ⟨true, .minus, ⟨['0', '3'], by decide, List.all_eq_true.mp rfl⟩⟩
  whole_digits := by simp
  fraction_digits := by simp
  some_digit := .inr ⟨_, rfl, by decide⟩

/-- An exponent without digits is given back, a point without digits is no number. -/
theorem ofPrefix_takes_longest_given_back :
    (∃ n : Numeral, n.Longest "1.e+x".toList ∧ "1.e+x".toList = n.chars ++ "e+x".toList) ∧
      (∀ n : Numeral, ¬n.chars <+: "-.e5".toList) ∧
      trim "\u3000+.5E-03 \n".toList = (Numeral.decimal thousandths).chars ∧
      (Numeral.decimal thousandths).Longest "+.5E-03 \n".toList ∧
      ofPrefix "\u3000+.5E-03 \n".toList = (Numeral.decimal thousandths).value ∧
      ofWhole "\u3000+.5E-03 \n".toList = (Numeral.decimal thousandths).value := by
  have htrim : trim "\u3000+.5E-03 \n".toList = (Numeral.decimal thousandths).chars := by
    decide +kernel
  obtain ⟨-, -, -, hwhole⟩ := ofPrefix_takes_longest "\u3000+.5E-03 \n".toList
  refine ⟨?_, ?_, htrim, hwhole _ htrim⟩
  · obtain ⟨-, htaken, -, -⟩ := ofPrefix_takes_longest "1.e+x".toList
    have hread : (number? (trimStart "1.e+x".toList)).map (·.2) = some "e+x".toList := by
      decide +kernel
    obtain ⟨p, hp, hrest⟩ := Option.map_eq_some_iff.mp hread
    obtain ⟨n, hlongest, htext, -⟩ := (htaken p.1 p.2).mp hp
    rw [hrest] at htext
    exact ⟨n, hlongest, htext⟩
  · obtain ⟨-, -, hnan, -⟩ := ofPrefix_takes_longest "-.e5".toList
    exact hnan.mp (by decide +kernel)

end SchemaByExample.NumericText
