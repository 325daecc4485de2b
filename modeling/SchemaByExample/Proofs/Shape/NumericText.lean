import SchemaByExample.Shape.NumericText
import SchemaByExample.Proofs.Number.DecimalText
import SchemaByExample.Proofs.Number.NonNegative

/-! The texts that count as numbers. A text is read as a whole and by its longest numeric
beginning. The two values are the same for a decimal literal, and the second is zero for a
literal in another radix; everywhere else one of them is no number or both are infinite. -/
namespace SchemaByExample.NumericText

open Number DecimalText Extended
open Json (Sign hexValue?)

/-! Blanks around a text. -/

/-- What is trimmed at the end are blanks. -/
theorem exists_blanks (cs : List Char) :
    ∃ bl : List Char, (∀ c ∈ bl, isBlank c = true) ∧ trimStart cs = trim cs ++ bl := by
  refine ⟨((trimStart cs).reverse.takeWhile isBlank).reverse, fun c hc => ?_, ?_⟩
  · exact List.all_eq_true.mp List.all_takeWhile c (List.mem_reverse.mp hc)
  · rw [trim, ← List.reverse_append, List.takeWhile_append_dropWhile, List.reverse_reverse]

theorem trimStart_of_trim_nil {cs : List Char} (h : trim cs = []) : trimStart cs = [] := by
  obtain ⟨bl, hbl, htrim⟩ := exists_blanks cs
  rw [h, List.nil_append] at htrim
  have hhead := List.head?_dropWhile_not isBlank cs
  rw [← trimStart, htrim] at hhead
  cases bl with
  | nil => exact htrim
  | cons c bl =>
    have hc := hbl c List.mem_cons_self
    simp [hc] at hhead

theorem not_isDigit_of_isBlank {c : Char} (h : isBlank c = true) :
    c.isDigit = false ∧ c ∉ ['.', 'e', 'E'] := by
  constructor
  · refine Bool.eq_false_iff.mpr fun hd => ?_
    have hbounds := Literal.isDigit_bounds hd
    simp only [isBlank, Bool.or_eq_true, Bool.and_eq_true, beq_iff_eq, decide_eq_true_eq] at h
    omega
  · intro hc
    simp only [List.mem_cons, List.not_mem_nil, or_false] at hc
    obtain rfl | rfl | rfl := hc <;> cases h

theorem endsLiteral_blanks {bl : List Char} (h : ∀ c ∈ bl, isBlank c = true) :
    EndsLiteral bl :=
  fun c hc => not_isDigit_of_isBlank (h c (List.mem_of_mem_head? hc))

/-! Literals in another radix. -/

def radixMarks : List (Char × Nat) :=
  [('x', 16), ('X', 16), ('o', 8), ('O', 8), ('b', 2), ('B', 2)]

inductive RadixLiteral : List Char → Prop
  | intro {c : Char} {radix : Nat} {ds : List Char} : (c, radix) ∈ radixMarks → ds ≠ [] →
      (∀ d ∈ ds, ∃ v, hexValue? d = some v ∧ v < radix) → RadixLiteral ('0' :: c :: ds)

theorem radix?_eq_some {cs rest : List Char} {radix : Nat} (h : radix? cs = some (radix, rest)) :
    ∃ c, (c, radix) ∈ radixMarks ∧ cs = '0' :: c :: rest := by
  rw [radix?.eq_def] at h
  split at h
  · rename_i c cs
    repeat' split at h
    · rename_i hc
      cases h
      exact ⟨c, by obtain rfl | rfl := hc <;> simp [radixMarks], rfl⟩
    · rename_i hc
      cases h
      exact ⟨c, by obtain rfl | rfl := hc <;> simp [radixMarks], rfl⟩
    · rename_i hc
      cases h
      exact ⟨c, by obtain rfl | rfl := hc <;> simp [radixMarks], rfl⟩
    · cases h
  · cases h

theorem radix?_cons {c : Char} {radix : Nat} (h : (c, radix) ∈ radixMarks) (rest : List Char) :
    radix? ('0' :: c :: rest) = some (radix, rest) := by
  simp only [radixMarks, List.mem_cons, Prod.mk.injEq, List.not_mem_nil, or_false] at h
  obtain ⟨rfl, rfl⟩ | ⟨rfl, rfl⟩ | ⟨rfl, rfl⟩ | ⟨rfl, rfl⟩ | ⟨rfl, rfl⟩ | ⟨rfl, rfl⟩ := h <;> rfl

theorem digit?_isSome_iff (radix : Nat) (c : Char) :
    (digit? radix c).isSome = true ↔ ∃ v, hexValue? c = some v ∧ v < radix := by
  have hsome (d : Nat) : (if d < radix then some d else none).isSome = true ↔ d < radix := by
    split <;> simp [*]
  simp only [digit?, hsome, hexValue?]
  by_cases hdigit : 48 ≤ c.toNat ∧ c.toNat < 58
  · simp [hdigit]
  · by_cases hcapital : 65 ≤ c.toNat ∧ c.toNat < 71
    · have hsmall : ¬(97 ≤ c.toNat ∧ c.toNat < 103) := by omega
      simp [hdigit, hcapital, hsmall]
    · by_cases hsmall : 97 ≤ c.toNat ∧ c.toNat < 103 <;> simp [hdigit, hcapital, hsmall]

theorem mapM_digit?_isSome_iff (radix : Nat) (cs : List Char) :
    (cs.mapM (digit? radix)).isSome = true ↔ ∀ c ∈ cs, ∃ v, hexValue? c = some v ∧ v < radix := by
  induction cs with
  | nil => simp
  | cons c cs ih =>
    rw [List.forall_mem_cons, ← ih, ← digit?_isSome_iff, List.mapM_cons]
    cases digit? radix c <;> cases cs.mapM (digit? radix) <;> simp

/-- The bases are doubles. -/
theorem exists_finite_of_check {e : Real} (he : (match e with
      | .finite base => !base.negative && !base.isZero
      | _ => false) = true) :
    ∃ base : Double, e = .finite base ∧ base.negative = false ∧ base.isZero = false := by
  cases e with
  | finite base => exact ⟨base, rfl, by simpa using he⟩
  | _ => cases he

theorem exists_base {c : Char} {radix : Nat} (h : (c, radix) ∈ radixMarks) :
    ∃ base : Double, Extended.ofInt Format.double radix = .finite base ∧
      base.negative = false ∧ base.isZero = false := by
  simp only [radixMarks, List.mem_cons, Prod.mk.injEq, List.not_mem_nil, or_false] at h
  obtain ⟨-, rfl⟩ | ⟨-, rfl⟩ | ⟨-, rfl⟩ | ⟨-, rfl⟩ | ⟨-, rfl⟩ | ⟨-, rfl⟩ := h
  all_goals exact exists_finite_of_check (by decide +kernel)

/-- Step by step the value stays a number that is not below zero, and never becomes none. -/
theorem nonNegative_ofRadix {c : Char} {radix : Nat} (h : (c, radix) ∈ radixMarks)
    {ds : List Char} (hne : ds ≠ []) (hds : ∀ d ∈ ds, ∃ v, hexValue? d = some v ∧ v < radix) :
    NonNegative (ofRadix radix ds) := by
  obtain ⟨base, hbase, hsign, hzero⟩ := exists_base h
  obtain ⟨values, hvalues⟩ :=
    Option.isSome_iff_exists.mp ((mapM_digit?_isSome_iff radix ds).mpr hds)
  have hfold (values : List Nat) {acc : Real} (hacc : NonNegative acc) :
      NonNegative (values.foldl (fun (acc : Real) (d : Nat) =>
        (acc.mul (.finite base)).add (.ofInt _ d)) acc) := by
    induction values generalizing acc with
    | nil => exact hacc
    | cons d values ih =>
      rw [List.foldl_cons]
      exact ih ((hacc.mul hsign hzero).add (nonNegative_ofInt d))
  have hstart : NonNegative (.ofInt _ 0 : Real) := by
    rw [ofInt_zero]
    exact .finite rfl
  have hempty : ¬ds.isEmpty = true := by simpa using hne
  simp only [ofRadix, if_neg hempty, hvalues, hbase]
  exact hfold values hstart

theorem radixLiteral_of_ofRadix {c : Char} {radix : Nat} (h : (c, radix) ∈ radixMarks)
    {ds : List Char} (hne : ofRadix radix ds ≠ .nan) : RadixLiteral ('0' :: c :: ds) := by
  rw [ofRadix] at hne
  split at hne
  · exact absurd rfl hne
  rename_i hempty
  cases hvalues : ds.mapM (digit? radix) with
  | none =>
    simp only [hvalues] at hne
    exact absurd rfl hne
  | some values =>
    refine .intro h (by simpa using hempty) ((mapM_digit?_isSome_iff radix ds).mp ?_)
    rw [hvalues]
    rfl

/-! The word for an infinity. -/

def infinityWord (s : Sign) : List Char := s.chars ++ "Infinity".toList

theorem exists_of_infinity? {cs rest : List Char} {negative : Bool}
    (h : infinity? cs = some (negative, rest)) :
    ∃ s : Sign, negative = decide (s = .minus) ∧ cs = infinityWord s ++ rest := by
  rw [infinity?] at h
  cases hs : sign cs with
  | mk negative' cs' =>
    obtain ⟨s, rfl, rfl⟩ := exists_of_sign hs
    simp only [hs] at h
    split at h
    · rename_i hprefix
      cases h
      obtain ⟨rest, rfl⟩ := List.isPrefixOf_iff_prefix.mp hprefix
      refine ⟨s, rfl, ?_⟩
      rw [infinityWord, List.append_assoc, List.drop_left]
    · cases h

theorem infinity?_append (s : Sign) (rest : List Char) :
    infinity? (infinityWord s ++ rest) = some (decide (s = .minus), rest) := by
  cases s <;> rfl

/-- A literal is no infinity, since a digit or a point stands behind its sign. -/
theorem infinity?_literal (l : DecimalLiteral) (rest : List Char) :
    infinity? (l.chars ++ rest) = none := by
  obtain ⟨c, cs, hc, hhead⟩ := l.exists_head rest
  have hI : c ≠ 'I' := by
    rintro rfl
    obtain hd | hd := hhead <;> cases hd
  have hword : "Infinity".toList.isPrefixOf (c :: cs) = false := by
    simp [List.isPrefixOf, Ne.symm hI]
  rw [DecimalLiteral.chars, List.append_assoc, infinity?, sign_append (l.head_unsigned rest),
    hc]
  simp only [hword, Bool.false_eq_true, if_false]

/-! The two readings. -/

/-- What the whole of a trimmed text is read as. -/
inductive WholeRead (t : List Char) : Real → Prop
  | empty (h : t = []) : WholeRead t (.ofInt _ 0)
  | infinite (s : Sign) (h : t = infinityWord s) : WholeRead t (.infinite (decide (s = .minus)))
  | radix {x : Real} (h : RadixLiteral t) : WholeRead t x
  | decimal (l : DecimalLiteral) (h : t = l.chars) :
      WholeRead t (l.decimal.toExtended Format.double)
  | nan : WholeRead t .nan

theorem wholeRead (cs : List Char) : WholeRead (trim cs) (ofWhole cs) := by
  simp only [ofWhole]
  split
  · exact .empty (List.isEmpty_iff.mp ‹_›)
  split
  · rename_i hinfinity
    obtain ⟨s, rfl, hs⟩ := exists_of_infinity? hinfinity
    exact .infinite s (by rw [hs, List.append_nil])
  split
  · rename_i radix rest hradix
    obtain ⟨c, hc, ht⟩ := radix?_eq_some hradix
    by_cases hnan : ofRadix radix rest = .nan
    · rw [hnan]
      exact .nan
    · exact .radix (ht ▸ radixLiteral_of_ofRadix hc hnan)
  split
  · rename_i hdecimal
    obtain ⟨l, rfl, hl⟩ := DecimalLiteral.exists_of_decimal? hdecimal
    exact .decimal l (by rw [hl, List.append_nil])
  · exact .nan

theorem ofPrefix_of_trim_nil {cs : List Char} (h : trim cs = []) : ofPrefix cs = .nan := by
  rw [ofPrefix, trimStart_of_trim_nil h]
  rfl

theorem ofPrefix_of_infinity {cs : List Char} {s : Sign} (h : trim cs = infinityWord s) :
    ofPrefix cs = .infinite (decide (s = .minus)) := by
  obtain ⟨bl, -, htrim⟩ := exists_blanks cs
  rw [ofPrefix, htrim, h]
  simp only [infinity?_append]

/-- Blanks behind a literal do not go on with it. -/
theorem ofPrefix_of_literal {cs : List Char} {l : DecimalLiteral} (h : trim cs = l.chars) :
    ofPrefix cs = l.decimal.toExtended Format.double := by
  obtain ⟨bl, hbl, htrim⟩ := exists_blanks cs
  rw [ofPrefix, htrim, h]
  simp only [infinity?_literal, l.decimal?_append (endsLiteral_blanks hbl)]

def zeroLiteral : DecimalLiteral where
  sign := .absent
  whole := ['0']
  fraction := none
  exponent := none
  whole_digits := List.forall_mem_singleton.mpr rfl
  fraction_digits := by simp
  some_digit := .inl (by decide)

theorem endsLiteral_mark {c : Char} {radix : Nat} (h : (c, radix) ∈ radixMarks)
    (rest : List Char) : EndsLiteral (c :: rest) := by
  rintro d ⟨⟩
  simp only [radixMarks, List.mem_cons, Prod.mk.injEq, List.not_mem_nil, or_false] at h
  obtain ⟨rfl, -⟩ | ⟨rfl, -⟩ | ⟨rfl, -⟩ | ⟨rfl, -⟩ | ⟨rfl, -⟩ | ⟨rfl, -⟩ := h <;> decide

theorem decimal?_mark {c : Char} {radix : Nat} (h : (c, radix) ∈ radixMarks)
    (rest : List Char) : decimal? ('0' :: c :: rest) = some (zeroLiteral.decimal, c :: rest) :=
  zeroLiteral.decimal?_append (endsLiteral_mark h rest)

theorem ofPrefix_of_mark {cs rest : List Char} {c : Char} {radix : Nat}
    (hc : (c, radix) ∈ radixMarks) (h : trim cs = '0' :: c :: rest) :
    ofPrefix cs = .finite zero := by
  obtain ⟨bl, -, htrim⟩ := exists_blanks cs
  have hinfinity : infinity? ('0' :: c :: (rest ++ bl)) = none :=
    infinity?_literal zeroLiteral (c :: (rest ++ bl))
  rw [ofPrefix, htrim, h, List.cons_append, List.cons_append]
  simp only [hinfinity, decimal?_mark hc]
  decide +kernel

theorem ofWhole_of_radixLiteral {cs : List Char} (h : RadixLiteral (trim cs)) :
    NonNegative (ofWhole cs) := by
  generalize ht : trim cs = t at h
  cases h with
  | @intro c radix ds hc hne hds =>
    have hinfinity : infinity? ('0' :: c :: ds) = none := infinity?_literal zeroLiteral (c :: ds)
    have hempty : ¬('0' :: c :: ds).isEmpty = true := by simp
    simp only [ofWhole, ht, if_neg hempty, hinfinity, radix?_cons hc]
    exact nonNegative_ofRadix hc hne hds

theorem ofWhole_of_literal {cs : List Char} {l : DecimalLiteral} (h : trim cs = l.chars) :
    ofWhole cs = l.decimal.toExtended Format.double := by
  have hends : EndsLiteral [] := by rintro c ⟨⟩
  have hdecimal := l.decimal?_append hends
  have hinfinity := infinity?_literal l []
  rw [List.append_nil] at hdecimal hinfinity
  have hempty : ¬l.chars.isEmpty = true := by
    intro hnil
    rw [List.isEmpty_iff.mp hnil] at hdecimal
    cases hdecimal
  have hradix : radix? l.chars = none := by
    refine Option.eq_none_iff_forall_not_mem.mpr fun x hx => ?_
    obtain ⟨c, hc, ht⟩ := radix?_eq_some (Option.mem_def.mp hx)
    rw [ht, decimal?_mark hc] at hdecimal
    exact List.cons_ne_nil _ _ (Prod.mk.inj (Option.some.inj hdecimal)).2
  simp only [ofWhole, h, if_neg hempty, hinfinity, hradix, hdecimal]

/-! Numeric texts. -/

theorem isNumeric_eq (s : String) : isNumeric s =
    Extended.le (.ofInt _ 0)
      (((ofWhole s.toList).sub (ofPrefix s.toList)).add (.ofInt _ 1)) := rfl

theorem isNumeric_of_nonNegative {s : String}
    (h : NonNegative ((ofWhole s.toList).sub (ofPrefix s.toList))) : isNumeric s = true :=
  (h.add (nonNegative_ofInt 1)).le

theorem isNumeric_of_nan {s : String}
    (h : (ofWhole s.toList).sub (ofPrefix s.toList) = .nan) : isNumeric s = false := by
  rw [isNumeric_eq, h, nan_add, le_nan]

/-- The value of a literal is a double, or both readings are the same infinity. -/
theorem isNumeric_of_literal {s : String} {l : DecimalLiteral} (h : trim s.toList = l.chars) :
    isNumeric s = true ↔ |l.value| < 2 ^ 1024 - 2 ^ 970 := by
  have hwhole := ofWhole_of_literal h
  have hprefix := ofPrefix_of_literal h
  rw [← l.isSome_toBinary_iff]
  rw [Decimal.toExtended] at hwhole hprefix
  cases hx : l.decimal.toBinary Format.double with
  | some x =>
    refine iff_of_true (isNumeric_of_nonNegative ?_) rfl
    simp only [hx] at hwhole hprefix
    rw [hwhole, hprefix]
    exact nonNegative_sub_self x
  | none =>
    refine iff_of_false (Bool.eq_false_iff.mp (isNumeric_of_nan ?_)) (by simp)
    simp only [hx] at hwhole hprefix
    rw [hwhole, hprefix]
    exact sub_infinite_self _

/-- A text is numeric if it is, between blanks, a literal in a radix, of any size, or a decimal
literal whose number has a nearest double. -/
theorem isNumeric_iff (s : String) : isNumeric s = true ↔
    RadixLiteral (trim s.toList) ∨
      ∃ l : DecimalLiteral, trim s.toList = l.chars ∧ |l.value| < 2 ^ 1024 - 2 ^ 970 := by
  constructor
  · intro h
    have hsub : (ofWhole s.toList).sub (ofPrefix s.toList) ≠ .nan := by
      intro hnan
      rw [isNumeric_of_nan hnan] at h
      cases h
    generalize hw : ofWhole s.toList = w at hsub
    cases hw ▸ wholeRead s.toList with
    | empty ht =>
      rw [ofPrefix_of_trim_nil ht, sub_nan] at hsub
      exact absurd rfl hsub
    | infinite sign ht =>
      rw [ofPrefix_of_infinity ht, sub_infinite_self] at hsub
      exact absurd rfl hsub
    | radix hradix => exact .inl hradix
    | decimal l ht => exact .inr ⟨l, ht, (isNumeric_of_literal ht).mp h⟩
    | nan => exact absurd rfl hsub
  · rintro (hradix | ⟨l, ht, hrange⟩)
    · refine isNumeric_of_nonNegative ?_
      have hwhole := ofWhole_of_radixLiteral hradix
      generalize ht : trim s.toList = t at hradix
      cases hradix with
      | intro hc =>
        rw [ofPrefix_of_mark hc ht]
        exact hwhole.sub_zero
    · exact (isNumeric_of_literal ht).mpr hrange

example : isNumeric " -.5e-400\n" = true ∧ isNumeric "1e309" = false ∧
    isNumeric "1e" = false := by decide +kernel

end SchemaByExample.NumericText
