import SchemaByExample.Json.Typed
import SchemaByExample.Proofs.Json.StringLiteral

/-! Integer literals. The decimal digits of a number that a word holds are read as that
number, as far as what stands behind them cannot be part of a number. -/
namespace SchemaByExample.Literal

open Read Number Json

def endsValue : Bytes → Bool
  | [] => true
  | b :: _ => isBlank b || b == byte ',' || b == byte ']' || b == byte '\x7d'

def digitValue (c : Char) : Nat := c.toNat - 48

theorem isDigit_bounds {c : Char} (h : c.isDigit = true) : 48 ≤ c.toNat ∧ c.toNat < 58 := by
  simp only [Char.isDigit, Bool.and_eq_true, decide_eq_true_eq] at h
  exact ⟨h.1, Nat.lt_succ_of_le h.2⟩

theorem isDigit_byte {c : Char} (h : c.isDigit = true) : isDigit (byte c) = true := by
  have hc := isDigit_bounds h
  have hb : (byte c).toNat = c.toNat := byte_toNat (Nat.lt_trans hc.2 (by decide))
  simp [isDigit, hb, hc.1, hc.2]

theorem encode_digits {cs : List Char} (h : ∀ c ∈ cs, c.isDigit = true) :
    Utf8.encode cs = cs.map byte := by
  induction cs with
  | nil => rfl
  | cons c cs ih =>
    obtain ⟨hc, hcs⟩ := List.forall_mem_cons.mp h
    have hlt : c.val.toNat < 0x80 := Nat.lt_trans (isDigit_bounds hc).2 (by decide)
    rw [Utf8.encode_cons, encodeChar_ascii hlt, ih hcs]
    rfl

theorem not_isDigit_of_endsValue {b : UInt8} {rest : Bytes} (h : endsValue (b :: rest) = true) :
    isDigit b = false ∧ b ≠ byte '.' ∧ b ≠ byte 'e' ∧ b ≠ byte 'E' := by
  simp only [endsValue, isBlank, Bool.or_eq_true, beq_iff_eq] at h
  obtain ⟨⟨(((rfl | rfl) | rfl) | rfl) | rfl⟩ | rfl⟩ | rfl := h <;> decide

variable {rest : Bytes}

/-- The digits at the front are read as far as they go. -/
theorem digits_append_of_stop {cs : List Char} (h : ∀ c ∈ cs, c.isDigit = true)
    (hstop : ∀ b ∈ rest.head?, isDigit b = false) :
    digits (cs.map byte ++ rest) = (cs.map digitValue, rest) := by
  have hall : ∀ b ∈ cs.map byte, isDigit b = true := by
    intro b hb
    obtain ⟨c, hc, rfl⟩ := List.mem_map.mp hb
    exact isDigit_byte (h c hc)
  have hrest : rest.takeWhile isDigit = [] ∧ rest.dropWhile isDigit = rest := by
    cases rest with
    | nil => exact ⟨rfl, rfl⟩
    | cons b rest => simp [hstop b rfl]
  have hvalue : ∀ c ∈ cs, (byte c).toNat - 48 = digitValue c := by
    intro c hc
    rw [byte_toNat (Nat.lt_trans (isDigit_bounds (h c hc)).2 (by decide))]
    rfl
  rw [digits, List.takeWhile_append_of_pos hall, List.dropWhile_append_of_pos hall, hrest.1,
    hrest.2, List.append_nil, List.map_map]
  exact congrArg (·, rest) (List.map_congr_left hvalue)

theorem digits_append {cs : List Char} (h : ∀ c ∈ cs, c.isDigit = true)
    (hr : endsValue rest = true) :
    digits (cs.map byte ++ rest) = (cs.map digitValue, rest) := by
  refine digits_append_of_stop h fun b hb => ?_
  cases rest with
  | nil => cases hb
  | cons b' rest =>
    obtain rfl := Option.some.inj hb
    exact (not_isDigit_of_endsValue hr).1

theorem ofDigits_toDigits (n : Nat) :
    ofDigits 10 ((Nat.toDigits 10 n).map digitValue) = n := by
  have h := Nat.ofDigitChars_ten_toDigits (n := n)
  rw [Nat.ofDigitChars_eq_foldl] at h
  rw [ofDigits, List.foldl_map]
  exact h

theorem isDigit_of_mem {n : Nat} {c : Char} (h : c ∈ Nat.toDigits 10 n) : c.isDigit = true :=
  Nat.isDigit_of_mem_toDigits (by decide) (by decide) h

theorem toDigits_head (n : Nat) : ∃ c cs, Nat.toDigits 10 n = c :: cs ∧ c.isDigit = true := by
  obtain ⟨c, cs, hc⟩ := List.exists_cons_of_ne_nil (Nat.toDigits_ne_nil (n := n) (b := 10))
  exact ⟨c, cs, hc, isDigit_of_mem (hc ▸ List.mem_cons_self)⟩

/-- Only the number zero begins with the digit zero. -/
theorem head_toDigits {n : Nat} (h : n ≠ 0) {c : Char} {cs : List Char}
    (hc : Nat.toDigits 10 n = c :: cs) : c ≠ '0' := by
  induction n using Nat.strongRecOn generalizing cs with
  | ind n ih =>
    rw [Nat.toDigits_eq_if (by decide)] at hc
    split at hc
    · rename_i hlt
      obtain ⟨rfl, -⟩ := List.cons.inj hc
      have hdigit : ∀ d < 10, d ≠ 0 → d.digitChar ≠ '0' := by decide
      exact hdigit n hlt h
    · obtain ⟨d, ds, hd, -⟩ := toDigits_head (n / 10)
      rw [hd, List.cons_append] at hc
      obtain ⟨rfl, -⟩ := List.cons.inj hc
      exact ih (n / 10) (by omega) (by omega) hd

theorem le_foldl_digits (ds : List Nat) (n : Nat) : n ≤ ds.foldl (fun n d => 10 * n + d) n := by
  induction ds generalizing n with
  | nil => exact Nat.le_refl n
  | cons d ds ih => exact Nat.le_trans (by omega) (ih (10 * n + d))

/-- All digits of a number that a word holds are taken. -/
theorem append_eq {ds : List Nat} {n : Nat}
    (h : ds.foldl (fun n d => 10 * n + d) n < 0x10000000000000000) :
    Mantissa.append n ds = (ds.foldl (fun n d => 10 * n + d) n, ds.length) := by
  induction ds generalizing n with
  | nil => rfl
  | cons d ds ih =>
    have hle := le_foldl_digits ds (10 * n + d)
    rw [List.foldl_cons] at h
    rw [Mantissa.append, if_pos (Nat.lt_of_le_of_lt hle h), ih h]
    rfl

theorem ofWhole_eq {ds : List Nat} (negative : Bool) (h : ofDigits 10 ds < 0x10000000000000000) :
    Mantissa.ofWhole negative ds = ⟨negative, ofDigits 10 ds, 0⟩ := by
  rw [Mantissa.ofWhole, append_eq h]
  simp [ofDigits]

theorem afterWhole_eq (m : Mantissa) (h : endsValue rest = true) :
    afterWhole m rest = integer m rest := by
  cases rest with
  | nil => rfl
  | cons b rest =>
    obtain ⟨-, hdot, he, hE⟩ := not_isDigit_of_endsValue h
    rw [afterWhole, if_neg hdot, if_neg (by simp [he, hE])]

/-- The digits of a number that a word holds are read as a literal of that number. -/
theorem number_toDigits (negative : Bool) {n : Nat} (hn : n < 0x10000000000000000)
    (hr : endsValue rest = true) :
    number negative (Utf8.encode (Nat.toDigits 10 n) ++ rest) = integer ⟨negative, n, 0⟩ rest := by
  have hdigits : ∀ c ∈ Nat.toDigits 10 n, c.isDigit = true := fun c => isDigit_of_mem
  have hread := digits_append hdigits hr
  have hvalue := ofDigits_toDigits n
  have hwhole := ofWhole_eq negative (hvalue.symm ▸ hn)
  rw [hvalue] at hwhole
  rw [encode_digits hdigits]
  by_cases h0 : n = 0
  · subst h0
    rw [← afterWhole_eq _ hr, ← hwhole]
    cases rest with
    | nil => rfl
    | cons b rest =>
      have hb := (not_isDigit_of_endsValue hr).1
      simp only [Nat.toDigits_zero, List.map_cons, List.map_nil, List.cons_append, List.nil_append,
        number, if_true, hb, Bool.false_eq_true, if_false]
      rfl
  · obtain ⟨c, cs, hc, hcd⟩ := toDigits_head n
    have hhead := head_toDigits h0 hc
    have hne := byte_ne (Nat.lt_trans (isDigit_bounds hcd).2 (by decide)) (by decide) hhead
    rw [hc] at hread hwhole ⊢
    simp only [List.map_cons, List.cons_append] at hread ⊢
    simp only [number, if_neg hne, isDigit_byte hcd, if_true, hread, ← afterWhole_eq _ hr,
      ← hwhole, List.map_cons]

theorem integer_eq {n : Nat} (hn : n < 0x10000000000000000) :
    integer ⟨false, n, 0⟩ rest = .ok (.word ⟨n, by omega, by omega⟩, rest) := by
  have hw := Word.ofInt?_value ⟨n, by omega, by omega⟩
  simp only [integer, Bool.false_eq_true, if_false, false_and, not_false_iff, and_self, if_true, hw]

theorem skipBlanks_cons {b : UInt8} (hb : isBlank b = false) (bytes : Bytes) :
    skipBlanks (b :: bytes) = b :: bytes := by
  rw [skipBlanks, List.dropWhile_cons, hb]
  rfl

theorem not_blank_of_isDigit {b : UInt8} (h : isDigit b = true) :
    isBlank b = false ∧ b ≠ byte '-' := by
  have hb : 48 ≤ b.toNat := by
    simp only [isDigit, Bool.and_eq_true, decide_eq_true_eq] at h
    exact h.1
  have hne {c : UInt8} (hc : c.toNat < 48) : b ≠ c := by
    rintro rfl
    omega
  refine ⟨?_, hne (by decide)⟩
  simp [isBlank, hne (c := 32) (by decide), hne (c := 10) (by decide), hne (c := 9) (by decide),
    hne (c := 13) (by decide)]

theorem natural_toDigits (n : UInt32) (hr : endsValue rest = true) :
    Typed.natural (Utf8.encode (Nat.toDigits 10 n.toNat) ++ rest) = .ok (n, rest) := by
  have hlt := n.toNat_lt
  have hnumber : number false (Utf8.encode (Nat.toDigits 10 n.toNat) ++ rest) =
      .ok (.word ⟨n.toNat, by omega, by omega⟩, rest) := by
    rw [number_toDigits false (by omega) hr, integer_eq (by omega)]
  rw [encode_digits fun c => isDigit_of_mem] at hnumber ⊢
  obtain ⟨c, cs, hc, hcd⟩ := toDigits_head n.toNat
  obtain ⟨hblank, hminus⟩ := not_blank_of_isDigit (isDigit_byte hcd)
  rw [hc, List.map_cons, List.cons_append] at hnumber ⊢
  simp only [Typed.natural, skipBlanks_cons hblank, if_neg hminus, isDigit_byte hcd, if_true,
    hnumber, bind,
    Except.bind, Typed.checkNatural]
  rw [if_pos (by omega)]
  simp

end SchemaByExample.Literal
