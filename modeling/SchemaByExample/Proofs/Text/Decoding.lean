import SchemaByExample.Proofs.Text.Utf8

/-! Whatever is decoded is an encoding. The bytes of a character are told by the first one,
and those behind it are of a kind that no character begins with. -/
namespace SchemaByExample.Utf8

def isTail (b : UInt8) : Bool := 0x80 ≤ b.toNat && b.toNat < 0xC0

theorem toNat_of_char? {n : Nat} {c : Char} (h : char? n = some c) : c.val.toNat = n := by
  rw [char?] at h
  by_cases hn : n.isValidChar
  · rw [dif_pos hn] at h
    obtain rfl := Option.some.inj h
    rfl
  · rw [dif_neg hn] at h
    cases h

theorem toNat_of_tail? {b : UInt8} {n : Nat} (h : tail? b = some n) :
    n < 64 ∧ b.toNat = n + 0x80 := by
  rw [tail?] at h
  split at h
  · obtain rfl := Option.some.inj h
    omega
  · cases h

theorem eq_ofNat {b : UInt8} {n : Nat} (h : b.toNat = n) : b = UInt8.ofNat n := by
  rw [← h, UInt8.ofNat_toNat]

section Widths

variable {a b d e : UInt8} {m k j : Nat} {c : Char}

theorem encodeChar_two (ha : 0xC2 ≤ a.toNat ∧ a.toNat < 0xE0) (hm : tail? b = some m)
    (hc : char? ((a.toNat - 0xC0) * 64 + m) = some c) : String.utf8EncodeChar c = [a, b] := by
  have hv := toNat_of_char? hc
  obtain ⟨hm64, hb⟩ := toNat_of_tail? hm
  have ha' : a.toNat = c.val.toNat / 64 % 32 + 0xc0 := by omega
  have hb' : b.toNat = c.val.toNat % 64 + 0x80 := by omega
  simp only [String.utf8EncodeChar]
  rw [if_neg (by omega), if_pos (by omega), eq_ofNat ha', eq_ofNat hb']

theorem encodeChar_three (ha : 0xE0 ≤ a.toNat ∧ a.toNat < 0xF0) (hm : tail? b = some m)
    (hk : tail? d = some k) (hle : 0x800 ≤ ((a.toNat - 0xE0) * 64 + m) * 64 + k)
    (hc : char? (((a.toNat - 0xE0) * 64 + m) * 64 + k) = some c) :
    String.utf8EncodeChar c = [a, b, d] := by
  have hv := toNat_of_char? hc
  obtain ⟨hm64, hb⟩ := toNat_of_tail? hm
  obtain ⟨hk64, hd⟩ := toNat_of_tail? hk
  have ha' : a.toNat = c.val.toNat / 4096 % 16 + 0xe0 := by omega
  have hb' : b.toNat = c.val.toNat / 64 % 64 + 0x80 := by omega
  have hd' : d.toNat = c.val.toNat % 64 + 0x80 := by omega
  simp only [String.utf8EncodeChar]
  rw [if_neg (by omega), if_neg (by omega), if_pos (by omega), eq_ofNat ha', eq_ofNat hb',
    eq_ofNat hd']

theorem encodeChar_four (ha : 0xF0 ≤ a.toNat ∧ a.toNat < 0xF5) (hm : tail? b = some m)
    (hk : tail? d = some k) (hj : tail? e = some j)
    (hle : 0x10000 ≤ (((a.toNat - 0xF0) * 64 + m) * 64 + k) * 64 + j)
    (hc : char? ((((a.toNat - 0xF0) * 64 + m) * 64 + k) * 64 + j) = some c) :
    String.utf8EncodeChar c = [a, b, d, e] := by
  have hv := toNat_of_char? hc
  obtain ⟨hm64, hb⟩ := toNat_of_tail? hm
  obtain ⟨hk64, hd⟩ := toNat_of_tail? hk
  obtain ⟨hj64, he⟩ := toNat_of_tail? hj
  have ha' : a.toNat = c.val.toNat / 262144 % 8 + 0xf0 := by omega
  have hb' : b.toNat = c.val.toNat / 4096 % 64 + 0x80 := by omega
  have hd' : d.toNat = c.val.toNat / 64 % 64 + 0x80 := by omega
  have he' : e.toNat = c.val.toNat % 64 + 0x80 := by omega
  simp only [String.utf8EncodeChar]
  rw [if_neg (by omega), if_neg (by omega), if_neg (by omega), eq_ofNat ha', eq_ofNat hb',
    eq_ofNat hd', eq_ofNat he']

end Widths

theorem decodeChar_eq_some {bytes rest : List UInt8} {c : Char}
    (h : decodeChar bytes = some (c, rest)) : bytes = String.utf8EncodeChar c ++ rest := by
  unfold decodeChar at h
  split at h
  · cases h
  rename_i a tail
  dsimp only at h
  split at h
  · simp only [Option.map_eq_some_iff, Prod.mk.injEq] at h
    obtain ⟨c, hc, rfl, rfl⟩ := h
    have hv := toNat_of_char? hc
    rw [encodeChar_of_lt (by omega), hv, UInt8.ofNat_toNat]
    rfl
  split at h
  · rename_i ha
    split at h
    · simp only [Option.bind_eq_bind, Option.bind_eq_some_iff, Option.map_eq_some_iff,
        Prod.mk.injEq] at h
      obtain ⟨m, hm, c, hc, rfl, rfl⟩ := h
      rw [encodeChar_two ha hm hc]
      rfl
    · cases h
  split at h
  · rename_i ha
    split at h
    · simp only [Option.bind_eq_bind, Option.bind_eq_some_iff] at h
      obtain ⟨m, hm, k, hk, h⟩ := h
      split at h
      · rename_i hle
        simp only [Option.map_eq_some_iff, Prod.mk.injEq] at h
        obtain ⟨c, hc, rfl, rfl⟩ := h
        rw [encodeChar_three ha hm hk hle hc]
        rfl
      · cases h
    · cases h
  split at h
  · rename_i ha
    split at h
    · simp only [Option.bind_eq_bind, Option.bind_eq_some_iff] at h
      obtain ⟨m, hm, k, hk, j, hj, h⟩ := h
      split at h
      · rename_i hle
        simp only [Option.map_eq_some_iff, Prod.mk.injEq] at h
        obtain ⟨c, hc, rfl, rfl⟩ := h
        rw [encodeChar_four ha hm hk hj hle hc]
        rfl
      · cases h
    · cases h
  · cases h

theorem decodeAll_eq_some {fuel : Nat} {bytes : List UInt8} {cs : List Char}
    (h : decodeAll fuel bytes = some cs) : bytes = encode cs := by
  induction fuel generalizing bytes cs with
  | zero =>
    cases bytes with
    | nil => cases h; rfl
    | cons b bytes => cases h
  | succ fuel ih =>
    cases bytes with
    | nil => cases h; rfl
    | cons b bytes =>
      simp only [decodeAll, Option.bind_eq_bind, Option.bind_eq_some_iff, Prod.exists] at h
      obtain ⟨c, rest, hc, ds, hds, h⟩ := h
      obtain rfl := Option.some.inj h
      rw [decodeChar_eq_some hc, ih hds, encode_cons]

theorem decode_eq_some {bytes : List UInt8} {s : String} (h : decode bytes = some s) :
    bytes = ofString s := by
  obtain ⟨cs, hcs, rfl⟩ := Option.map_eq_some_iff.mp h
  rw [ofString, String.toList_ofList]
  exact decodeAll_eq_some hcs

/-- The first byte of a character is none that stands behind one, and the others all are. -/
theorem encodeChar_eq_cons (c : Char) : ∃ b tail, String.utf8EncodeChar c = b :: tail ∧
    isTail b = false ∧ ∀ t ∈ tail, isTail t = true := by
  have htails (ns : List Nat) :
      ∀ t ∈ ns.map fun n => UInt8.ofNat (n % 64 + 0x80), isTail t = true := by
    refine List.forall_mem_map.mpr fun n _ => ?_
    simp only [isTail, Bool.and_eq_true, decide_eq_true_eq]
    rw [toNat_ofNat_of_lt (by omega)]
    omega
  have hhead {n : Nat} (h : n < 0x80 ∨ 0xC0 ≤ n) (hn : n < 256) :
      isTail (UInt8.ofNat n) = false := by
    simp only [isTail, Bool.and_eq_false_iff, decide_eq_false_iff_not]
    rw [toNat_ofNat_of_lt hn]
    omega
  simp only [String.utf8EncodeChar]
  split
  · exact ⟨_, [], rfl, hhead (by omega) (by omega), by simp⟩
  split
  · exact ⟨_, _, rfl, hhead (by omega) (by omega), htails [c.val.toNat]⟩
  split
  · exact ⟨_, _, rfl, hhead (by omega) (by omega), htails [c.val.toNat / 64, c.val.toNat]⟩
  · exact ⟨_, _, rfl, hhead (by omega) (by omega),
      htails [c.val.toNat / 4096, c.val.toNat / 64, c.val.toNat]⟩

/-- A text at the front of another is told by its bytes. -/
theorem exists_append_of_encode {cs ds : List Char} {rest : List UInt8}
    (h : encode cs = encode ds ++ rest) : ∃ es, cs = ds ++ es ∧ rest = encode es := by
  induction ds generalizing cs with
  | nil => exact ⟨cs, rfl, h.symm⟩
  | cons d ds ih =>
    cases cs with
    | nil =>
      have hne : String.utf8EncodeChar d ≠ [] := String.utf8EncodeChar_ne_nil
      simp [hne] at h
    | cons c cs =>
      rw [encode_cons, encode_cons, List.append_assoc] at h
      have hd := congrArg decodeChar h
      rw [decodeChar_encodeChar, decodeChar_encodeChar] at hd
      obtain ⟨rfl, hrest⟩ := Prod.mk.inj (Option.some.inj hd)
      obtain ⟨es, rfl, hes⟩ := ih hrest
      exact ⟨es, rfl, hes⟩

end SchemaByExample.Utf8
