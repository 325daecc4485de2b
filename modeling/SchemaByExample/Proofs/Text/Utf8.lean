import SchemaByExample.Text.Utf8

/-! Decoding undoes encoding. Characters are read back one at a time, whatever bytes stand
behind them, and so the bytes of a text determine it. -/
namespace SchemaByExample.Utf8

theorem char?_toNat (c : Char) : char? c.val.toNat = some c := by
  have h : c.val.toNat.isValidChar := c.valid
  rw [char?, dif_pos h]
  exact congrArg some (Char.ext (UInt32.toNat_inj.mp rfl))

theorem toNat_ofNat_of_lt {n : Nat} (h : n < 256) : (UInt8.ofNat n).toNat = n := by
  rw [UInt8.toNat_ofNat', Nat.mod_eq_of_lt h]

/-- The bits that a continuation byte carries are read back from it. -/
theorem tail?_ofNat (n : Nat) : tail? (UInt8.ofNat (n % 64 + 0x80)) = some (n % 64) := by
  rw [tail?, toNat_ofNat_of_lt (by omega), if_pos (by omega), Nat.add_sub_cancel]

theorem encodeChar_of_lt {c : Char} (h : c.val.toNat < 0x80) :
    String.utf8EncodeChar c = [UInt8.ofNat c.val.toNat] := by
  simp only [String.utf8EncodeChar, if_pos (Nat.le_of_lt_succ h)]

/-- The bytes of a character beyond the first 128 are all beyond them. -/
theorem le_of_mem_encodeChar {c : Char} {b : UInt8} (h : 0x80 ≤ c.val.toNat)
    (hb : b ∈ String.utf8EncodeChar c) : 0x80 ≤ b.toNat := by
  have h1 : ¬c.val.toNat ≤ 0x7f := by omega
  simp only [String.utf8EncodeChar, if_neg h1] at hb
  split at hb
  · simp only [List.mem_cons, List.not_mem_nil, or_false] at hb
    obtain rfl | rfl := hb <;> rw [toNat_ofNat_of_lt (by omega)] <;> omega
  · split at hb
    · simp only [List.mem_cons, List.not_mem_nil, or_false] at hb
      obtain rfl | rfl | rfl := hb <;> rw [toNat_ofNat_of_lt (by omega)] <;> omega
    · simp only [List.mem_cons, List.not_mem_nil, or_false] at hb
      obtain rfl | rfl | rfl | rfl := hb <;> rw [toNat_ofNat_of_lt (by omega)] <;> omega

theorem decodeChar_encodeChar (c : Char) (rest : List UInt8) :
    decodeChar (String.utf8EncodeChar c ++ rest) = some (c, rest) := by
  have hc := char?_toNat c
  have hmax : c.val.toNat < 0x110000 := by
    have h : c.val.toNat.isValidChar := c.valid
    simp only [Nat.isValidChar] at h
    omega
  simp only [String.utf8EncodeChar]
  generalize c.val.toNat = v at hc hmax ⊢
  by_cases h1 : v ≤ 0x7f
  · have hb := toNat_ofNat_of_lt (n := v) (by omega)
    have ha : v < 0x80 := by omega
    simp only [if_pos h1, List.singleton_append, decodeChar, hb, if_pos ha, hc, Option.map_some]
  by_cases h2 : v ≤ 0x7ff
  · have hb := toNat_ofNat_of_lt (n := v / 64 % 32 + 0xc0) (by omega)
    have hv : (v / 64 % 32 + 0xc0 - 0xC0) * 64 + v % 64 = v := by omega
    simp only [if_neg h1, if_pos h2, List.cons_append, List.nil_append, decodeChar, hb, tail?_ofNat]
    rw [if_neg (by omega), if_pos (by omega)]
    simp only [Option.bind_eq_bind, Option.bind_some, hv, hc, Option.map_some]
  by_cases h3 : v ≤ 0xffff
  · have hb := toNat_ofNat_of_lt (n := v / 4096 % 16 + 0xe0) (by omega)
    have hv : ((v / 4096 % 16 + 0xe0 - 0xE0) * 64 + v / 64 % 64) * 64 + v % 64 = v := by omega
    simp only [if_neg h1, if_neg h2, if_pos h3, List.cons_append, List.nil_append, decodeChar, hb,
      tail?_ofNat]
    rw [if_neg (by omega), if_neg (by omega), if_pos (by omega)]
    simp only [Option.bind_eq_bind, Option.bind_some, hv, hc, Option.map_some]
    rw [if_pos (by omega)]
  · have hb := toNat_ofNat_of_lt (n := v / 262144 % 8 + 0xf0) (by omega)
    have hv : (((v / 262144 % 8 + 0xf0 - 0xF0) * 64 + v / 4096 % 64) * 64 + v / 64 % 64) * 64 +
        v % 64 = v := by omega
    simp only [if_neg h1, if_neg h2, if_neg h3, List.cons_append, List.nil_append, decodeChar, hb,
      tail?_ofNat]
    rw [if_neg (by omega), if_neg (by omega), if_neg (by omega), if_pos (by omega)]
    simp only [Option.bind_eq_bind, Option.bind_some, hv, hc, Option.map_some]
    rw [if_pos (by omega)]

@[simp] theorem encode_nil : encode [] = [] := rfl

@[simp] theorem encode_cons (c : Char) (cs : List Char) :
    encode (c :: cs) = String.utf8EncodeChar c ++ encode cs := List.flatMap_cons

@[simp] theorem encode_append (cs ds : List Char) : encode (cs ++ ds) = encode cs ++ encode ds :=
  List.flatMap_append

theorem decodeAll_encode (cs : List Char) (fuel : Nat) (h : (encode cs).length ≤ fuel) :
    decodeAll fuel (encode cs) = some cs := by
  induction cs generalizing fuel with
  | nil => cases fuel <;> rfl
  | cons c cs ih =>
    have hpos := Char.utf8Size_pos c
    simp only [encode_cons, List.length_append, String.length_utf8EncodeChar] at h
    obtain ⟨fuel, rfl⟩ : ∃ n, fuel = n + 1 := ⟨fuel - 1, by omega⟩
    have hne : String.utf8EncodeChar c ++ encode cs ≠ [] := by
      simp [String.utf8EncodeChar_ne_nil]
    obtain ⟨b, bs, hb⟩ := List.exists_cons_of_ne_nil hne
    rw [encode_cons, hb, decodeAll, ← hb, decodeChar_encodeChar]
    · simp [ih fuel (by omega)]
    · simp

theorem decode_encode (cs : List Char) : decode (encode cs) = some (String.ofList cs) := by
  simp [decode, decodeAll_encode]

theorem decode_ofString (s : String) : decode (ofString s) = some s := by
  rw [ofString, decode_encode, String.ofList_toList]

theorem encode_injective {cs ds : List Char} (h : encode cs = encode ds) : cs = ds := by
  have hc := decodeAll_encode cs _ (Nat.le_refl _)
  rw [h, decodeAll_encode ds _ (Nat.le_refl _)] at hc
  exact (Option.some.inj hc).symm

end SchemaByExample.Utf8
