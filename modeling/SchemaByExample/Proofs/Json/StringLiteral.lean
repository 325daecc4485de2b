import SchemaByExample.Json.Literal
import SchemaByExample.Proofs.Text.Utf8

/-! String literals. What the printer writes for a text, the reader takes for that text, and
so a literal determines its text and what stands behind it. -/
namespace SchemaByExample.Literal

open Read Json

theorem encodeChar_ascii {c : Char} (h : c.val.toNat < 0x80) :
    String.utf8EncodeChar c = [byte c] := Utf8.encodeChar_of_lt h

theorem encode_ascii_cons {c : Char} (h : c.val.toNat < 0x80) (cs : List Char) :
    Utf8.encode (c :: cs) = byte c :: Utf8.encode cs := by
  rw [Utf8.encode_cons, encodeChar_ascii h]
  rfl

theorem hexEscape_length {bytes rest : Bytes} {n : Nat} (h : hexEscape bytes = .ok (n, rest)) :
    rest.length < bytes.length := by
  unfold hexEscape at h
  split at h
  · split at h
    · cases h
      simp only [List.length_cons]
      omega
    · contradiction
  · contradiction

theorem expectInPair_length {c : Char} {bytes rest : Bytes} {u : Unit}
    (h : expectInPair c bytes = .ok (u, rest)) : rest.length < bytes.length := by
  cases bytes with
  | nil => contradiction
  | cons b bytes =>
    simp only [expectInPair] at h
    split at h
    · cases h
      simp
    · contradiction

/-- A step that succeeds with a given result is followed by the next one. -/
theorem bind_eq_ok {ε α β : Type} {x : Except ε α} {f : α → Except ε β} {b : β} :
    (x >>= f) = .ok b ↔ ∃ a, x = .ok a ∧ f a = .ok b := by
  cases x with
  | error e => simp [bind, Except.bind]
  | ok a => simp [bind, Except.bind]

theorem unicodeEscape_length {bytes rest : Bytes} {c : Char}
    (h : unicodeEscape bytes = .ok (c, rest)) : rest.length < bytes.length := by
  simp only [unicodeEscape, bind_eq_ok, Prod.exists] at h
  obtain ⟨n, r, hr, h⟩ := h
  have hlen := hexEscape_length hr
  split at h
  · cases h
  · split at h
    · simp only [bind_eq_ok, Prod.exists] at h
      obtain ⟨_, r1, h1, _, r2, h2, low, r3, h3, h⟩ := h
      have := expectInPair_length h1
      have := expectInPair_length h2
      have := hexEscape_length h3
      split at h
      · simp only [Except.ok.injEq, Prod.mk.injEq] at h
        rw [← h.2]
        omega
      · cases h
    · cases h
      exact hlen

theorem escape_length {bytes rest : Bytes} {c : Char} (h : escape bytes = .ok (c, rest)) :
    rest.length < bytes.length := by
  cases bytes with
  | nil => cases h
  | cons b bytes =>
    simp only [escape] at h
    -- eight escapes of one character, then the one in hexadecimal digits
    iterate 8
      split at h
      · cases h
        simp
    split at h
    · have := unicodeEscape_length h
      simp only [List.length_cons]
      omega
    · cases h

/-- Fuel beyond the number of bytes changes nothing. -/
theorem content_congr {m n : Nat} {bytes : Bytes} (hm : bytes.length < m)
    (hn : bytes.length < n) : content m bytes = content n bytes := by
  induction m generalizing n bytes with
  | zero => omega
  | succ m ih =>
    obtain ⟨n, rfl⟩ : ∃ k, n = k + 1 := ⟨n - 1, by omega⟩
    cases bytes with
    | nil => rfl
    | cons b bytes =>
      simp only [List.length_cons] at hm hn
      have hrest : content m bytes = content n bytes := ih (by omega) (by omega)
      simp only [content, hrest]
      congr 2
      cases h : escape bytes with
      | error f => rfl
      | ok p =>
        have : p.2.length < bytes.length := escape_length h
        have hp : content m p.2 = content n p.2 := ih (by omega) (by omega)
        simp only [bind, Except.bind, hp]

def contentOf (bytes : Bytes) : Except Failure (Bytes × Bytes) := content (bytes.length + 1) bytes

theorem contentOf_quote (rest : Bytes) : contentOf (byte '"' :: rest) = .ok ([], rest) := rfl

variable {rest tail bs : Bytes}

theorem contentOf_cons {b : UInt8} (hq : b ≠ byte '"') (hs : b ≠ byte '\\') (hc : ¬b < 32)
    (h : contentOf rest = .ok (bs, tail)) : contentOf (b :: rest) = .ok (b :: bs, tail) := by
  simp only [contentOf] at h
  simp only [contentOf, List.length_cons, content, if_neg hq, if_neg hs, if_neg hc, h, bind,
    Except.bind]

theorem contentOf_append {front : Bytes} (hf : ∀ b ∈ front, 0x80 ≤ b.toNat)
    (h : contentOf rest = .ok (bs, tail)) :
    contentOf (front ++ rest) = .ok (front ++ bs, tail) := by
  induction front with
  | nil => exact h
  | cons b front ih =>
    have hb : 0x80 ≤ b.toNat := hf b (by simp)
    have hq : b ≠ byte '"' := by
      rintro rfl
      exact absurd hb (by decide)
    have hs : b ≠ byte '\\' := by
      rintro rfl
      exact absurd hb (by decide)
    have hc : ¬b < 32 := by
      rw [UInt8.lt_iff_toNat_lt]
      simp only [UInt8.reduceToNat]
      omega
    exact contentOf_cons hq hs hc (ih fun b' h' => hf b' (List.mem_cons_of_mem b h'))

theorem contentOf_escape {bytes : Bytes} {c : Char} (he : escape bytes = .ok (c, rest))
    (h : contentOf rest = .ok (bs, tail)) :
    contentOf (byte '\\' :: bytes) = .ok (String.utf8EncodeChar c ++ bs, tail) := by
  have hlen := escape_length he
  have hrest : content (bytes.length + 1) rest = .ok (bs, tail) := by
    rw [← h, contentOf]
    exact content_congr (by omega) (by omega)
  have hne : byte '\\' ≠ byte '"' := by decide
  simp only [contentOf, List.length_cons, content, if_neg hne, if_true, he, hrest, bind,
    Except.bind, Utf8.encode, List.flatMap_cons, List.flatMap_nil, List.append_nil]

theorem byte_toNat {c : Char} (h : c.val.toNat < 0x100) : (byte c).toNat = c.val.toNat := by
  rw [byte, UInt32.toNat_toUInt8, Nat.mod_eq_of_lt h]

theorem byte_ne {c d : Char} (hc : c.val.toNat < 0x100) (hd : d.val.toNat < 0x100) (h : c ≠ d) :
    byte c ≠ byte d := by
  intro he
  have hn := congrArg UInt8.toNat he
  rw [byte_toNat hc, byte_toNat hd] at hn
  exact h (Char.ext (UInt32.toNat_inj.mp hn))

theorem exists_char_of_lt {b : UInt8} (h : b.toNat < 0x80) :
    ∃ c : Char, c.toNat = b.toNat ∧ byte c = b := by
  have hc : (Char.ofNat b.toNat).toNat = b.toNat := by
    rw [Char.ofNat, dif_pos (Or.inl (by omega))]
    rfl
  refine ⟨_, hc, UInt8.toNat_inj.mp ?_⟩
  have hlt : (Char.ofNat b.toNat).val.toNat < 0x100 := by
    rw [Char.toNat_val, hc]
    omega
  rw [byte_toNat hlt]
  exact hc

theorem hexDigit?_digitChar : ∀ d < 16, hexDigit? (byte (Nat.digitChar d)) = some d := by decide

theorem encode_digitChar : ∀ d < 16,
    String.utf8EncodeChar (Nat.digitChar d) = [byte (Nat.digitChar d)] := by decide

theorem escape_control {c : Char} (h : c.toNat < 32) (rest : Bytes) :
    escape (Utf8.encode ('u' :: '0' :: '0' :: hexPair c.toNat) ++ rest) = .ok (c, rest) := by
  have hhi : c.toNat / 16 < 16 := by omega
  have hlo : c.toNat % 16 < 16 := by omega
  have hb : Utf8.encode ('u' :: '0' :: '0' :: hexPair c.toNat) ++ rest =
      byte 'u' :: byte '0' :: byte '0' :: byte (Nat.digitChar (c.toNat / 16)) ::
        byte (Nat.digitChar (c.toNat % 16)) :: rest := by
    simp only [hexPair, Utf8.encode_cons, Utf8.encode_nil, encode_digitChar _ hhi,
      encode_digitChar _ hlo]
    rfl
  have hx : hexEscape (byte '0' :: byte '0' :: byte (Nat.digitChar (c.toNat / 16)) ::
      byte (Nat.digitChar (c.toNat % 16)) :: rest) = .ok (c.toNat, rest) := by
    have h0 : hexDigit? (byte '0') = some 0 := by decide
    have hn : Number.ofDigits 16 [0, 0, c.toNat / 16, c.toNat % 16] = c.toNat := by
      simp only [Number.ofDigits, List.foldl_cons, List.foldl_nil]
      omega
    simp only [hexEscape, h0, hexDigit?_digitChar _ hhi, hexDigit?_digitChar _ hlo, hn]
  rw [hb]
  change unicodeEscape _ = _
  simp only [unicodeEscape, hx, bind, Except.bind]
  rw [if_neg (by omega), if_neg (by omega), Char.ofNat_toNat]

/-- A character that stands for itself. -/
theorem contentOf_plain {c : Char} (hc : ¬c.toNat < 32) (hq : c ≠ '"') (hs : c ≠ '\\')
    (h : contentOf rest = .ok (bs, tail)) :
    contentOf (String.utf8EncodeChar c ++ rest) = .ok (String.utf8EncodeChar c ++ bs, tail) := by
  by_cases ha : c.val.toNat < 0x80
  · rw [encodeChar_ascii ha]
    have hc' : ¬byte c < 32 := by
      rw [UInt8.lt_iff_toNat_lt, byte_toNat (by omega)]
      exact hc
    exact contentOf_cons (byte_ne (by omega) (by decide) hq) (byte_ne (by omega) (by decide) hs)
      hc' h
  · exact contentOf_append (fun b hb => Utf8.le_of_mem_encodeChar (by omega) hb) h

/-- What is printed for a character is read as that character. -/
theorem contentOf_escapeChar (c : Char) (h : contentOf rest = .ok (bs, tail)) :
    contentOf (Utf8.encode (escapeChar c) ++ rest) =
      .ok (String.utf8EncodeChar c ++ bs, tail) := by
  rw [escapeChar]
  -- the seven characters that are escaped by a letter or by themselves
  iterate 7
    split
    · subst c
      exact contentOf_escape rfl h
  split
  · rename_i hc
    exact contentOf_escape (escape_control hc rest) h
  · rename_i hq hs _ _ _ _ _ hc
    have hone : Utf8.encode [c] = String.utf8EncodeChar c := by simp
    rw [hone]
    exact contentOf_plain hc hq hs h

theorem contentOf_escaped (cs : List Char) (rest : Bytes) :
    contentOf (Utf8.encode (cs.flatMap escapeChar) ++ byte '"' :: rest) =
      .ok (Utf8.encode cs, rest) := by
  induction cs with
  | nil => exact contentOf_quote rest
  | cons c cs ih =>
    rw [List.flatMap_cons, Utf8.encode_append, List.append_assoc]
    exact contentOf_escapeChar c ih

theorem encode_quote (s : String) :
    Utf8.encode (quote s) =
      byte '"' :: (Utf8.encode (s.toList.flatMap escapeChar) ++ [byte '"']) := by
  rw [quote, List.cons_append, Utf8.encode_cons, Utf8.encode_append]
  rfl

/-- A printed literal is read as its text, behind the opening quote. -/
theorem string_quote (s : String) (rest : Bytes) :
    string ((Utf8.encode (quote s) ++ rest).drop 1) = .ok (s, rest) := by
  have hc := contentOf_escaped s.toList rest
  rw [contentOf] at hc
  simp only [encode_quote, List.cons_append, List.drop_succ_cons, List.drop_zero,
    List.append_assoc, List.nil_append, string, hc, bind, Except.bind]
  rw [Utf8.decode_encode, String.ofList_toList]

/-- A printed literal at the front determines its text and what stands behind it. -/
theorem quote_append_inj {s t : String} {as bs : List Char}
    (h : quote s ++ as = quote t ++ bs) : s = t ∧ as = bs := by
  have hb := congrArg (fun cs => string ((Utf8.encode cs).drop 1)) h
  simp only [Utf8.encode_append, string_quote, Except.ok.injEq, Prod.mk.injEq] at hb
  exact ⟨hb.1, Utf8.encode_injective hb.2⟩

end SchemaByExample.Literal
