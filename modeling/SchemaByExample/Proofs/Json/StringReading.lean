import SchemaByExample.Proofs.Json.Grammar
import SchemaByExample.Proofs.Json.Nesting
import SchemaByExample.Proofs.Text.Decoding

/-! Reading string literals. The reader takes exactly the literals of the grammar, each for
its text. The bytes of a literal are put together one by one and decoded at the end, and so a
character is followed through the bytes that stand behind its first one. -/
namespace SchemaByExample.Literal

open Read Json

variable {bytes rest bs : Bytes} {c : Char}

/-! Escapes. -/

theorem hexDigit?_of_hexValue? {n : Nat} (h : hexValue? c = some n) :
    c.val.toNat < 0x80 ∧ hexDigit? (byte c) = some n := by
  have hlt : c.toNat < 0x80 := by
    simp only [hexValue?] at h
    split at h
    · omega
    split at h
    · omega
    split at h
    · omega
    · cases h
  have hb : (byte c).toNat = c.toNat := byte_toNat (Nat.lt_trans hlt (by decide))
  refine ⟨hlt, ?_⟩
  rw [hexDigit?, hb]
  exact h

theorem exists_hexValue {b : UInt8} {n : Nat} (h : hexDigit? b = some n) :
    ∃ c, c.val.toNat < 0x80 ∧ byte c = b ∧ hexValue? c = some n := by
  have hlt : b.toNat < 0x80 := by
    simp only [hexDigit?] at h
    split at h
    · omega
    split at h
    · omega
    split at h
    · omega
    · cases h
  obtain ⟨c, hc, rfl⟩ := exists_char_of_lt hlt
  refine ⟨c, by rw [← hc] at hlt; exact hlt, rfl, ?_⟩
  rw [hexValue?, hc]
  exact h

theorem hexEscape_chars {ds : List Char} {n : Nat} (h : FourHex ds n) (rest : Bytes) :
    hexEscape (Utf8.encode ds ++ rest) = .ok (n, rest) := by
  obtain ⟨ha, hb, hc, hd⟩ := h
  obtain ⟨ha', ha⟩ := hexDigit?_of_hexValue? ha
  obtain ⟨hb', hb⟩ := hexDigit?_of_hexValue? hb
  obtain ⟨hc', hc⟩ := hexDigit?_of_hexValue? hc
  obtain ⟨hd', hd⟩ := hexDigit?_of_hexValue? hd
  simp only [Utf8.encode_cons, encodeChar_ascii ha', encodeChar_ascii hb', encodeChar_ascii hc',
    encodeChar_ascii hd', Utf8.encode_nil, List.cons_append, List.nil_append, hexEscape, ha, hb,
    hc, hd]

theorem exists_fourHex {n : Nat} (h : hexEscape bytes = .ok (n, rest)) :
    ∃ ds, FourHex ds n ∧ bytes = Utf8.encode ds ++ rest := by
  unfold hexEscape at h
  split at h
  · split at h
    · rename_i ha hb hc hd
      cases h
      obtain ⟨a, ha', rfl, hva⟩ := exists_hexValue ha
      obtain ⟨b, hb', rfl, hvb⟩ := exists_hexValue hb
      obtain ⟨c, hc', rfl, hvc⟩ := exists_hexValue hc
      obtain ⟨d, hd', rfl, hvd⟩ := exists_hexValue hd
      refine ⟨_, .mk hva hvb hvc hvd, ?_⟩
      simp only [Utf8.encode_cons, encodeChar_ascii ha', encodeChar_ascii hb',
        encodeChar_ascii hc', encodeChar_ascii hd', Utf8.encode_nil, List.cons_append,
        List.nil_append]
    · cases h
  · cases h

theorem escape_chars {es : List Char} (h : Escape es c) (rest : Bytes) :
    escape (Utf8.encode es ++ rest) = .ok (c, rest) := by
  cases h with
  | letter h =>
    simp only [letterEscapes, List.mem_cons, Prod.mk.injEq, List.not_mem_nil, or_false] at h
    obtain ⟨rfl, rfl⟩ | ⟨rfl, rfl⟩ | ⟨rfl, rfl⟩ | ⟨rfl, rfl⟩ | ⟨rfl, rfl⟩ | ⟨rfl, rfl⟩ |
      ⟨rfl, rfl⟩ | ⟨rfl, rfl⟩ := h <;> rfl
  | code hn hhigh hlow =>
    change unicodeEscape (Utf8.encode _ ++ rest) = _
    simp only [unicodeEscape, hexEscape_chars hn, bind, Except.bind]
    simp only [HighSurrogate, LowSurrogate] at hhigh hlow
    rw [if_neg hlow, if_neg hhigh]
  | @pair ds es' high low hn hm hhigh hlow =>
    have hsecond : Utf8.encode (ds ++ '\\' :: 'u' :: es') ++ rest =
        Utf8.encode ds ++ byte '\\' :: byte 'u' :: (Utf8.encode es' ++ rest) := by
      rw [Utf8.encode_append, List.append_assoc]
      rfl
    change unicodeEscape (Utf8.encode _ ++ rest) = _
    rw [hsecond]
    simp only [unicodeEscape, hexEscape_chars hn, bind, Except.bind]
    simp only [HighSurrogate, LowSurrogate] at hhigh hlow
    rw [if_neg (by rintro ⟨h, -⟩; exact absurd hhigh.2 (by omega)), if_pos hhigh]
    simp only [expectInPair, if_true, hexEscape_chars hm]
    rw [if_pos hlow]
    rfl

theorem exists_unicodeEscape (h : unicodeEscape bytes = .ok (c, rest)) :
    ∃ es, Escape ('u' :: es) c ∧ bytes = Utf8.encode es ++ rest := by
  simp only [unicodeEscape, bind_eq_ok, Prod.exists] at h
  obtain ⟨n, r, hn, h⟩ := h
  obtain ⟨ds, hds, rfl⟩ := exists_fourHex hn
  split at h
  · cases h
  rename_i hlow
  split at h
  · rename_i hhigh
    simp only [bind_eq_ok, Prod.exists] at h
    obtain ⟨_, r1, h1, _, r2, h2, low, r3, h3, h⟩ := h
    obtain rfl := eq_cons_of_expectInPair h1
    obtain rfl := eq_cons_of_expectInPair h2
    obtain ⟨es, hes, rfl⟩ := exists_fourHex h3
    split at h
    · rename_i hlow'
      obtain ⟨rfl, rfl⟩ := Prod.mk.inj (Except.ok.inj h)
      refine ⟨_, .pair hds hes hhigh hlow', ?_⟩
      rw [Utf8.encode_append, List.append_assoc]
      rfl
    · cases h
  · rename_i hhigh
    obtain ⟨rfl, rfl⟩ := Prod.mk.inj (Except.ok.inj h)
    exact ⟨ds, .code hds hhigh hlow, rfl⟩

theorem exists_escape (h : escape bytes = .ok (c, rest)) :
    ∃ es, Escape es c ∧ bytes = Utf8.encode es ++ rest := by
  cases bytes with
  | nil => cases h
  | cons b bytes =>
    simp only [escape] at h
    -- eight escapes of one character, then the one in hexadecimal digits
    iterate 8
      split at h
      · rename_i hb
        cases h
        exact ⟨_, .letter (by simp [letterEscapes]; rfl), by rw [hb]; rfl⟩
    split at h
    · rename_i hb
      obtain ⟨es, hes, rfl⟩ := exists_unicodeEscape h
      exact ⟨_, hes, by rw [hb]; rfl⟩
    · cases h

/-! What stands between the quotes. -/

theorem contentOf_chars {body text : List Char} (h : Content body text) (rest : Bytes) :
    contentOf (Utf8.encode body ++ byte '"' :: rest) = .ok (Utf8.encode text, rest) := by
  induction h with
  | nil => exact contentOf_quote rest
  | plain hc hq hs _ ih =>
    rw [Utf8.encode_cons, Utf8.encode_cons, List.append_assoc]
    exact contentOf_plain (Nat.not_lt.mpr hc) hq hs ih
  | @escape es cs text c hes _ ih =>
    have hbytes : Utf8.encode ('\\' :: (es ++ cs)) ++ byte '"' :: rest =
        byte '\\' :: (Utf8.encode es ++ (Utf8.encode cs ++ byte '"' :: rest)) := by
      rw [encode_ascii_cons (by decide), Utf8.encode_append, List.cons_append, List.append_assoc]
    rw [hbytes, Utf8.encode_cons]
    exact contentOf_escape (escape_chars hes _) ih

theorem string_chars {body text : List Char} (h : Content body text) (rest : Bytes) :
    string (Utf8.encode body ++ byte '"' :: rest) = .ok (String.ofList text, rest) := by
  have hc := contentOf_chars h rest
  rw [contentOf] at hc
  simp only [string, hc, bind, Except.bind, Utf8.decode_encode]

/-- A byte that stands behind the first one of a character stands for itself. -/
theorem content_of_tail {fuel : Nat} {tail : Bytes} (ht : ∀ b ∈ tail, Utf8.isTail b = true)
    (h : content fuel bytes = .ok (tail ++ bs, rest)) :
    ∃ fuel' bytes', fuel' ≤ fuel ∧ bytes = tail ++ bytes' ∧
      content fuel' bytes' = .ok (bs, rest) := by
  induction tail generalizing fuel bytes with
  | nil => exact ⟨fuel, bytes, Nat.le_refl _, rfl, h⟩
  | cons t tail ih =>
    obtain ⟨htail, htails⟩ := List.forall_mem_cons.mp ht
    cases fuel with
    | zero => cases h
    | succ fuel =>
      cases bytes with
      | nil => cases h
      | cons b bytes =>
        rw [content] at h
        split at h
        · cases h
        split at h
        · simp only [bind_eq_ok, Prod.exists] at h
          obtain ⟨c, r, -, bs', r', -, h⟩ := h
          obtain ⟨b', tail', hc, hb', -⟩ := Utf8.encodeChar_eq_cons c
          simp only [Except.ok.injEq, Prod.mk.injEq, Utf8.encode_cons, Utf8.encode_nil,
            List.append_nil, hc, List.cons_append, List.cons.injEq] at h
          rw [← h.1.1, hb'] at htail
          cases htail
        split at h
        · cases h
        · simp only [bind_eq_ok, Prod.exists] at h
          obtain ⟨bs', r', hcontent, h⟩ := h
          simp only [Except.ok.injEq, Prod.mk.injEq, List.cons_append, List.cons.injEq] at h
          obtain ⟨⟨rfl, rfl⟩, rfl⟩ := h
          obtain ⟨fuel', bytes', hle, rfl, hrest⟩ := ih htails hcontent
          exact ⟨fuel', bytes', by omega, rfl, hrest⟩

/-- A character stands for itself if its first byte begins nothing else. -/
theorem plain_of_head {b : UInt8} {tail : Bytes} {c : Char} {body text : List Char}
    (hc : String.utf8EncodeChar c = b :: tail) (hquote : ¬b = byte '"') (hslash : ¬b = byte '\\')
    (hcontrol : ¬b < 0x20) (h : Content body text) : Content (c :: body) (c :: text) := by
  have hhead (hlt : c.val.toNat < 0x80) : b = byte c := by
    rw [encodeChar_ascii hlt] at hc
    exact (List.cons.inj hc).1.symm
  refine .plain (Nat.le_of_not_lt fun hlt => ?_) ?_ ?_ h
  · have hlt' : c.val.toNat < 32 := hlt
    refine hcontrol ?_
    rw [hhead (by omega), UInt8.lt_iff_toNat_lt, byte_toNat (by omega)]
    exact hlt
  · rintro rfl
    exact hquote (hhead (by decide))
  · rintro rfl
    exact hslash (hhead (by decide))

/-- The bytes that stand for a text are the content of a literal for it. -/
theorem exists_content {fuel : Nat} {text : List Char}
    (h : content fuel bytes = .ok (Utf8.encode text, rest)) :
    ∃ body, Content body text ∧ bytes = Utf8.encode body ++ byte '"' :: rest := by
  induction fuel using Nat.strongRecOn generalizing bytes text with
  | ind fuel ih =>
    cases fuel with
    | zero => cases h
    | succ fuel =>
      cases bytes with
      | nil => cases h
      | cons b bytes =>
        rw [content] at h
        split at h
        · rename_i hb
          simp only [Except.ok.injEq, Prod.mk.injEq] at h
          obtain ⟨htext, rfl⟩ := h
          obtain rfl : text = [] := Utf8.encode_injective htext.symm
          exact ⟨[], .nil, by rw [hb]; rfl⟩
        rename_i hquote
        split at h
        · rename_i hb
          simp only [bind_eq_ok, Prod.exists] at h
          obtain ⟨c, r, hescape, bs', r', hcontent, h⟩ := h
          simp only [Except.ok.injEq, Prod.mk.injEq] at h
          obtain ⟨htext, rfl⟩ := h
          -- the encoding of the text begins with the escaped character
          obtain ⟨more, rfl, hmore⟩ := Utf8.exists_append_of_encode htext.symm
          obtain ⟨es, hes, rfl⟩ := exists_escape hescape
          subst hmore
          obtain ⟨body, hbody, rfl⟩ := ih fuel (by omega) hcontent
          refine ⟨'\\' :: (es ++ body), .escape hes hbody, ?_⟩
          rw [hb, encode_ascii_cons (by decide), Utf8.encode_append, List.cons_append,
            List.append_assoc]
        rename_i hslash
        split at h
        · cases h
        rename_i hcontrol
        simp only [bind_eq_ok, Prod.exists] at h
        obtain ⟨bs', r', hcontent, h⟩ := h
        simp only [Except.ok.injEq, Prod.mk.injEq] at h
        obtain ⟨htext, rfl⟩ := h
        cases text with
        | nil => cases htext
        | cons c text =>
          obtain ⟨b', tail, hc, -, htail⟩ := Utf8.encodeChar_eq_cons c
          rw [Utf8.encode_cons, hc, List.cons_append, List.cons.injEq] at htext
          obtain ⟨rfl, rfl⟩ := htext
          obtain ⟨fuel', bytes', hle, rfl, hrest⟩ := content_of_tail htail hcontent
          obtain ⟨body, hbody, rfl⟩ := ih fuel' (by omega) hrest
          refine ⟨c :: body, plain_of_head hc hquote hslash hcontrol hbody, ?_⟩
          rw [Utf8.encode_cons, hc, List.append_assoc]
          rfl

/-- Whatever is read as a string is a literal of the grammar. -/
theorem exists_body {s : String} (h : string bytes = .ok (s, rest)) :
    ∃ body, Content body s.toList ∧ bytes = Utf8.encode body ++ byte '"' :: rest := by
  simp only [string, bind_eq_ok, Prod.exists] at h
  obtain ⟨bs, r, hcontent, h⟩ := h
  split at h
  · rename_i s' hs
    simp only [Except.ok.injEq, Prod.mk.injEq] at h
    obtain ⟨rfl, rfl⟩ := h
    rw [Utf8.decode_eq_some hs] at hcontent
    exact exists_content hcontent
  · cases h

end SchemaByExample.Literal
