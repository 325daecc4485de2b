import SchemaByExample.Proofs.Json.Soundness

/-! Texts do not fail for their encoding. A reader checks the bytes of a string literal once it
is read; where the bytes are those of a text the check succeeds, and so a reader that leaves it
out gives the same answers, errors included. -/
namespace SchemaByExample.Read

open Json Literal

variable {α β : Type} {bytes rest : Bytes}

def Clean (x : Except Failure α) : Prop := ∀ f, x = .error f → f.cause ≠ .invalidCodePoint

namespace Clean

variable {x : Except Failure α} {cause : Cause}

theorem ok (a : α) : Clean (.ok a) := nofun

theorem fail (h : cause ≠ .invalidCodePoint) (rest : Bytes) :
    Clean (Read.fail cause rest : Except Failure α) := by
  rintro f hf
  cases hf
  exact h

theorem failPast (h : cause ≠ .invalidCodePoint) (rest : Bytes) :
    Clean (Read.failPast cause rest : Except Failure α) := by
  rintro f hf
  cases hf
  exact h

theorem bind {g : α → Except Failure β} (h : Clean x) (hg : ∀ a, x = .ok a → Clean (g a)) :
    Clean (x >>= g) := by
  cases x with
  | error f =>
    rintro f' hf
    cases hf
    exact h f rfl
  | ok a => exact hg a rfl

theorem inside (segment : Segment) (h : Clean x) : Clean (Read.inside segment x) := by
  cases x with
  | error f =>
    rintro f' hf
    cases hf
    exact h f rfl
  | ok a => exact .ok a

end Clean

/-! Everything but string literals. -/

theorem clean_ident (cs : List Char) (bytes : Bytes) : Clean (ident cs bytes) := by
  induction cs generalizing bytes with
  | nil => exact .ok _
  | cons c cs ih =>
    cases bytes with
    | nil => exact .fail (by simp) _
    | cons b bytes =>
      rw [ident]
      split
      · exact ih bytes
      · exact .fail (by simp) _

theorem clean_scaled (m : Mantissa) (e : Int) (bytes : Bytes) : Clean (m.scaled e bytes) := by
  rw [Mantissa.scaled]
  split
  · exact .ok _
  · exact .fail (by simp) _

theorem clean_exponent (m : Mantissa) (bytes : Bytes) : Clean (exponent m bytes) := by
  rw [exponent_eq]
  unfold unsignedExponent
  split
  · exact .fail (by simp) _
  · split
    · dsimp only
      split
      · exact .fail (by simp) _
      · exact clean_scaled _ _ _
    · exact .fail (by simp) _

theorem clean_afterDigits (m : Mantissa) (bytes : Bytes) : Clean (afterDigits m bytes) := by
  unfold afterDigits
  split
  · split
    · exact clean_exponent _ _
    · exact clean_scaled _ _ _
  · exact clean_scaled _ _ _

theorem clean_integer (m : Mantissa) (bytes : Bytes) : Clean (integer m bytes) := by
  unfold integer
  dsimp only
  split
  · split
    · exact .ok _
    · exact clean_scaled _ _ _
  · exact clean_scaled _ _ _

theorem clean_afterWhole (m : Mantissa) (bytes : Bytes) : Clean (afterWhole m bytes) := by
  unfold afterWhole
  split
  · exact clean_integer _ _
  · split
    · split
      · exact .fail (by simp) _
      · exact .failPast (by simp) _
      · exact clean_afterDigits _ _
    · split
      · exact clean_exponent _ _
      · exact clean_integer _ _

theorem clean_number (negative : Bool) (bytes : Bytes) : Clean (Literal.number negative bytes) := by
  unfold Literal.number
  split
  · exact .fail (by simp) _
  · split
    · split
      · split
        · exact .failPast (by simp) _
        · exact clean_afterWhole _ _
      · exact clean_afterWhole _ _
    · split
      · exact clean_afterWhole _ _
      · exact .fail (by simp) _

theorem clean_nextItem (first : Bool) (bytes : Bytes) : Clean (nextItem first bytes) := by
  unfold nextItem
  split
  · exact .fail (by simp) _
  · split
    · exact .ok _
    split
    · exact .ok _
    split
    · split
      · exact .fail (by simp) _
      · split
        · exact .failPast (by simp) _
        · exact .ok _
    · exact .failPast (by simp) _

theorem clean_nextMember (first : Bool) (bytes : Bytes) : Clean (nextMember first bytes) := by
  unfold nextMember
  split
  · exact .fail (by simp) _
  · split
    · exact .ok _
    split
    · split
      · exact .ok _
      · exact .failPast (by simp) _
    split
    · split
      · exact .fail (by simp) _
      · split
        · exact .ok _
        split
        · exact .failPast (by simp) _
        · exact .failPast (by simp) _
    · exact .failPast (by simp) _

theorem clean_colon (bytes : Bytes) : Clean (colon bytes) := by
  unfold colon
  split
  · exact .fail (by simp) _
  · split
    · exact .ok _
    · exact .failPast (by simp) _

theorem clean_endArray (bytes : Bytes) : Clean (endArray bytes) := by
  unfold endArray
  split
  · exact .fail (by simp) _
  · split
    · exact .ok _
    split
    · split
      · exact .fail (by simp) _
      · split
        · exact .failPast (by simp) _
        · exact .failPast (by simp) _
    · exact .failPast (by simp) _

/-! String literals. -/

theorem clean_hexEscape (bytes : Bytes) : Clean (hexEscape bytes) := by
  unfold hexEscape
  split
  · split
    · exact .ok _
    · exact .fail (by simp) _
  · exact .fail (by simp) _

theorem clean_expectInPair (c : Char) (bytes : Bytes) : Clean (expectInPair c bytes) := by
  unfold expectInPair
  split
  · exact .fail (by simp) _
  · split
    · exact .ok _
    · exact .fail (by simp) _

theorem clean_unicodeEscape (bytes : Bytes) : Clean (unicodeEscape bytes) := by
  refine (clean_hexEscape bytes).bind fun p _ => ?_
  dsimp only
  split
  · exact .fail (by simp) _
  split
  · refine (clean_expectInPair _ _).bind fun _ _ => ?_
    refine (clean_expectInPair _ _).bind fun _ _ => ?_
    refine (clean_hexEscape _).bind fun _ _ => ?_
    split
    · exact .ok _
    · exact .fail (by simp) _
  · exact .ok _

theorem clean_escape (bytes : Bytes) : Clean (escape bytes) := by
  unfold escape
  split
  · exact .fail (by simp) _
  · -- eight escapes of one character, then the one in hexadecimal digits
    iterate 8
      split
      · exact .ok _
    split
    · exact clean_unicodeEscape _
    · exact .fail (by simp) _

theorem clean_content (fuel : Nat) (bytes : Bytes) : Clean (content fuel bytes) := by
  induction fuel generalizing bytes with
  | zero => exact .fail (by simp) _
  | succ fuel ih =>
    cases bytes with
    | nil => exact .fail (by simp) _
    | cons b bytes =>
      rw [content]
      split
      · exact .ok _
      split
      · exact (clean_escape _).bind fun _ _ => (ih _).bind fun _ _ => .ok _
      split
      · exact .fail (by simp) _
      · exact (ih _).bind fun _ _ => .ok _

def IsText (bytes : Bytes) : Prop := ∃ cs, bytes = Utf8.encode cs

theorem IsText.encode (cs : List Char) : IsText (Utf8.encode cs) := ⟨cs, rfl⟩

theorem IsText.behind {cs : List Char} (h : IsText (Utf8.encode cs ++ rest)) : IsText rest := by
  obtain ⟨ds, hds⟩ := h
  obtain ⟨es, -, rfl⟩ := Utf8.exists_append_of_encode hds.symm
  exact .encode es

/-- Bytes beyond the first 128 stand for themselves. -/
theorem content_of_high {fuel : Nat} {front bs : Bytes} (hf : ∀ b ∈ front, 0x80 ≤ b.toNat)
    (h : content fuel (front ++ bytes) = .ok (bs, rest)) :
    ∃ fuel' bs', fuel = fuel' + front.length ∧ bs = front ++ bs' ∧
      content fuel' bytes = .ok (bs', rest) := by
  induction front generalizing fuel bs with
  | nil => exact ⟨fuel, bs, rfl, rfl, h⟩
  | cons b front ih =>
    obtain ⟨hb, hfront⟩ := List.forall_mem_cons.mp hf
    have hne {c : UInt8} (hc : c.toNat < 0x80) : b ≠ c := by
      rintro rfl
      omega
    have hcontrol : ¬b < 32 := by
      rw [UInt8.lt_iff_toNat_lt]
      simp only [UInt8.reduceToNat]
      omega
    cases fuel with
    | zero => cases h
    | succ fuel =>
      rw [List.cons_append, content, if_neg (hne (by decide)), if_neg (hne (by decide)),
        if_neg hcontrol] at h
      simp only [bind_eq_ok, Prod.exists] at h
      obtain ⟨bs', r, hcontent, h⟩ := h
      cases h
      obtain ⟨fuel', bs'', rfl, rfl, hrest⟩ := ih hfront hcontent
      exact ⟨fuel', bs'', by rw [List.length_cons, Nat.add_assoc], rfl, hrest⟩

theorem IsText.cons (c : Char) {bs : Bytes} (h : IsText bs) :
    IsText (String.utf8EncodeChar c ++ bs) := by
  obtain ⟨text, rfl⟩ := h
  exact ⟨c :: text, (Utf8.encode_cons c text).symm⟩

/-- The content of a literal in a text is a text. -/
theorem isText_content {fuel : Nat} {bs : Bytes} (ht : IsText bytes)
    (h : content fuel bytes = .ok (bs, rest)) : IsText bs := by
  induction fuel using Nat.strongRecOn generalizing bytes bs with
  | ind fuel ih =>
    obtain ⟨cs, rfl⟩ := ht
    cases fuel with
    | zero => cases h
    | succ fuel =>
      cases cs with
      | nil => cases h
      | cons c cs =>
        by_cases hlt : c.val.toNat < 0x80
        · rw [encode_ascii_cons hlt, content] at h
          split at h
          · cases h
            exact .encode []
          split at h
          · simp only [bind_eq_ok, Prod.exists] at h
            obtain ⟨c', r, hescape, bs', r', hcontent, h⟩ := h
            cases h
            obtain ⟨es, -, hbytes⟩ := exists_escape hescape
            have hr : IsText r := by
              have hall := IsText.encode cs
              rw [hbytes] at hall
              exact hall.behind
            have hbs := IsText.cons c' (ih fuel (by omega) hr hcontent)
            simpa using hbs
          split at h
          · cases h
          · simp only [bind_eq_ok, Prod.exists] at h
            obtain ⟨bs', r', hcontent, h⟩ := h
            cases h
            have hbs := IsText.cons c (ih fuel (by omega) (.encode cs) hcontent)
            rw [encodeChar_ascii hlt] at hbs
            exact hbs
        · have hhigh : ∀ b ∈ String.utf8EncodeChar c, 0x80 ≤ b.toNat :=
            fun b hb => Utf8.le_of_mem_encodeChar (by omega) hb
          rw [Utf8.encode_cons] at h
          obtain ⟨fuel', bs', hfuel, rfl, hcontent⟩ := content_of_high hhigh h
          have hpos := Char.utf8Size_pos c
          rw [String.length_utf8EncodeChar] at hfuel
          exact .cons c (ih fuel' (by omega) (.encode cs) hcontent)

theorem clean_string (ht : IsText bytes) : Clean (string bytes) := by
  refine (clean_content _ _).bind fun p hp => ?_
  obtain ⟨bs, r⟩ := p
  obtain ⟨text, rfl⟩ := isText_content ht hp
  simp only [Utf8.decode_encode]
  exact .ok _

/-! Values. -/

theorem clean_nextKey (first : Bool) (ht : IsText bytes) : Clean (nextKey first bytes) := by
  refine Clean.inside _ ((clean_nextMember first bytes).bind fun p hp => ?_)
  obtain ⟨more, r⟩ := p
  obtain ⟨rfl, -⟩ | ⟨rfl, front, tail, -, rfl, rfl⟩ := exists_nextMember hp
  · exact .ok _
  · have htail : IsText tail := by
      have hquoted : IsText (Utf8.encode ['"'] ++ tail) := ht.behind
      exact hquoted.behind
    exact (clean_string htail).bind fun _ _ => .ok _

section Containers

variable {budget : Nat} {value : Bytes → Except Failure (Json × Bytes)}
  (hvalue : Recognizes budget value) (hclean : ∀ ⦃bytes⦄, IsText bytes → Clean (value bytes))

include hvalue

theorem isText_value {v : Json} (ht : IsText bytes) (h : value bytes = .ok (v, rest)) :
    IsText rest := by
  obtain ⟨bl, text, n, -, -, -, -, rfl⟩ := hvalue h
  exact ht.behind.behind

include hclean

theorem clean_items (fuel i : Nat) (first : Bool) (ht : IsText bytes) :
    Clean (Read.items value fuel i first bytes) := by
  induction fuel generalizing i first bytes with
  | zero => exact .ok _
  | succ fuel ih =>
    refine (clean_nextItem first bytes).bind fun p hp => ?_
    obtain ⟨more, r⟩ := p
    obtain ⟨rfl, -⟩ | ⟨rfl, front, -, rfl⟩ := exists_separator hp
    · exact .ok _
    · refine ((hclean ht.behind).inside _).bind fun p hp => ?_
      obtain ⟨v, r'⟩ := p
      have hr' := isText_value hvalue ht.behind (inside_eq_ok.mp hp)
      exact (ih _ _ hr').bind fun _ _ => .ok _

theorem clean_members (fuel : Nat) (first : Bool) (ht : IsText bytes) :
    Clean (Read.members value fuel first bytes) := by
  induction fuel generalizing first bytes with
  | zero => exact .ok _
  | succ fuel ih =>
    refine (clean_nextKey first ht).bind fun p hp => ?_
    obtain ⟨key, r⟩ := p
    cases key with
    | none => exact .ok _
    | some k =>
      obtain ⟨front, body, -, -, rfl⟩ := exists_nextKey_some hp
      have hr : IsText r := by
        have hquoted : IsText (Utf8.encode ('"' :: (body ++ ['"'])) ++ r) := by
          have h := ht.behind
          rw [encode_ascii_cons (by decide), Utf8.encode_append, List.cons_append,
            List.append_assoc]
          exact h
        exact hquoted.behind
      refine (clean_colon r).bind fun p hp => ?_
      obtain ⟨_, r1⟩ := p
      obtain ⟨bl, -, rfl⟩ := exists_colon hp
      have hr1 : IsText r1 := by
        have hcolon : IsText (Utf8.encode [':'] ++ r1) := hr.behind
        exact hcolon.behind
      refine ((hclean hr1).inside _).bind fun p hp => ?_
      obtain ⟨v, r2⟩ := p
      have hr2 := isText_value hvalue hr1 (inside_eq_ok.mp hp)
      exact (ih _ hr2).bind fun _ _ => .ok _

theorem clean_array (ht : IsText bytes) : Clean (Read.array value bytes) :=
  (clean_items hvalue hclean _ _ _ ht).bind fun _ _ =>
    (clean_endArray _).bind fun _ _ => .ok _

theorem clean_object (ht : IsText bytes) : Clean (Read.object value bytes) :=
  (clean_members hvalue hclean _ _ ht).bind fun _ _ => .ok _

end Containers

theorem clean_read_of_inner {budget : Nat}
    (hinner : ∀ n, budget = n + 1 → ∀ ⦃bytes⦄, IsText bytes → Clean (Json.read n bytes))
    (ht : IsText bytes) : Clean (Json.read budget bytes) := by
  unfold Json.read
  split
  · exact .fail (by simp) _
  rename_i b tail hskip
  obtain ⟨bl, -, rfl⟩ := exists_space hskip
  have htail {c : Char} (hc : c.val.toNat < 0x80) (hb : b = byte c) : IsText tail := by
    have hall : IsText (Utf8.encode [c] ++ tail) := by
      rw [encode_ascii_cons hc, ← hb]
      exact ht.behind
    exact hall.behind
  -- the words null, true and false
  iterate 3
    split
    · exact (clean_ident _ _).bind fun _ _ => .ok _
  -- a number with its sign, and one without
  iterate 2
    split
    · exact (clean_number _ _).bind fun _ _ => .ok _
  split
  · rename_i hb
    exact (clean_string (htail (by decide) hb)).bind fun _ _ => .ok _
  split
  · rename_i hb
    cases budget with
    | zero => exact .failPast (by simp) _
    | succ n =>
      have hread := clean_array (recognizes_read n) (hinner n rfl) (htail (by decide) hb)
      exact hread.bind fun _ _ => .ok _
  split
  · rename_i hb
    cases budget with
    | zero => exact .failPast (by simp) _
    | succ n =>
      have hread := clean_object (recognizes_read n) (hinner n rfl) (htail (by decide) hb)
      exact hread.bind fun _ _ => .ok _
  · exact .failPast (by simp) _

theorem clean_read (budget : Nat) (ht : IsText bytes) : Clean (Json.read budget bytes) := by
  induction budget generalizing bytes with
  | zero => exact clean_read_of_inner (fun n hn => absurd hn (by omega)) ht
  | succ budget ih =>
    refine clean_read_of_inner (fun n hn => ?_) ht
    obtain rfl : budget = n := by omega
    exact fun bytes => ih

/-- A text that is not read is not at fault for its encoding. -/
theorem cause_of_text {text : String} {e : ReadError} (h : Json.ofText text = .error e) :
    e.cause ≠ .invalidCodePoint := by
  have hclean := clean_read maxDepth (IsText.encode text.toList)
  rw [Json.ofText, Json.ofBytes, readWhole] at h
  cases hread : Json.read maxDepth (Utf8.ofString text) with
  | error f =>
    simp only [hread] at h
    cases h
    exact hclean f hread
  | ok p =>
    simp only [hread] at h
    split at h
    · cases h
    · cases h
      simp

end SchemaByExample.Read
