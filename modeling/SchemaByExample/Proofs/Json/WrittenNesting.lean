import SchemaByExample.Proofs.Json.Nesting
import SchemaByExample.Proofs.Json.Written

/-! A text of a value nests as many brackets as the value containers. -/
namespace SchemaByExample.Json

open Read Literal

/-! Numbers are written without brackets and quotes. -/

def Numeric (c : Char) : Prop := c.isDigit = true ∨ c ∈ ['-', '+', '.', 'e']

instance (c : Char) : Decidable (Numeric c) := inferInstanceAs (Decidable (_ ∨ _))

theorem numeric_toDigits (n : Nat) : ∀ c ∈ Nat.toDigits 10 n, Numeric c :=
  fun _ hc => .inl (isDigit_of_mem hc)

theorem numeric_zeros (n : Nat) : ∀ c ∈ Number.FloatStyle.zeros n, Numeric c := by
  intro c hc
  rw [List.eq_of_mem_replicate hc]
  exact .inl rfl

theorem mem_of_mem_trimZeros {digits : List Char} {c : Char}
    (h : c ∈ Number.FloatStyle.trimZeros digits) : c ∈ digits := by
  cases digits with
  | nil => exact h
  | cons d ds =>
    obtain rfl | h := List.mem_cons.mp h
    · exact List.mem_cons_self
    · have hmem := (List.dropWhile_sublist _).subset (List.mem_reverse.mp h)
      exact List.mem_cons_of_mem d (List.mem_reverse.mp hmem)

theorem numeric_magnitude (style : Number.FloatStyle) {digits : List Char}
    (h : ∀ c ∈ digits, Numeric c) (e : Int) : ∀ c ∈ style.magnitude digits e, Numeric c := by
  have hzero : Numeric '0' := .inl rfl
  have hmark {c : Char} (hc : c ∈ ['-', '+', '.', 'e']) : Numeric c := .inr hc
  simp only [Number.FloatStyle.magnitude]
  split
  · split
    · simp only [List.forall_mem_append, List.forall_mem_cons]
      exact ⟨⟨hzero, hmark (by simp), numeric_zeros _⟩, h⟩
    · split
      · simp only [List.forall_mem_append, List.forall_mem_cons]
        exact ⟨⟨h, numeric_zeros _⟩, hmark (by simp), hzero, by simp⟩
      · simp only [List.forall_mem_append, List.forall_mem_cons]
        exact ⟨fun c hc => h c (List.mem_of_mem_take hc), hmark (by simp),
          fun c hc => h c (List.mem_of_mem_drop hc)⟩
  · intro c hc
    simp only [List.mem_append, List.mem_cons] at hc
    obtain (hmantissa | rfl | hsign) | hexponent := hc
    · split at hmantissa
      · obtain ⟨hd, hds⟩ := List.forall_mem_cons.mp h
        obtain rfl | hc := List.mem_cons.mp hmantissa
        · exact hd
        · obtain rfl | hc := List.mem_cons.mp hc
          · exact hmark (by simp)
          · exact hds c hc
      · exact h c hmantissa
    · exact hmark (by simp)
    · split at hsign
      · obtain rfl := List.mem_singleton.mp hsign
        exact hmark (by simp)
      · split at hsign
        · obtain rfl := List.mem_singleton.mp hsign
          exact hmark (by simp)
        · cases hsign
    · exact numeric_toDigits _ c hexponent

theorem numeric_numberChars (n : JsonNumber) : ∀ c ∈ numberChars n, Numeric c := by
  cases n with
  | word n =>
    rw [numberChars, intChars]
    split
    · exact List.forall_mem_cons.mpr ⟨.inr (by simp), numeric_toDigits _⟩
    · exact numeric_toDigits _
  | double x =>
    have hbody (e : Int) := numeric_magnitude Number.documentStyle
      (fun c hc => numeric_toDigits x.shortest.digits c (mem_of_mem_trimZeros hc)) e
    rw [numberChars, Number.Binary.text, Number.FloatStyle.text, String.toList_ofList]
    split
    · exact List.forall_mem_cons.mpr ⟨.inr (by simp), hbody _⟩
    · exact hbody _

theorem nests_numeric {cs : List Char} (h : ∀ c ∈ cs, Numeric c) :
    Nests .outside .outside 0 (Utf8.encode cs) := by
  refine nests_of_notMem fun b hb => ?_
  obtain ⟨c, hc, hb⟩ := List.mem_flatMap.mp hb
  obtain hd | hmark := h c hc
  · have hlt : c.val.toNat < 0x80 := Nat.lt_trans (isDigit_bounds hd).2 (by decide)
    rw [encodeChar_ascii hlt, List.mem_singleton] at hb
    rw [hb]
    exact notMem_structural (by decide) (isDigit_byte hd)
  · simp only [List.mem_cons, List.not_mem_nil, or_false] at hmark
    obtain rfl | rfl | rfl | rfl := hmark
    all_goals
      rw [encodeChar_ascii (by decide), List.mem_singleton] at hb
      rw [hb]
      decide

/-! Whatever stands between the tokens does not count. -/

theorem nests_blanks {bl : Bytes} (h : Blanks bl) : Nests .outside .outside 0 bl :=
  nests_of_notMem fun b hb => notMem_structural (by decide) (h b hb)

theorem nests_front {first : Bool} {front : Bytes} (h : Separates first front) :
    Nests .outside .outside 0 front := by
  cases h with
  | first hbl => exact nests_blanks hbl
  | next hbl hbl' =>
    have hcomma : Nests .outside .outside 0 [byte ','] := .singleton (step_outside (by decide))
    simpa using (nests_blanks hbl).append (hcomma.append (nests_blanks hbl'))

theorem nests_word {word : List Char} (h : (Utf8.encode word).all (· ∉ structural) = true) :
    Nests .outside .outside 0 (Utf8.encode word) :=
  nests_of_notMem fun b hb => of_decide_eq_true (List.all_eq_true.mp h b hb)

theorem nests_quote (s : String) : Nests .outside .outside 0 (Utf8.encode (quote s)) := by
  have h := string_quote s []
  rw [List.append_nil] at h
  rw [encode_quote] at h ⊢
  exact (spans_string h).nests

mutual

theorem nests_of_written : (v : Json) → {text : Bytes} → Written v text →
    Nests .outside .outside v.depth text
  | .null, _, .null => nests_word (by decide)
  | .bool _, _, .true => nests_word (by decide)
  | .bool _, _, .false => nests_word (by decide)
  | .number n, _, .number _ => nests_numeric (numeric_numberChars n)
  | .string s, _, .string _ => nests_quote s
  | .array items, _, .array h => by
    obtain ⟨body, rfl, hbody⟩ := nests_of_writtenItems items h
    exact hbody.bracket (.inl rfl) (.inl rfl)
  | .object members, _, .object h => by
    obtain ⟨body, rfl, hbody⟩ := nests_of_writtenMembers members h
    exact hbody.bracket (.inr rfl) (.inr rfl)

theorem nests_of_writtenItems : (items : List Json) → {first : Bool} → {text : Bytes} →
    WrittenItems first items text →
    ∃ body, text = body ++ [byte ']'] ∧ Nests .outside .outside (depthItems items) body
  | [], _, _, .nil hbl => ⟨_, rfl, nests_blanks hbl⟩
  | v :: items, _, _, .cons hs hv hmore => by
    obtain ⟨body, rfl, hbody⟩ := nests_of_writtenItems items hmore
    have h := (nests_front hs).append ((nests_of_written v hv).append hbody)
    simp only [Nat.zero_max] at h
    exact ⟨_, by simp, h⟩

theorem nests_of_writtenMembers : (members : List (String × Json)) → {first : Bool} →
    {text : Bytes} → WrittenMembers first members text →
    ∃ body, text = body ++ [byte '\x7d'] ∧ Nests .outside .outside (depthMembers members) body
  | [], _, _, .nil hbl => ⟨_, rfl, nests_blanks hbl⟩
  | (_, v) :: members, _, _, .cons k hs hbl hbl' hv hmore => by
    obtain ⟨body, rfl, hbody⟩ := nests_of_writtenMembers members hmore
    have hcolon : Nests .outside .outside 0 [byte ':'] := .singleton (step_outside (by decide))
    have hvalue := (nests_blanks hbl').append ((nests_of_written v hv).append hbody)
    have h := (nests_front hs).append ((nests_quote k).append
      ((nests_blanks hbl).append (hcolon.append hvalue)))
    simp only [Nat.zero_max] at h
    exact ⟨_, by simp, h⟩

end

theorem nesting_render {sp : Spacing} (hsp : sp.Blank) (d : Nat) (v : Json) :
    nesting (Utf8.encode (render sp d v)) = v.depth :=
  (nests_of_written v (written_render hsp d v)).nesting_eq

end SchemaByExample.Json
