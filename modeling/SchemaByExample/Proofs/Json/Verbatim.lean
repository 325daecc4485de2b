import SchemaByExample.Proofs.Json.Documents

/-! Texts and their trees. The tree of a text is the value it denotes, but that an object has
its members as they stand: names may repeat. -/
namespace SchemaByExample.Json

open Read Literal

mutual

/-- A text from its first token to its last, and its tree. -/
inductive Verbatim : List Char → Json → Prop
  | null : Verbatim "null".toList .null
  | true : Verbatim "true".toList (.bool true)
  | false : Verbatim "false".toList (.bool false)
  | number (l : NumberLiteral) {n : JsonNumber} : l.value? = some n → Verbatim l.chars (.number n)
  | string {body text : List Char} : Content body text →
      Verbatim ('"' :: (body ++ ['"'])) (.string (String.ofList text))
  | array {text : List Char} {items : List Json} : VerbatimItems true text items →
      Verbatim ('[' :: text) (.array items)
  | object {text : List Char} {pairs : List (String × Json)} : VerbatimMembers true text pairs →
      Verbatim ('\x7b' :: text) (.object pairs)

inductive VerbatimItems : Bool → List Char → List Json → Prop
  | nil {first : Bool} {bl : List Char} : Space bl → VerbatimItems first (bl ++ [']']) []
  | cons {first : Bool} {front text more : List Char} {v : Json} {items : List Json} :
      Separator first front → Verbatim text v → VerbatimItems false more items →
        VerbatimItems first (front ++ (text ++ more)) (v :: items)

inductive VerbatimMembers : Bool → List Char → List (String × Json) → Prop
  | nil {first : Bool} {bl : List Char} : Space bl → VerbatimMembers first (bl ++ ['\x7d']) []
  | cons {first : Bool} {front body name bl bl' text more : List Char} {v : Json}
      {pairs : List (String × Json)} :
      Separator first front → Content body name → Space bl → Space bl' → Verbatim text v →
        VerbatimMembers false more pairs →
          VerbatimMembers first
            (front ++ ('"' :: (body ++ '"' :: (bl ++ ':' :: (bl' ++ (text ++ more))))))
            ((String.ofList name, v) :: pairs)

end

mutual

/-- A text with a tree denotes a value. -/
theorem exists_denotes : {text : List Char} → {v : Json} → Verbatim text v →
    ∃ w, Denotes text w
  | _, _, .null => ⟨_, .null⟩
  | _, _, .true => ⟨_, .true⟩
  | _, _, .false => ⟨_, .false⟩
  | _, _, .number l h => ⟨_, .number l h⟩
  | _, _, .string h => ⟨_, .string h⟩
  | _, _, .array h => (exists_denotesItems h).imp' _ fun _ => .array
  | _, _, .object h => (exists_denotesMembers h).imp' _ fun _ => .object

theorem exists_denotesItems : {first : Bool} → {text : List Char} → {items : List Json} →
    VerbatimItems first text items → ∃ ws, DenotesItems first text ws
  | _, _, _, .nil hbl => ⟨_, .nil hbl⟩
  | _, _, _, .cons hs hv hmore => by
    obtain ⟨w, hw⟩ := exists_denotes hv
    obtain ⟨ws, hws⟩ := exists_denotesItems hmore
    exact ⟨_, .cons hs hw hws⟩

theorem exists_denotesMembers : {first : Bool} → {text : List Char} →
    {pairs : List (String × Json)} → VerbatimMembers first text pairs →
    ∃ ws, DenotesMembers first text ws
  | _, _, _, .nil hbl => ⟨_, .nil hbl⟩
  | _, _, _, .cons hs hname hbl hbl' hv hmore => by
    obtain ⟨w, hw⟩ := exists_denotes hv
    obtain ⟨ws, hws⟩ := exists_denotesMembers hmore
    exact ⟨_, .cons hs hname hbl hbl' hw hws⟩

end

section Texts

variable {text : List Char} {v : Json} {bytes rest : Bytes}

theorem opens_of_verbatim (h : Verbatim text v) :
    ∃ b tail, Utf8.encode text = b :: tail ∧ isBlank b = false ∧ b ≠ byte ']' := by
  obtain ⟨w, hw⟩ := exists_denotes h
  obtain ⟨n, hlegible⟩ := legible_of_denotes hw
  exact hlegible.opens

theorem endsValue_verbatimItems {items : List Json} (h : VerbatimItems false text items)
    (rest : Bytes) : endsValue (Utf8.encode text ++ rest) = true := by
  obtain ⟨ws, hws⟩ := exists_denotesItems h
  exact endsValue_denotesItems hws rest

theorem endsValue_verbatimMembers {pairs : List (String × Json)}
    (h : VerbatimMembers false text pairs) (rest : Bytes) :
    endsValue (Utf8.encode text ++ rest) = true := by
  obtain ⟨ws, hws⟩ := exists_denotesMembers h
  exact endsValue_denotesMembers hws rest

/-! A number is an integer of 32 bits if it is written as one. -/

theorem ofInt?_eq_some_iff {i : Int} {w : Word} : Word.ofInt? i = some w ↔ i = w.value := by
  constructor
  · intro h
    rw [Word.ofInt?] at h
    split at h
    · exact congrArg Word.value (Option.some.inj h)
    · cases h
  · rintro rfl
    exact Word.ofInt?_value w

theorem double?_ne_word (l : NumberLiteral) (w : Word) : l.double? ≠ some (.word w) := by
  unfold NumberLiteral.double?
  split
  · simp
  · simp

theorem value?_eq_word_iff (l : NumberLiteral) (w : Word) : l.value? = some (.word w) ↔
    l.fraction = none ∧ l.exponent = none ∧ ¬(l.negative = true ∧ l.whole.number = 0) ∧
      l.integer = w.value := by
  have hdouble := double?_ne_word l w
  simp only [← ofInt?_eq_some_iff, NumberLiteral.value?, Option.isNone_iff_eq_none]
  split
  · rename_i hplain
    cases Word.ofInt? l.integer with
    | none => simpa using hdouble
    | some w' => simp [hplain.1, hplain.2.1, hplain.2.2]
  · rename_i hplain
    simp only [hdouble, false_iff]
    rintro ⟨hfraction, hexponent, hzero, -⟩
    exact hplain ⟨hfraction, hexponent, hzero⟩

theorem value?_eq_natural_iff (l : NumberLiteral) (n : UInt32) :
    l.value?.map number = some (natural n) ↔
      l.negative = false ∧ l.fraction = none ∧ l.exponent = none ∧ l.whole.number = n.toNat := by
  rw [natural, Option.map_eq_some_iff]
  simp only [number.injEq, exists_eq_right, value?_eq_word_iff, NumberLiteral.integer]
  cases l.negative with
  | false =>
    simp only [Bool.false_eq_true, false_and, not_false_eq_true, if_false, true_and, Int.ofNat_inj]
  | true =>
    simp only [true_and, if_true, reduceCtorEq, false_and, iff_false]
    rintro ⟨-, -, hzero, hinteger⟩
    omega

/-! One token or separator after the other. -/

def Begins (bytes : Bytes) (v : Json) (rest : Bytes) : Prop :=
  ∃ bl text, Space bl ∧ Verbatim text v ∧ bytes = Utf8.encode bl ++ (Utf8.encode text ++ rest)

theorem begins_of_verbatim (h : Verbatim text v) (rest : Bytes) :
    Begins (Utf8.encode text ++ rest) v rest :=
  ⟨[], text, .nil, h, rfl⟩

theorem Begins.behind {front : Bytes} (h : Begins bytes v rest)
    (hfront : skipBlanks front = bytes) : Begins front v rest := by
  obtain ⟨bl, hbl, rfl⟩ := exists_space hfront
  obtain ⟨bl', text, hbl', htext, rfl⟩ := h
  exact ⟨bl ++ bl', text, hbl.append hbl', htext,
    by rw [Utf8.encode_append, List.append_assoc]⟩

theorem begins_word {c : Char} {cs : List Char} {u : Unit} (hv : Verbatim (c :: cs) v)
    (henc : Utf8.encode (c :: cs) = (c :: cs).map byte) (h : ident cs bytes = .ok (u, rest)) :
    Begins (byte c :: bytes) v rest := by
  have hbytes : byte c :: bytes = Utf8.encode (c :: cs) ++ rest := by
    rw [henc, eq_of_ident h]
    rfl
  rw [hbytes]
  exact begins_of_verbatim hv rest

theorem begins_negative {n : JsonNumber} (h : Literal.number true bytes = .ok (n, rest)) :
    Begins (byte '-' :: bytes) (.number n) rest := by
  obtain ⟨l, hnegative, hvalue, rfl⟩ := exists_literal h
  have hv := begins_of_verbatim (.number l hvalue) rest
  rwa [NumberLiteral.chars, if_pos hnegative, encode_ascii_cons (by decide), List.cons_append]
    at hv

theorem begins_number {n : JsonNumber} (h : Literal.number false bytes = .ok (n, rest)) :
    Begins bytes (.number n) rest := by
  obtain ⟨l, hnegative, hvalue, rfl⟩ := exists_literal h
  have hv := begins_of_verbatim (.number l hvalue) rest
  rwa [NumberLiteral.chars, if_neg (by simp [hnegative])] at hv

theorem begins_array {items : List Json} (h : VerbatimItems true text items) (rest : Bytes) :
    Begins (byte '[' :: (Utf8.encode text ++ rest)) (.array items) rest := by
  have hv := begins_of_verbatim (.array h) rest
  rwa [encode_ascii_cons (by decide), List.cons_append] at hv

theorem begins_object {pairs : List (String × Json)} (h : VerbatimMembers true text pairs)
    (rest : Bytes) :
    Begins (byte '\x7b' :: (Utf8.encode text ++ rest)) (.object pairs) rest := by
  have hv := begins_of_verbatim (.object h) rest
  rwa [encode_ascii_cons (by decide), List.cons_append] at hv

theorem nextItem_verbatim {first : Bool} {items : List Json}
    (h : VerbatimItems first text (v :: items)) :
    ∃ body more, Verbatim body v ∧ VerbatimItems false more items ∧
      ∀ rest, nextItem first (Utf8.encode text ++ rest) =
        .ok (true, Utf8.encode body ++ (Utf8.encode more ++ rest)) := by
  cases h with
  | @cons _ front body more _ _ hs hv hmore =>
    obtain ⟨b, tail, hb, hblank, hclose⟩ := opens_of_verbatim hv
    refine ⟨body, more, hv, hmore, fun rest => ?_⟩
    simp only [Utf8.encode_append, List.append_assoc, hb, List.cons_append]
    exact nextItem_cons (separates_of_separator hs) hblank hclose _

theorem exists_verbatimItems_nil {first : Bool} {after : Bytes} {u : Unit}
    (hnext : nextItem first bytes = .ok (false, rest)) (hend : endArray rest = .ok (u, after)) :
    ∃ text, VerbatimItems first text [] ∧ bytes = Utf8.encode text ++ after := by
  obtain ⟨-, bl, hbl, rfl⟩ | ⟨htrue, -⟩ := exists_separator hnext
  · obtain ⟨bl', hbl', rfl⟩ := exists_endArray hend
    refine ⟨_, .nil (hbl.append hbl'), ?_⟩
    simp only [Utf8.encode_append, List.append_assoc]
  · cases htrue

theorem exists_verbatimItems_cons {first : Bool} {after : Bytes} {more : List Char}
    {items : List Json} (hnext : nextItem first bytes = .ok (true, rest))
    (hv : Begins rest v (Utf8.encode more ++ after)) (hmore : VerbatimItems false more items) :
    ∃ text, VerbatimItems first text (v :: items) ∧ bytes = Utf8.encode text ++ after := by
  obtain ⟨hfalse, -⟩ | ⟨-, front, hfront, rfl⟩ := exists_separator hnext
  · cases hfalse
  · obtain ⟨bl, body, hbl, hbody, rfl⟩ := hv
    refine ⟨_, .cons (hfront.append hbl) hbody hmore, ?_⟩
    simp only [Utf8.encode_append, List.append_assoc]

/-- A text of members is that of the first member, then that of the others. -/
theorem exists_member_of_verbatim {first : Bool} {k : String} {pairs : List (String × Json)}
    (h : VerbatimMembers first text ((k, v) :: pairs)) :
    ∃ front name bl bl' body more, Separates first front ∧ Content name k.toList ∧ Blanks bl ∧
      Blanks bl' ∧ Verbatim body v ∧ VerbatimMembers false more pairs ∧
      ∀ rest, Utf8.encode text ++ rest =
        front ++ byte '"' :: (Utf8.encode name ++ byte '"' :: (bl ++ byte ':' :: (bl' ++
          (Utf8.encode body ++ (Utf8.encode more ++ rest))))) := by
  cases h with
  | @cons _ front name _ bl bl' body more _ _ hs hname hbl hbl' hv hmore =>
    refine ⟨_, name, _, _, body, more, separates_of_separator hs, by rwa [String.toList_ofList],
      blanks_of_space hbl, blanks_of_space hbl', hv, hmore, fun rest => ?_⟩
    have hquote : '"'.val.toNat < 0x80 := by decide
    have hcolon : ':'.val.toNat < 0x80 := by decide
    simp only [Utf8.encode_append, encode_ascii_cons hquote, encode_ascii_cons hcolon,
      List.append_assoc, List.cons_append]

theorem nextKey_verbatim {first : Bool} {k : String} {pairs : List (String × Json)}
    (h : VerbatimMembers first text ((k, v) :: pairs)) :
    ∃ bl bl' body more, Blanks bl ∧ Blanks bl' ∧ Verbatim body v ∧
      VerbatimMembers false more pairs ∧ ∀ rest, nextKey first (Utf8.encode text ++ rest) =
        .ok (some k,
          bl ++ byte ':' :: (bl' ++ (Utf8.encode body ++ (Utf8.encode more ++ rest)))) := by
  obtain ⟨front, name, bl, bl', body, more, hs, hname, hbl, hbl', hv, hmore, htext⟩ :=
    exists_member_of_verbatim h
  refine ⟨bl, bl', body, more, hbl, hbl', hv, hmore, fun rest => ?_⟩
  have hk := string_chars hname
  rw [String.ofList_toList] at hk
  rw [htext]
  exact nextKey_cons hs (hk _)

/-- The bytes of a name, a colon, a value and more members are those of a text of them all. -/
theorem exists_verbatimMembers_cons {first : Bool} {k : String} {u : Unit} {after : Bytes}
    {front name more : List Char} {pairs : List (String × Json)} (hfront : Separator first front)
    (hname : Content name k.toList) (hcolon : colon bytes = .ok (u, rest))
    (hv : Begins rest v (Utf8.encode more ++ after)) (hmore : VerbatimMembers false more pairs) :
    ∃ text, VerbatimMembers first text ((k, v) :: pairs) ∧
      Utf8.encode front ++ byte '"' :: (Utf8.encode name ++ byte '"' :: bytes) =
        Utf8.encode text ++ after := by
  obtain ⟨bl, hbl, rfl⟩ := exists_colon hcolon
  obtain ⟨bl', body, hbl', hbody, rfl⟩ := hv
  have hmembers := VerbatimMembers.cons hfront hname hbl hbl' hbody hmore
  rw [String.ofList_toList] at hmembers
  refine ⟨_, hmembers, ?_⟩
  have hquote : '"'.val.toNat < 0x80 := by decide
  have hcolon : ':'.val.toNat < 0x80 := by decide
  simp only [Utf8.encode_append, encode_ascii_cons hquote, encode_ascii_cons hcolon,
    List.append_assoc, List.cons_append]

end Texts

theorem length_lt_of_verbatimItems {first : Bool} {text : List Char} {items : List Json}
    (h : VerbatimItems first text items) : items.length < (Utf8.encode text).length := by
  induction items generalizing first text with
  | nil =>
    cases h with
    | nil =>
      rw [Utf8.encode_append, List.length_append]
      exact Nat.lt_add_left _ (by decide)
  | cons v items ih =>
    cases h with
    | cons hs hv hmore =>
      obtain ⟨b, tail, hb, -⟩ := opens_of_verbatim hv
      have := ih hmore
      simp only [Utf8.encode_append, List.length_append, List.length_cons, hb]
      omega

theorem length_lt_of_verbatimMembers {first : Bool} {text : List Char}
    {pairs : List (String × Json)} (h : VerbatimMembers first text pairs) :
    pairs.length < (Utf8.encode text).length := by
  induction pairs generalizing first text with
  | nil =>
    cases h with
    | nil =>
      rw [Utf8.encode_append, List.length_append]
      exact Nat.lt_add_left _ (by decide)
  | cons p pairs ih =>
    cases h with
    | cons hs hname hbl hbl' hv hmore =>
      have := ih hmore
      have hquote : '"'.val.toNat < 0x80 := by decide
      have hcolon : ':'.val.toNat < 0x80 := by decide
      simp only [Utf8.encode_append, encode_ascii_cons hquote, encode_ascii_cons hcolon,
        List.length_append, List.length_cons]
      omega

end SchemaByExample.Json
