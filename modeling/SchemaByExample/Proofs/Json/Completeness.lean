import SchemaByExample.Proofs.Json.NumberReading
import SchemaByExample.Proofs.Json.StringReading
import SchemaByExample.Proofs.Json.Reading
import SchemaByExample.Proofs.Json.WrittenNesting

/-! The reader takes every text of the grammar for the value it denotes, as far as the text
nests no more containers than the reader has a budget for. -/
namespace SchemaByExample.Json

open Read Literal

/-! Blanks. -/

theorem Space.nil : Space [] := by simp [Space]

theorem blanks_of_space {cs : List Char} (h : Space cs) : Blanks (Utf8.encode cs) := by
  intro b hb
  obtain ⟨c, hc, hb⟩ := List.mem_flatMap.mp hb
  have hmem := h c hc
  simp only [List.mem_cons, List.not_mem_nil, or_false] at hmem
  obtain rfl | rfl | rfl | rfl := hmem
  all_goals
    rw [encodeChar_ascii (by decide), List.mem_singleton] at hb
    rw [hb]
    decide

theorem separates_of_separator {first : Bool} {front : List Char} (h : Separator first front) :
    Separates first (Utf8.encode front) := by
  cases h with
  | first hbl => exact .first (blanks_of_space hbl)
  | next hbl hbl' =>
    rw [Utf8.encode_append, encode_ascii_cons (by decide)]
    exact .next (blanks_of_space hbl) (blanks_of_space hbl')

/-! The first byte of a value tells how it is read. -/

section Dispatch

variable (budget : Nat) (rest : Bytes)

theorem read_blanks {bl : Bytes} (h : Blanks bl) : read budget (bl ++ rest) = read budget rest := by
  unfold Json.read
  rw [skipBlanks_append h]

theorem read_null : read budget (Utf8.encode "null".toList ++ rest) = .ok (.null, rest) := by
  cases budget <;> rfl

theorem read_true : read budget (Utf8.encode "true".toList ++ rest) = .ok (.bool true, rest) := by
  cases budget <;> rfl

theorem read_false :
    read budget (Utf8.encode "false".toList ++ rest) = .ok (.bool false, rest) := by
  cases budget <;> rfl

theorem read_minus : read budget (byte '-' :: rest) =
    Literal.number true rest >>= fun p => .ok (.number p.1, p.2) := by
  cases budget <;> rfl

theorem read_digit {b : UInt8} (h : isDigit b = true) : read budget (b :: rest) =
    Literal.number false (b :: rest) >>= fun p => .ok (.number p.1, p.2) := by
  have hblank := (not_blank_of_isDigit h).1
  have hne {c : Char} (hc : isDigit (byte c) = false) : b ≠ byte c := by
    rintro rfl
    rw [h] at hc
    cases hc
  unfold Json.read
  simp only [skipBlanks_cons hblank, if_neg (hne (c := 'n') (by decide)),
    if_neg (hne (c := 't') (by decide)), if_neg (hne (c := 'f') (by decide)),
    if_neg (hne (c := '-') (by decide)), h, if_true]

theorem read_quote : read budget (byte '"' :: rest) =
    Literal.string rest >>= fun p => .ok (.string p.1, p.2) := by
  cases budget <;> rfl

theorem read_bracket : read (budget + 1) (byte '[' :: rest) =
    Read.array (read budget) rest >>= fun p => .ok (.array p.1, p.2) :=
  rfl

theorem read_brace : read (budget + 1) (byte '\x7b' :: rest) =
    Read.object (read budget) rest >>= fun p => .ok (.object p.1, p.2) :=
  rfl

theorem read_bracket_zero :
    read 0 (byte '[' :: rest) = failPast .recursionLimit (byte '[' :: rest) :=
  rfl

theorem read_brace_zero :
    read 0 (byte '\x7b' :: rest) = failPast .recursionLimit (byte '\x7b' :: rest) :=
  rfl

end Dispatch

/-! Texts. -/

/-- The text nests `n` containers, and the reader takes it for the value if its budget allows
for as many. -/
structure Legible (n : Nat) (text : List Char) (v : Json) : Prop where
  opens : ∃ b tail, Utf8.encode text = b :: tail ∧ isBlank b = false ∧ b ≠ byte ']'
  nests : Nests .outside .outside n (Utf8.encode text)
  reads : ∀ (budget : Nat) {rest : Bytes}, endsValue rest = true →
    Yields (n ≤ budget) (read budget (Utf8.encode text ++ rest)) (v, rest)

structure LegibleItems (n : Nat) (first : Bool) (text : List Char) (items : List Json) : Prop where
  short : items.length < (Utf8.encode text).length
  nests : ∃ body, Utf8.encode text = body ++ [byte ']'] ∧ Nests .outside .outside n body
  reads : ∀ (budget i : Nat) {fuel : Nat} (rest : Bytes), items.length < fuel →
    Yields (n ≤ budget) (Read.items (read budget) fuel i first (Utf8.encode text ++ rest))
      (items, byte ']' :: rest)

structure LegibleMembers (n : Nat) (first : Bool) (text : List Char)
    (pairs : List (String × Json)) : Prop where
  short : pairs.length < (Utf8.encode text).length
  nests : ∃ body, Utf8.encode text = body ++ [byte '\x7d'] ∧ Nests .outside .outside n body
  reads : ∀ (budget : Nat) {fuel : Nat} (rest : Bytes), pairs.length < fuel →
    Yields (n ≤ budget) (Read.members (read budget) fuel first (Utf8.encode text ++ rest))
      (pairs, byte '\x7d' :: rest)

theorem endsValue_denotesItems {items : List Json} {more : List Char}
    (h : DenotesItems false more items) (rest : Bytes) :
    endsValue (Utf8.encode more ++ rest) = true := by
  cases h with
  | nil hbl =>
    rw [Utf8.encode_append, List.append_assoc]
    exact endsValue_append (by decide) (blanks_of_space hbl) rest
  | cons hs =>
    cases hs with
    | next hbl hbl' =>
      rw [Utf8.encode_append, Utf8.encode_append, encode_ascii_cons (by decide), List.append_assoc,
        List.append_assoc]
      exact endsValue_append (by decide) (blanks_of_space hbl) _

theorem endsValue_denotesMembers {pairs : List (String × Json)} {more : List Char}
    (h : DenotesMembers false more pairs) (rest : Bytes) :
    endsValue (Utf8.encode more ++ rest) = true := by
  cases h with
  | nil hbl =>
    rw [Utf8.encode_append, List.append_assoc]
    exact endsValue_append (by decide) (blanks_of_space hbl) rest
  | cons hs =>
    cases hs with
    | next hbl hbl' =>
      rw [Utf8.encode_append, Utf8.encode_append, encode_ascii_cons (by decide), List.append_assoc,
        List.append_assoc]
      exact endsValue_append (by decide) (blanks_of_space hbl) _

/-- A value that nests nothing. -/
theorem legible_scalar {text : List Char} {v : Json}
    (hopens : ∃ b tail, Utf8.encode text = b :: tail ∧ isBlank b = false ∧ b ≠ byte ']')
    (hnests : Nests .outside .outside 0 (Utf8.encode text))
    (h : ∀ (budget : Nat) {rest : Bytes}, endsValue rest = true →
      read budget (Utf8.encode text ++ rest) = .ok (v, rest)) : Legible 0 text v where
  opens := hopens
  nests := hnests
  reads budget _ hr := (Yields.of_eq (h budget hr)).congr (by simp)

theorem legible_null : Legible 0 "null".toList .null :=
  legible_scalar ⟨_, _, rfl, by decide, by decide⟩ (nests_word (by decide))
    fun budget _ _ => read_null budget _

theorem legible_true : Legible 0 "true".toList (.bool true) :=
  legible_scalar ⟨_, _, rfl, by decide, by decide⟩ (nests_word (by decide))
    fun budget _ _ => read_true budget _

theorem legible_false : Legible 0 "false".toList (.bool false) :=
  legible_scalar ⟨_, _, rfl, by decide, by decide⟩ (nests_word (by decide))
    fun budget _ _ => read_false budget _

theorem legible_number (l : NumberLiteral) {n : JsonNumber} (h : l.value? = some n) :
    Legible 0 l.chars (.number n) := by
  have hread {rest : Bytes} (hr : endsValue rest = true) := number_chars l h hr
  have hnests : Nests .outside .outside 0 (Utf8.encode l.unsigned) := by
    have hall := @hread [] rfl
    rw [List.append_nil] at hall
    exact (spans_number hall).nests
  cases hn : l.negative with
  | true =>
    simp only [hn] at hread
    have henc : Utf8.encode l.chars = byte '-' :: Utf8.encode l.unsigned := by
      rw [NumberLiteral.chars, hn, if_pos rfl]
      exact encode_ascii_cons (by decide) _
    refine legible_scalar ⟨_, _, henc, by decide, by decide⟩ ?_ ?_
    · rw [henc]
      exact (Nests.singleton (step_outside (by decide))).append hnests
    · intro budget rest hr
      rw [henc, List.cons_append, read_minus, hread hr]
      rfl
  | false =>
    simp only [hn] at hread
    have henc : l.chars = l.unsigned := by
      rw [NumberLiteral.chars, hn]
      rfl
    obtain ⟨b, tail, hb, hd⟩ :=
      digits_cons l.whole (Utf8.encode (fractionChars l.fraction ++ exponentChars l.exponent))
    have hcons : Utf8.encode l.unsigned = b :: tail := by
      rw [NumberLiteral.unsigned, Utf8.encode_append, hb]
    have hclose : b ≠ byte ']' := by
      rintro rfl
      exact absurd hd (by decide)
    rw [henc]
    refine legible_scalar ⟨b, tail, hcons, (not_blank_of_isDigit hd).1, hclose⟩ hnests ?_
    intro budget rest hr
    have hnumber := hread hr
    rw [hcons, List.cons_append] at hnumber ⊢
    rw [read_digit _ _ hd, hnumber]
    rfl

theorem legible_string {body text : List Char} (h : Content body text) :
    Legible 0 ('"' :: (body ++ ['"'])) (.string (String.ofList text)) := by
  have henc : Utf8.encode ('"' :: (body ++ ['"'])) =
      byte '"' :: (Utf8.encode body ++ [byte '"']) := by
    rw [encode_ascii_cons (by decide), Utf8.encode_append]
    rfl
  refine legible_scalar ⟨_, _, henc, by decide, by decide⟩ ?_ ?_
  · rw [henc]
    exact (spans_string (string_chars h [])).nests
  · intro budget rest _
    have hstring := string_chars h rest
    rw [henc, List.cons_append, List.append_assoc, List.singleton_append, read_quote, hstring]
    rfl

theorem legible_array {n : Nat} {text : List Char} {items : List Json}
    (h : LegibleItems n true text items) : Legible (n + 1) ('[' :: text) (.array items) := by
  have henc : Utf8.encode ('[' :: text) = byte '[' :: Utf8.encode text :=
    encode_ascii_cons (by decide) text
  constructor
  · exact ⟨_, _, henc, by decide, by decide⟩
  · obtain ⟨body, hbody, hnests⟩ := h.nests
    rw [henc, hbody]
    exact hnests.bracket (.inl rfl) (.inl rfl)
  · intro budget rest _
    rw [henc, List.cons_append]
    cases budget with
    | zero =>
      refine ⟨fun hle => absurd hle (by omega), fun _ => ⟨_, read_bracket_zero _, rfl⟩⟩
    | succ budget =>
      have hfuel : items.length < (Utf8.encode text ++ rest).length + 1 := by
        have := h.short
        rw [List.length_append]
        omega
      have hitems := h.reads budget 0 rest hfuel
      have harray : Yields (n ≤ budget) (Read.array (read budget) (Utf8.encode text ++ rest))
          (items, rest) := hitems.bind_ok (by simp only [endArray_close, ok_bind])
      rw [read_bracket]
      refine Yields.congr ?_ Nat.succ_le_succ_iff.symm
      exact harray.bind_ok rfl

theorem legible_object {n : Nat} {text : List Char} {pairs : List (String × Json)}
    (h : LegibleMembers n true text pairs) :
    Legible (n + 1) ('\x7b' :: text) (.object (Members.ofPairs pairs)) := by
  have henc : Utf8.encode ('\x7b' :: text) = byte '\x7b' :: Utf8.encode text :=
    encode_ascii_cons (by decide) text
  constructor
  · exact ⟨_, _, henc, by decide, by decide⟩
  · obtain ⟨body, hbody, hnests⟩ := h.nests
    rw [henc, hbody]
    exact hnests.bracket (.inr rfl) (.inr rfl)
  · intro budget rest _
    rw [henc, List.cons_append]
    cases budget with
    | zero =>
      refine ⟨fun hle => absurd hle (by omega), fun _ => ⟨_, read_brace_zero _, rfl⟩⟩
    | succ budget =>
      have hfuel : pairs.length < (Utf8.encode text ++ rest).length + 1 := by
        have := h.short
        rw [List.length_append]
        omega
      have hmembers := h.reads budget rest hfuel
      have hobject : Yields (n ≤ budget) (Read.object (read budget) (Utf8.encode text ++ rest))
          (Members.ofPairs pairs, rest) := hmembers.bind_ok rfl
      rw [read_brace]
      refine Yields.congr ?_ Nat.succ_le_succ_iff.symm
      exact hobject.bind_ok rfl

theorem legibleItems_nil (first : Bool) {bl : List Char} (h : Space bl) :
    LegibleItems 0 first (bl ++ [']']) [] := by
  have henc : Utf8.encode (bl ++ [']']) = Utf8.encode bl ++ [byte ']'] := Utf8.encode_append _ _
  constructor
  · simp [henc]
  · exact ⟨_, henc, nests_blanks (blanks_of_space h)⟩
  · intro budget i fuel rest hf
    obtain ⟨fuel, rfl⟩ := Nat.exists_eq_add_one_of_ne_zero (Nat.ne_zero_of_lt hf)
    refine (Yields.of_eq ?_).congr (by simp)
    rw [henc, List.append_assoc, List.singleton_append, Read.items,
      nextItem_close first (blanks_of_space h)]
    rfl

theorem legibleItems_cons {m n : Nat} {first : Bool} {front text more : List Char} {v : Json}
    {items : List Json} (hs : Separator first front) (hv : Legible m text v)
    (hd : DenotesItems false more items) (hmore : LegibleItems n false more items) :
    LegibleItems (max m n) first (front ++ (text ++ more)) (v :: items) := by
  have hfront := separates_of_separator hs
  obtain ⟨b, tail, hb, hblank, hclose⟩ := hv.opens
  constructor
  · have := hmore.short
    simp only [Utf8.encode_append, List.length_append, List.length_cons, hb]
    omega
  · obtain ⟨body, hbody, hnests⟩ := hmore.nests
    have h := (nests_front hfront).append (hv.nests.append hnests)
    rw [Nat.zero_max] at h
    exact ⟨_, by simp [hbody], h⟩
  · intro budget i fuel rest hf
    obtain ⟨fuel, rfl⟩ := Nat.exists_eq_add_one_of_ne_zero (Nat.ne_zero_of_lt hf)
    have hrest := hmore.reads budget (i + 1) rest (Nat.lt_of_succ_lt_succ hf)
    have hitem := (hv.reads budget (endsValue_denotesItems hd rest)).inside (.index i)
    have hnext : nextItem first (Utf8.encode (front ++ (text ++ more)) ++ rest) =
        .ok (true, Utf8.encode text ++ (Utf8.encode more ++ rest)) := by
      simp only [Utf8.encode_append, List.append_assoc, hb, List.cons_append]
      exact nextItem_cons hfront hblank hclose _
    simp only [Read.items, hnext, ok_bind, if_true]
    refine (hitem.bind ?_).congr Nat.max_le.symm
    exact hrest.bind_ok rfl

theorem legibleMembers_nil (first : Bool) {bl : List Char} (h : Space bl) :
    LegibleMembers 0 first (bl ++ ['\x7d']) [] := by
  have henc : Utf8.encode (bl ++ ['\x7d']) = Utf8.encode bl ++ [byte '\x7d'] :=
    Utf8.encode_append _ _
  constructor
  · simp [henc]
  · exact ⟨_, henc, nests_blanks (blanks_of_space h)⟩
  · intro budget fuel rest hf
    obtain ⟨fuel, rfl⟩ := Nat.exists_eq_add_one_of_ne_zero (Nat.ne_zero_of_lt hf)
    refine (Yields.of_eq ?_).congr (by simp)
    rw [henc, List.append_assoc, List.singleton_append, Read.members,
      nextKey_close first (blanks_of_space h)]
    rfl

theorem legibleMembers_cons {m n : Nat} {first : Bool}
    {front body name bl bl' text more : List Char} {v : Json} {pairs : List (String × Json)}
    (hs : Separator first front) (hname : Content body name) (hbl : Space bl) (hbl' : Space bl')
    (hv : Legible m text v) (hd : DenotesMembers false more pairs)
    (hmore : LegibleMembers n false more pairs) :
    LegibleMembers (max m n) first
      (front ++ ('"' :: (body ++ '"' :: (bl ++ ':' :: (bl' ++ (text ++ more))))))
      ((String.ofList name, v) :: pairs) := by
  have hfront := separates_of_separator hs
  have hblanks := blanks_of_space hbl
  have hblanks' := blanks_of_space hbl'
  have henc :
      Utf8.encode (front ++ ('"' :: (body ++ '"' :: (bl ++ ':' :: (bl' ++ (text ++ more)))))) =
      Utf8.encode front ++ byte '"' :: (Utf8.encode body ++ byte '"' :: (Utf8.encode bl ++
        byte ':' :: (Utf8.encode bl' ++ (Utf8.encode text ++ Utf8.encode more)))) := by
    have hquote : '"'.val.toNat < 0x80 := by decide
    have hcolon : ':'.val.toNat < 0x80 := by decide
    simp only [Utf8.encode_append, encode_ascii_cons hquote, encode_ascii_cons hcolon]
  constructor
  · have := hmore.short
    simp only [henc, List.length_append, List.length_cons]
    omega
  · obtain ⟨inner, hinner, hnests⟩ := hmore.nests
    have hcolon : Nests .outside .outside 0 [byte ':'] := .singleton (step_outside (by decide))
    have hquoted : Nests .outside .outside 0 (byte '"' :: (Utf8.encode body ++ [byte '"'])) :=
      (spans_string (string_chars hname [])).nests
    have hvalue := (nests_blanks hblanks').append (hv.nests.append hnests)
    have h := (nests_front hfront).append (hquoted.append
      ((nests_blanks hblanks).append (hcolon.append hvalue)))
    simp only [Nat.zero_max] at h
    exact ⟨_, by simp [henc, hinner], h⟩
  · intro budget fuel rest hf
    obtain ⟨fuel, rfl⟩ := Nat.exists_eq_add_one_of_ne_zero (Nat.ne_zero_of_lt hf)
    have hrest := hmore.reads budget rest (Nat.lt_of_succ_lt_succ hf)
    have hvalue := (hv.reads budget (endsValue_denotesMembers hd rest)).inside
      (.key (String.ofList name))
    rw [henc]
    simp only [List.append_assoc, List.cons_append, Read.members,
      nextKey_cons hfront (string_chars hname _), ok_bind, colon_blanks hblanks,
      read_blanks _ _ hblanks']
    refine (hvalue.bind ?_).congr Nat.max_le.symm
    exact hrest.bind_ok rfl

mutual

/-- Every text of the grammar is legible. -/
theorem legible_of_denotes : {text : List Char} → {v : Json} → Denotes text v →
    ∃ n, Legible n text v
  | _, _, .null => ⟨0, legible_null⟩
  | _, _, .true => ⟨0, legible_true⟩
  | _, _, .false => ⟨0, legible_false⟩
  | _, _, .number l h => ⟨0, legible_number l h⟩
  | _, _, .string h => ⟨0, legible_string h⟩
  | _, _, .array h => by
    obtain ⟨n, hitems⟩ := legibleItems_of_denotes h
    exact ⟨n + 1, legible_array hitems⟩
  | _, _, .object h => by
    obtain ⟨n, hmembers⟩ := legibleMembers_of_denotes h
    exact ⟨n + 1, legible_object hmembers⟩

theorem legibleItems_of_denotes : {first : Bool} → {text : List Char} → {items : List Json} →
    DenotesItems first text items → ∃ n, LegibleItems n first text items
  | first, _, _, .nil hbl => ⟨0, legibleItems_nil first hbl⟩
  | _, _, _, .cons hs hv hmore => by
    obtain ⟨m, hvalue⟩ := legible_of_denotes hv
    obtain ⟨n, hitems⟩ := legibleItems_of_denotes hmore
    exact ⟨max m n, legibleItems_cons hs hvalue hmore hitems⟩

theorem legibleMembers_of_denotes : {first : Bool} → {text : List Char} →
    {pairs : List (String × Json)} → DenotesMembers first text pairs →
    ∃ n, LegibleMembers n first text pairs
  | first, _, _, .nil hbl => ⟨0, legibleMembers_nil first hbl⟩
  | _, _, _, .cons hs hname hbl hbl' hv hmore => by
    obtain ⟨m, hvalue⟩ := legible_of_denotes hv
    obtain ⟨n, hmembers⟩ := legibleMembers_of_denotes hmore
    exact ⟨max m n, legibleMembers_cons hs hname hbl hbl' hvalue hmore hmembers⟩

end

end SchemaByExample.Json
