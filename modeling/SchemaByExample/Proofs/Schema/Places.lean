import SchemaByExample.Proofs.Json.Documents
import SchemaByExample.Proofs.Json.Places
import SchemaByExample.Proofs.Schema.Depth
import SchemaByExample.Proofs.Schema.Language

/-! The places of a schema document. Each takes the values of one sort, and a literal of another
sort in its place is refused at the path of the place. -/
namespace SchemaByExample.Schema

open Json Read Literal

/-! Literals. -/

inductive Scalar where
  | bool (b : Bool)
  | number (l : NumberLiteral)
  | string {body text : List Char} (content : Content body text)

namespace Scalar

def chars : Scalar → List Char
  | .bool true => "true".toList
  | .bool false => "false".toList
  | .number l => l.chars
  | @string body _ _ => '"' :: (body ++ ['"'])

def Heads : Scalar → UInt8 → Prop
  | .bool b, c => c = byte (if b then 't' else 'f')
  | .number _, c => c = byte '-' ∨ isDigit c = true
  | .string _, c => c = byte '"'

theorem exists_head (literal : Scalar) :
    ∃ c tail, Utf8.encode literal.chars = c :: tail ∧ literal.Heads c := by
  cases literal with
  | bool b => cases b <;> exact ⟨_, _, rfl, rfl⟩
  | string content => exact ⟨_, _, encode_ascii_cons (by decide) _, rfl⟩
  | number l =>
    obtain ⟨c, tail, hc, hdigit⟩ := digits_cons l.whole
      (Utf8.encode (fractionChars l.fraction ++ exponentChars l.exponent))
    rw [← Utf8.encode_append, ← NumberLiteral.unsigned] at hc
    rw [chars, NumberLiteral.chars]
    split
    · exact ⟨_, _, encode_ascii_cons (by decide) _, .inl rfl⟩
    · exact ⟨c, tail, hc, .inr hdigit⟩

theorem Heads.ne {literal : Scalar} {c d : UInt8} (h : literal.Heads c)
    (hd : d ∉ [byte 't', byte 'f', byte '-', byte '"']) (hdigit : isDigit d = false) : c ≠ d := by
  simp only [List.mem_cons, List.not_mem_nil, or_false, not_or] at hd
  rintro rfl
  cases literal with
  | bool b => cases b <;> [exact hd.2.1 h; exact hd.1 h]
  | string content => exact hd.2.2.2 h
  | number l =>
    obtain h | h := h
    · exact hd.2.2.1 h
    · rw [h] at hdigit
      cases hdigit

theorem Heads.not_blank {literal : Scalar} {c : UInt8} (h : literal.Heads c) :
    isBlank c = false := by
  cases literal with
  | bool b => cases b <;> (rw [show c = _ from h]; decide)
  | string content => rw [show c = _ from h]; decide
  | number l =>
    obtain rfl | h := h
    · decide
    · exact (not_blank_of_isDigit h).1

theorem heads_bool {b : Bool} {c : UInt8} (h : (bool b).Heads c) :
    c ≠ byte '-' ∧ isDigit c = false ∧ c ≠ byte '"' := by
  cases b <;> (rw [show c = _ from h]; decide)

theorem heads_number {l : NumberLiteral} {c : UInt8} (h : (number l).Heads c) :
    c ≠ byte 't' ∧ c ≠ byte 'f' ∧ c ≠ byte '"' := by
  obtain rfl | hd := h
  · decide
  · have hne {x : Char} (hx : isDigit (byte x) = false) : c ≠ byte x := by
      rintro rfl
      rw [hd] at hx
      cases hx
    exact ⟨hne rfl, hne rfl, hne rfl⟩

theorem opens (literal : Scalar) : Opens literal.chars := by
  obtain ⟨c, tail, hc, hheads⟩ := literal.exists_head
  exact ⟨c, tail, hc, hheads.not_blank, hheads.ne (by decide) (by decide)⟩

end Scalar

theorem encode_quoted {body text : List Char} (content : Content body text) (rest : Bytes) :
    Utf8.encode (Scalar.string content).chars ++ rest =
      byte '"' :: (Utf8.encode body ++ byte '"' :: rest) := by
  rw [Scalar.chars, encode_ascii_cons (by decide), Utf8.encode_append, List.cons_append,
    List.append_assoc]
  rfl

def Refuses {α : Type} (value : Bytes → Except Failure (α × Bytes)) (literal : Scalar) : Prop :=
  ∀ rest, endsValue rest = true →
    ∃ cause, FailsAt cause [] (value (Utf8.encode literal.chars ++ rest))

section Refusing

variable {α : Type} {literal : Scalar}

/-- A reader that reads a number first fails for a literal if it fails for its number. -/
theorem refuses_number {value : Bytes → Except Failure (α × Bytes)} {l : NumberLiteral}
    (check : JsonNumber × Bytes → Except Failure (α × Bytes))
    (hminus : ∀ rest, value (byte '-' :: rest) = Literal.number true rest >>= check)
    (hdigit : ∀ b rest, isDigit b = true →
      value (b :: rest) = Literal.number false (b :: rest) >>= check)
    (hcheck : ∀ n rest, l.value? = some n → ∃ cause, FailsAt cause [] (check (n, rest))) :
    Refuses value (.number l) := by
  intro rest hr
  have hread : ∃ cause, FailsAt cause []
      (Literal.number l.negative (Utf8.encode l.unsigned ++ rest) >>= check) := by
    cases hvalue : l.value? with
    | none =>
      have hbeyond : FailsAt .numberOutOfRange [] _ := number_beyond l hvalue hr
      exact ⟨_, hbeyond.bind _⟩
    | some n =>
      rw [number_chars l hvalue hr]
      exact hcheck n rest hvalue
  rw [Scalar.chars, NumberLiteral.chars]
  cases hnegative : l.negative with
  | true =>
    rw [hnegative] at hread
    rwa [if_pos rfl, encode_ascii_cons (by decide), List.cons_append, hminus]
  | false =>
    obtain ⟨b, tail, hb, hd⟩ := digits_cons l.whole
      (Utf8.encode (fractionChars l.fraction ++ exponentChars l.exponent) ++ rest)
    rw [← List.append_assoc, ← Utf8.encode_append, ← NumberLiteral.unsigned] at hb
    rw [hnegative, hb] at hread
    rwa [if_neg Bool.false_ne_true, hb, hdigit b tail hd]

theorem ne_of_isDigit {b c : UInt8} (h : isDigit b = true) (hc : isDigit c = false) : b ≠ c := by
  rintro rfl
  rw [h] at hc
  cases hc

theorem refuse_refuses (α : Type) (expected : String) (literal : Scalar) :
    Refuses (Typed.refuse expected : Bytes → Except Failure (α × Bytes)) literal := by
  cases literal with
  | bool b => cases b <;> exact fun rest _ => ⟨_, _, rfl⟩
  | @string body text content =>
    intro rest _
    have hstring : Typed.refuse expected (byte '"' :: (Utf8.encode body ++ byte '"' :: rest)) =
        Literal.string (Utf8.encode body ++ byte '"' :: rest) >>= fun p =>
          (fail (.invalidType (.string p.1) expected) p.2 : Except Failure (α × Bytes)) := rfl
    rw [encode_quoted, hstring, string_chars content]
    exact ⟨_, failsAt_fail _ _⟩
  | number l =>
    refine refuses_number _ (fun _ => rfl) ?_ ?_
    · intro b rest hb
      have hne {c : Char} (hc : isDigit (byte c) = false) := ne_of_isDigit hb hc
      rw [Typed.refuse, skipBlanks_cons (not_blank_of_isDigit hb).1]
      exact (if_neg (hne (c := 'n') (by decide))).trans <|
        (if_neg (hne (c := 't') (by decide))).trans <|
        (if_neg (hne (c := 'f') (by decide))).trans <|
        (if_neg (hne (c := '-') (by decide))).trans (if_pos hb)
    · intro n rest _
      cases n <;> exact ⟨_, failsAt_fail _ _⟩

theorem optional_refuses {value : Bytes → Except Failure (α × Bytes)} (h : Refuses value literal) :
    Refuses (Typed.optional value) literal := by
  intro rest hr
  obtain ⟨cause, hfail⟩ := h rest hr
  obtain ⟨c, tail, hc, hheads⟩ := literal.exists_head
  refine ⟨cause, ?_⟩
  rw [hc, List.cons_append] at hfail ⊢
  simp only [Typed.optional, skipBlanks_cons hheads.not_blank,
    if_neg (hheads.ne (d := byte 'n') (by decide) (by decide))]
  exact hfail.bind _

/-- What does not begin with the right byte is refused. -/
theorem string_refuses (expected : String) (h : ∀ c, literal.Heads c → c ≠ byte '"') :
    Refuses (Typed.string expected) literal := by
  intro rest hr
  obtain ⟨c, tail, hc, hheads⟩ := literal.exists_head
  have hrefuse := refuse_refuses String expected literal rest hr
  rw [hc, List.cons_append] at hrefuse ⊢
  simpa only [Typed.string, skipBlanks_cons hheads.not_blank, if_neg (h c hheads)] using hrefuse

theorem bool_refuses (h : ∀ c, literal.Heads c → c ≠ byte 't' ∧ c ≠ byte 'f') :
    Refuses Typed.bool literal := by
  intro rest hr
  obtain ⟨c, tail, hc, hheads⟩ := literal.exists_head
  have hrefuse := refuse_refuses Bool "a boolean" literal rest hr
  rw [hc, List.cons_append] at hrefuse ⊢
  simpa only [Typed.bool, skipBlanks_cons hheads.not_blank, if_neg (h c hheads).1,
    if_neg (h c hheads).2] using hrefuse

theorem enter_refuses {bracket : Char} (expected : String) (budget : Nat)
    (inner : Nat → Bytes → Except Failure (α × Bytes))
    (hb : byte bracket ∉ [byte 't', byte 'f', byte '-', byte '"'])
    (hdigit : isDigit (byte bracket) = false) (literal : Scalar) :
    Refuses (fun bytes => Typed.enter bracket expected budget bytes inner) literal := by
  intro rest hr
  obtain ⟨c, tail, hc, hheads⟩ := literal.exists_head
  have hrefuse := refuse_refuses α expected literal rest hr
  rw [hc, List.cons_append] at hrefuse ⊢
  simpa only [Typed.enter, skipBlanks_cons hheads.not_blank, if_neg (hheads.ne hb hdigit)]
    using hrefuse

theorem read_refuses (budget : Nat) (literal : Scalar) : Refuses (read budget) literal := by
  have hwith (field : Option FieldReader) : Refuses (readWith field) literal := by
    intro rest hr
    obtain ⟨c, tail, hc, hheads⟩ := literal.exists_head
    have hbracket : ¬(c = byte '[' ∨ c = byte '\x7b') :=
      not_or.mpr ⟨hheads.ne (by decide) (by decide), hheads.ne (by decide) (by decide)⟩
    have hrefuse := refuse_refuses Schema refusal literal rest hr
    rw [hc, List.cons_append] at hrefuse ⊢
    simpa only [readWith, skipBlanks_cons hheads.not_blank, if_neg hbracket] using hrefuse
  cases budget with
  | zero => exact hwith none
  | succ budget =>
    rw [read_succ]
    exact hwith _

theorem checkNatural_fails {n : JsonNumber} (h : ∀ m, Json.number n ≠ natural m) (rest : Bytes) :
    ∃ cause, FailsAt cause [] (Typed.checkNatural n rest) := by
  cases hcheck : Typed.checkNatural n rest with
  | ok p =>
    obtain ⟨hn, -⟩ := checkNatural_eq_ok_iff.mp hcheck
    exact absurd hn (h p.1)
  | error f =>
    cases n with
    | word w =>
      simp only [Typed.checkNatural] at hcheck
      split at hcheck
      · cases hcheck
      · cases hcheck
        exact ⟨_, failsAt_fail _ rest⟩
    | double x =>
      cases hcheck
      exact ⟨_, failsAt_fail _ rest⟩

theorem natural_refuses_number {l : NumberLiteral}
    (h : ∀ n, l.value?.map Json.number ≠ some (natural n)) : Refuses Typed.natural (.number l) := by
  refine refuses_number _ (fun _ => rfl) ?_ ?_
  · intro b rest hb
    obtain ⟨hblank, hminus⟩ := not_blank_of_isDigit hb
    simp only [Typed.natural, skipBlanks_cons hblank, if_neg hminus, hb, if_true]
  · intro n rest hvalue
    refine checkNatural_fails (fun m hm => h m ?_) rest
    rw [hvalue, Option.map_some, hm]

theorem natural_refuses (h : ∀ c, literal.Heads c → c ≠ byte '-' ∧ isDigit c = false) :
    Refuses Typed.natural literal := by
  intro rest hr
  obtain ⟨c, tail, hc, hheads⟩ := literal.exists_head
  have hrefuse := refuse_refuses UInt32 "u32" literal rest hr
  rw [hc, List.cons_append] at hrefuse ⊢
  simpa only [Typed.natural, skipBlanks_cons hheads.not_blank, if_neg (h c hheads).1,
    (h c hheads).2, Bool.false_eq_true, if_false] using hrefuse

theorem kind_refuses (budget : Nat) (h : ∀ c, literal.Heads c → c ≠ byte '"') :
    Refuses (readKind budget) literal := by
  intro rest hr
  obtain ⟨c, tail, hc, hheads⟩ := literal.exists_head
  rw [hc, List.cons_append]
  simp only [readKind, skipBlanks_cons hheads.not_blank, if_neg (h c hheads),
    if_neg (hheads.ne (d := byte '\x7b') (by decide) (by decide))]
  exact ⟨_, failsAt_failPast _ _⟩

/-- A string that names no kind. -/
theorem kind_refuses_string (budget : Nat) {body text : List Char} (content : Content body text)
    (h : ∀ k : Kind, text ≠ k.name.toList) : Refuses (readKind budget) (.string content) := by
  intro rest _
  have hquote : isBlank (byte '"') = false := by decide
  have hnone : Kind.ofName? (String.ofList text) = none := by
    refine Option.eq_none_iff_forall_ne_some.mpr fun k hk => h k ?_
    rw [← name_of_kindOfName hk, String.toList_ofList]
  rw [encode_quoted]
  simp only [readKind, skipBlanks_cons hquote, if_true, kindName, typedString_chars _ content,
    ok_bind, hnone]
  exact ⟨_, failsAt_fail _ _⟩

end Refusing

/-! Sorts of places. -/

/-- What stands at a place: a schema, a text, the name of a kind, a number of 32 bits, a truth
value, the schemas of properties or the names of the required ones. -/
inductive Slot where
  | schema | text | kind | natural | flag | properties | names
  deriving DecidableEq

def Slot.Accepts : Slot → Scalar → Prop
  | .text, .string _ => True
  | .kind, @Scalar.string _ name _ => ∃ k : Kind, name = k.name.toList
  | .natural, .number l =>
    l.negative = false ∧ l.fraction = none ∧ l.exponent = none ∧ l.whole.number < 0x100000000
  | .flag, .bool _ => True
  | _, _ => False

def Field.slot : Field → Slot
  | .dialect => .text
  | .description => .text
  | .kind => .kind
  | .minLength => .natural
  | .minItems => .natural
  | .uniqueItems => .flag
  | .items => .schema
  | .properties => .properties
  | .required => .names

theorem text_refuses (expected : String) {literal : Scalar} (h : ¬Slot.text.Accepts literal) :
    Refuses (Typed.string expected) literal := by
  cases literal with
  | string content => exact absurd trivial h
  | bool b => exact string_refuses expected fun c => (Scalar.heads_bool · |>.2.2)
  | number l => exact string_refuses expected fun c => (Scalar.heads_number · |>.2.2)

theorem kind_refuses_literal (budget : Nat) {literal : Scalar} (h : ¬Slot.kind.Accepts literal) :
    Refuses (readKind budget) literal := by
  cases literal with
  | string content => exact kind_refuses_string budget content fun k hk => h ⟨k, hk⟩
  | bool b => exact kind_refuses budget fun c => (Scalar.heads_bool · |>.2.2)
  | number l => exact kind_refuses budget fun c => (Scalar.heads_number · |>.2.2)

theorem natural_refuses_literal {literal : Scalar} (h : ¬Slot.natural.Accepts literal) :
    Refuses Typed.natural literal := by
  cases literal with
  | bool b =>
    exact natural_refuses fun c hc => ⟨(Scalar.heads_bool hc).1, (Scalar.heads_bool hc).2.1⟩
  | string content => exact natural_refuses fun c hc => by rw [show c = _ from hc]; decide
  | number l =>
    refine natural_refuses_number fun n hn => h ?_
    obtain ⟨hnegative, hfraction, hexponent, hwhole⟩ := (value?_eq_natural_iff l n).mp hn
    exact ⟨hnegative, hfraction, hexponent, hwhole ▸ n.toNat_lt⟩

theorem flag_refuses {literal : Scalar} (h : ¬Slot.flag.Accepts literal) :
    Refuses Typed.bool literal := by
  cases literal with
  | bool b => exact absurd trivial h
  | number l =>
    exact bool_refuses fun c hc => ⟨(Scalar.heads_number hc).1, (Scalar.heads_number hc).2.1⟩
  | string content => exact bool_refuses fun c hc => by rw [show c = _ from hc]; decide

/-- The reader of a field refuses the literals of other sorts. -/
theorem value_refuses (budget inner deep : Nat) {f : Field} {literal : Scalar}
    (h : ¬f.slot.Accepts literal) :
    Refuses (readValue budget (read inner) (readProperties budget (read deep)) f) literal := by
  cases f with
  | dialect => exact optional_refuses (text_refuses _ h)
  | description => exact optional_refuses (text_refuses _ h)
  | kind => exact optional_refuses (kind_refuses_literal budget h)
  | minLength => exact optional_refuses (natural_refuses_literal h)
  | minItems => exact optional_refuses (natural_refuses_literal h)
  | uniqueItems => exact optional_refuses (flag_refuses h)
  | items => exact optional_refuses (read_refuses inner literal)
  | properties => exact optional_refuses (enter_refuses _ budget _ (by decide) (by decide) literal)
  | required => exact optional_refuses (enter_refuses _ budget _ (by decide) (by decide) literal)

theorem optional_passes {α : Type} {value : Bytes → Except Failure (α × Bytes)} {literal : Scalar}
    (h : Passes value literal.chars) : Passes (Typed.optional value) literal.chars := by
  intro rest hr
  obtain ⟨a, ha⟩ := h rest hr
  obtain ⟨c, tail, hc, hheads⟩ := literal.exists_head
  rw [hc, List.cons_append] at ha ⊢
  refine ⟨some a, ?_⟩
  simp only [Typed.optional, skipBlanks_cons hheads.not_blank,
    if_neg (hheads.ne (d := byte 'n') (by decide) (by decide)), ha, ok_bind]

theorem accepts_natural {l : NumberLiteral} (h : Slot.natural.Accepts (.number l)) :
    Passes Typed.natural (Scalar.number l).chars := by
  obtain ⟨hnegative, hfraction, hexponent, hwhole⟩ := h
  obtain ⟨n, hn⟩ : ∃ n : UInt32, l.whole.number = n.toNat :=
    ⟨UInt32.ofNat l.whole.number, (UInt32.toNat_ofNat_of_lt' hwhole).symm⟩
  obtain ⟨m, hvalue, hm⟩ := Option.map_eq_some_iff.mp
    ((value?_eq_natural_iff l n).mpr ⟨hnegative, hfraction, hexponent, hn⟩)
  exact fun rest hr => ⟨n, natural_chars l hvalue hm hr⟩

/-- A field takes the literals of its sort, and no others. -/
theorem value_passes_iff (budget inner deep : Nat) {f : Field} {literal : Scalar} :
    Passes (readValue budget (read inner) (readProperties budget (read deep)) f) literal.chars ↔
      f.slot.Accepts literal := by
  constructor
  · intro h
    by_contra hl
    obtain ⟨a, ha⟩ := h [] rfl
    obtain ⟨cause, left, hfail⟩ := value_refuses budget inner deep hl [] rfl
    rw [ha] at hfail
    cases hfail
  · have htext (content : Slot.text.Accepts literal) :
        Passes (Typed.string "a string") literal.chars := by
      cases literal with
      | string body =>
        intro rest _
        rw [encode_quoted]
        exact ⟨_, typedString_chars _ body rest⟩
      | _ => cases content
    intro h
    cases f with
    | dialect => exact optional_passes (htext h)
    | description => exact optional_passes (htext h)
    | kind =>
      cases literal with
      | string content =>
        obtain ⟨k, rfl⟩ := h
        refine optional_passes fun rest _ => ⟨k, ?_⟩
        have hquote : isBlank (byte '"') = false := by decide
        rw [encode_quoted]
        simp only [readKind, skipBlanks_cons hquote, if_true]
        exact kindName_chars content rest
      | _ => cases h
    | minLength =>
      cases literal with
      | number l => exact optional_passes (accepts_natural h)
      | _ => cases h
    | minItems =>
      cases literal with
      | number l => exact optional_passes (accepts_natural h)
      | _ => cases h
    | uniqueItems =>
      cases literal with
      | bool b => exact optional_passes fun rest _ => by cases b <;> exact ⟨_, rfl⟩
      | _ => cases h
    | _ => cases literal <;> cases h

/-! The fields in order. -/

section Fields

variable {s : Schema} {cause : Cause} {path : List Segment}

/-- The values that a schema has are read. -/
theorem value_passes (hd : s.Distinct) {budget : Nat} {f : Field} {v : Json}
    (hv : s.value? f = some v) (hle : v.depth ≤ budget) :
    Passes (readValue budget (read budget) (readProperties budget (read (budget - 1))) f)
      v.compactChars := by
  intro rest hr
  have hitems : ∀ i, s.items = some i →
      Reads (read budget) (i.toJson .items) ((i.toJson .items).depth ≤ budget) i :=
    fun i hi => reads_schema i (hd.items hi) .items budget
  have hproperties : ∀ ps, s.properties = some ps →
      Reads (readProperties budget (read (budget - 1)))
        (.object (ps.map fun p => (p.1, p.2.document)))
        ((Json.object (ps.map fun p => (p.1, p.2.document))).depth ≤ budget) ps :=
    fun ps hps => reads_properties (hd.keys hps)
      (fun p hp => reads_schema p.2 (hd.property hps hp) .member) budget
  have hread := (reads_field hitems hproperties [] hv .nil (written_render blank_compact 0 v)
    hr).ok hle
  simp only [readField_eq_setting, setting, bind_eq_ok, Prod.exists] at hread
  obtain ⟨o, r, hvalue, hset⟩ := hread
  obtain ⟨-, rfl⟩ := Prod.mk.inj (Except.ok.inj hset)
  exact ⟨o, hvalue⟩

/-- The fields before are read, and so the fault is that of the field. -/
theorem namedFields_fails {value : (f : Field) → Bytes → Except Failure (Option f.Value × Bytes)}
    (hpass : ∀ g v, s.value? g = some v → Passes (value g) v.compactChars) {f : Field}
    {hole : List Char} {rest : Bytes}
    (hfail : FailsAt cause path (value f (Utf8.encode hole ++ rest))) {fields seen : List Field}
    (hd : (f :: fields).Nodup) (hseen : ∀ g ∈ f :: fields, g ∉ seen) (first : Bool) (t : Schema)
    {fuel : Nat} (hf : (s.written fields).length < fuel) :
    FailsAt cause (.key f.name :: path)
      (namedFields (setting value) fuel first seen t
        (Utf8.encode (comma first ++
            ended ((s.written fields).map fun p => entryChars (p.1, p.2.compactChars))) ++
          (Utf8.encode (entryChars (f.name, hole)) ++ rest))) := by
  induction fields generalizing seen first t fuel with
  | nil =>
    obtain ⟨fuel, rfl⟩ := Nat.exists_eq_add_one_of_ne_zero (Nat.ne_zero_of_lt hf)
    have hnew : f ∉ seen := hseen f List.mem_cons_self
    rw [written_nil, List.map_nil, ended, List.flatMap_nil, List.append_nil, namedFields,
      nextKey_named]
    simp only [ok_bind, Field.ofName?_name, if_neg hnew, colon_cons]
    exact ((hfail.bind _).inside (.key f.name)).bind _
  | cons g fields ih =>
    obtain ⟨hfg, hd⟩ := List.nodup_cons.mp hd
    obtain ⟨hg, hd⟩ := List.nodup_cons.mp hd
    have hfields : (f :: fields).Nodup :=
      List.nodup_cons.mpr ⟨fun hmem => hfg (List.mem_cons_of_mem g hmem), hd⟩
    obtain ⟨hfseen, hseen⟩ := List.forall_mem_cons.mp hseen
    obtain ⟨hgseen, hseen⟩ := List.forall_mem_cons.mp hseen
    cases hv : s.value? g with
    | none =>
      rw [written_cons_none hv] at hf ⊢
      exact ih hfields (List.forall_mem_cons.mpr ⟨hfseen, hseen⟩) first t hf
    | some v =>
      rw [written_cons_some hv] at hf ⊢
      obtain ⟨fuel, rfl⟩ := Nat.exists_eq_add_one_of_ne_zero (Nat.ne_zero_of_lt hf)
      obtain ⟨o, ho⟩ := hpass g v hv
        (Utf8.encode (comma false ++
            ended ((s.written fields).map fun p => entryChars (p.1, p.2.compactChars))) ++
          (Utf8.encode (entryChars (f.name, hole)) ++ rest)) (endsValue_comma _ _)
      have hnew : ∀ h ∈ f :: fields, h ∉ g :: seen := by
        rintro h hh (_ | ⟨_, hmem⟩)
        · obtain rfl | hh := List.mem_cons.mp hh
          · exact hfg List.mem_cons_self
          · exact hg hh
        · obtain rfl | hh := List.mem_cons.mp hh
          · exact hfseen hmem
          · exact hseen h hh hmem
      have hlater := ih hfields hnew false (t.set g o) (Nat.lt_of_succ_lt_succ hf)
      rw [List.map_cons, comma_ended, Utf8.encode_append, Utf8.encode_append, List.append_assoc,
        List.append_assoc, namedFields, nextKey_named]
      simp only [ok_bind, Field.ofName?_name, if_neg hgseen, colon_cons, setting, ho]
      exact hlater

end Fields

/-! Places in a document. -/

/-- The sort of the place that a path leads to from a schema: the schema itself, a field of it,
or a place in its items, in its properties or among its required names. -/
def slotAt : List Step → Slot
  | .member name :: path =>
    match Field.ofName? name, path with
    | some .items, path => slotAt path
    | some .properties, _ :: path => slotAt path
    | some .required, _ :: _ => .text
    | some f, _ => f.slot
    | none, _ => .schema
  | _ => .schema

theorem slotAt_field (f : Field) : slotAt [.member f.name] = f.slot := by
  cases f <;> rfl

def FailsAround {α : Type} (value : Bytes → Except Failure (α × Bytes)) (path : List Step)
    (front back : List Char) (literal : Scalar) : Prop :=
  ∀ rest, endsValue rest = true → ∃ cause, FailsAt cause (path.map Step.segment)
    (value (Utf8.encode (front ++ (literal.chars ++ back)) ++ rest))

theorem Refuses.failsAround {α : Type} {value : Bytes → Except Failure (α × Bytes)}
    {literal : Scalar} (h : Refuses value literal) : FailsAround value [] [] [] literal := by
  intro rest hr
  obtain ⟨cause, hfail⟩ := h rest hr
  refine ⟨cause, ?_⟩
  rwa [List.nil_append, List.append_nil]

/-- An optional value is at fault where the value is. -/
theorem FailsAround.optional {α : Type} {value : Bytes → Except Failure (α × Bytes)}
    {path : List Step} {v w : Json} {front back : List Char} {literal : Scalar}
    (h : FailsAround value path front back literal) (haround : Around path v w front back) :
    FailsAround (Typed.optional value) path front back literal := by
  intro rest hr
  obtain ⟨cause, hfail⟩ := h rest hr
  have hliteral : Starts (fun b => isBlank b = false ∧ b ≠ byte 'n') literal.chars := by
    obtain ⟨c, tail, hc, hheads⟩ := literal.exists_head
    exact ⟨c, tail, hc, hheads.not_blank, hheads.ne (by decide) (by decide)⟩
  obtain ⟨b, tail, hb, hblank, hne⟩ := haround.starts (by decide) (by decide) hliteral
  refine ⟨cause, ?_⟩
  rw [hb, List.cons_append] at hfail ⊢
  simp only [Typed.optional, skipBlanks_cons hblank, if_neg hne]
  exact hfail.bind _

/-- A member of a document is a field that is set, behind some of the others. -/
theorem exists_field {s : Schema} {position : Position} {before after : List (String × Json)}
    {k : String} {v : Json} (h : s.toJson position = .object (before ++ (k, v) :: after)) :
    ∃ fields f, before = s.written fields ∧ k = f.name ∧ s.value? f = some v ∧
      (f :: fields).Nodup := by
  rw [toJson_eq_written, object.injEq, written, List.filterMap_eq_append_iff] at h
  obtain ⟨fields, others, horder, hbefore, hothers⟩ := h
  obtain ⟨skipped, f, rest, rfl, -, hf, -⟩ := List.filterMap_eq_cons_iff.mp hothers
  obtain ⟨w, hw, hname⟩ := Option.map_eq_some_iff.mp hf
  obtain ⟨rfl, rfl⟩ := Prod.mk.inj hname
  have hnodup := fieldOrder_nodup position
  rw [horder, List.nodup_append] at hnodup
  refine ⟨fields, f, hbefore.symm, rfl, hw, List.nodup_cons.mpr ⟨fun hmem => ?_, hnodup.1⟩⟩
  exact hnodup.2.2 f hmem f (List.mem_append_right _ List.mem_cons_self) rfl

/-- With its bracket and the members before, a field's fault is that of the document. -/
theorem FailsAround.member {s : Schema} (hd : s.Distinct) {position : Position} {budget : Nat}
    (hle : (s.toJson position).depth ≤ budget + 1) {fields : List Field} {f : Field}
    (hnodup : (f :: fields).Nodup) {path : List Step} {front back after : List Char}
    (hafter : ∀ rest, endsValue (Utf8.encode after ++ rest) = true) {literal : Scalar}
    (h : FailsAround (readValue budget (read budget) (readProperties budget (read (budget - 1))) f)
      path front back literal) :
    FailsAround (read (budget + 1)) (.member f.name :: path)
      ('\x7b' :: (ended ((s.written fields).map fun p => entryChars (p.1, p.2.compactChars)) ++
        entryChars (f.name, front))) (back ++ after) literal := by
  intro rest _
  obtain ⟨cause, hfail⟩ := h (Utf8.encode after ++ rest) (hafter rest)
  refine ⟨cause, ?_⟩
  have hpass : ∀ g v, s.value? g = some v →
      Passes (readValue budget (read budget) (readProperties budget (read (budget - 1))) g)
        v.compactChars :=
    fun g v hv => value_passes hd hv (depth_toJson_le_iff.mp hle g v hv)
  have hfuel := length_lt_ended ((s.written fields).map fun p => entryChars (p.1, p.2.compactChars))
    (Utf8.encode (entryChars (f.name, front ++ (literal.chars ++ back))) ++
      (Utf8.encode after ++ rest))
  rw [List.length_map] at hfuel
  have hfields := namedFields_fails hpass hfail hnodup (fun _ _ => List.not_mem_nil) true {} hfuel
  have hopen : isBlank (byte '\x7b') = false := by decide
  have hne : byte '\x7b' ≠ byte '[' := by decide
  rw [encode_part (by decide), named_append, read_succ, readField_eq_setting]
  simp only [readWith, skipBlanks_cons hopen, or_true, if_true, if_neg hne]
  exact hfields.bind _

/-- In the part at the path of a value that has to be of the sort, the reader fails for every
literal of another sort. -/
def Guards {α : Type} (slot : Slot) (value : Nat → Bytes → Except Failure (α × Bytes)) (v : Json)
    (path : List Step) (front back : List Char) : Prop :=
  ∀ literal, ¬slot.Accepts literal → ∀ budget, v.depth ≤ budget →
    FailsAround (value budget) path front back literal

/-- The required names. -/
theorem guards_names {names : List String} {before after : List Json} {u w : Json}
    (hnames : names.map Json.string = before ++ u :: after) {path : List Step}
    {front back : List Char} (h : Around path u w front back) :
    path = [] ∧ Guards .text (fun budget => Typed.optional (readNames budget))
      (.array (before ++ u :: after)) (.item before.length :: path)
      ('[' :: (ended (before.map Json.compactChars) ++ front))
      (back ++ (led (after.map Json.compactChars) ++ [']'])) := by
  obtain ⟨fronts, others, rfl, rfl, hothers⟩ := List.map_eq_append_iff.mp hnames
  obtain ⟨name, backs, rfl, rfl, rfl⟩ := List.map_eq_cons_iff.mp hothers
  have hpath : path = [] ∧ front = [] ∧ back = [] := by
    cases h
    exact ⟨rfl, rfl, rfl⟩
  obtain ⟨rfl, rfl, rfl⟩ := hpath
  refine ⟨rfl, fun literal hl budget hle => FailsAround.optional ?_ (.item _ _ h)⟩
  intro rest hr
  obtain ⟨n, rfl⟩ : ∃ n, budget = n + 1 :=
    Nat.exists_eq_add_one_of_ne_zero (Nat.ne_zero_of_lt (Nat.lt_of_lt_of_le (Nat.succ_pos _) hle))
  obtain ⟨cause, hfail⟩ := (text_refuses "a string" hl).failsAround
    (Utf8.encode (led ((backs.map Json.string).map Json.compactChars) ++ [']']) ++ rest)
    (endsValue_led _ (.inl rfl) rest)
  have hbefore : ∀ t ∈ (fronts.map Json.string).map Json.compactChars,
      Opens t ∧ Passes (Typed.string "a string") t := by
    intro t ht
    simp only [List.mem_map] at ht
    obtain ⟨_, ⟨x, -, rfl⟩, rfl⟩ := ht
    refine ⟨opens_compact _, fun rest hr => ⟨x, ?_⟩⟩
    exact (reads_string "a string" x .nil (written_render blank_compact 0 _) hr).ok trivial
  have harray := array_fails hbefore (literal.opens.append []) hfail
  have hopen : isBlank (byte '[') = false := by decide
  rw [List.length_map] at harray
  refine ⟨cause, ?_⟩
  rw [encode_part (by decide)]
  simp only [readNames, Typed.enter, skipBlanks_cons hopen, if_true]
  exact harray

def Guarded (s : Schema) (position : Position) : Prop :=
  ∀ ⦃path w front back⦄, Around path (s.toJson position) w front back →
    Guards (slotAt path) read (s.toJson position) path front back

/-- The schemas of properties. -/
theorem guards_properties {ps : List (String × Schema)} (hd : ∀ p ∈ ps, p.2.Distinct)
    (hguarded : ∀ p ∈ ps, Guarded p.2 .member) {before after : List (String × Json)} {k : String}
    {u w : Json} (hps : ps.map (fun p => (p.1, p.2.document)) = before ++ (k, u) :: after)
    {path : List Step} {front back : List Char} (h : Around path u w front back) :
    Guards (slotAt path) (fun budget => Typed.optional (readProperties budget (read (budget - 1))))
      (.object (before ++ (k, u) :: after)) (.member k :: path)
      ('\x7b' :: (ended (before.map fun p => entryChars (p.1, p.2.compactChars)) ++
        entryChars (k, front)))
      (back ++ (led (after.map fun p => entryChars (p.1, p.2.compactChars)) ++ ['\x7d'])) := by
  obtain ⟨fronts, others, rfl, rfl, hothers⟩ := List.map_eq_append_iff.mp hps
  obtain ⟨p, backs, rfl, hp, rfl⟩ := List.map_eq_cons_iff.mp hothers
  obtain ⟨rfl, rfl⟩ := Prod.mk.inj hp
  have hguards := hguarded p (List.mem_append_right _ List.mem_cons_self) h
  refine fun literal hl budget hle => FailsAround.optional ?_ (.member _ _ _ h)
  intro rest hr
  cases budget with
  | zero => exact absurd hle (Nat.not_succ_le_zero _)
  | succ n =>
    rw [depth_object_le_succ, List.forall_mem_append, List.forall_mem_cons, List.forall_mem_map]
      at hle
    obtain ⟨cause, hfail⟩ := hguards literal hl n hle.2.1
      (Utf8.encode (led ((backs.map fun p => (p.1, p.2.document)).map
        fun p => entryChars (p.1, p.2.compactChars)) ++ ['\x7d']) ++ rest)
      (endsValue_led _ (.inr rfl) rest)
    have hbefore : ∀ t ∈ fronts.map fun p => (p.1, p.2.document.compactChars),
        Passes (read n) t.2 := by
      refine List.forall_mem_map.mpr fun q hq rest hr => ⟨q.2, ?_⟩
      exact (reads_schema q.2 (hd q (List.mem_append_left _ hq)) .member n .nil
        (written_render blank_compact 0 _) hr).ok (hle.1 q hq)
    have hobject := object_fails hbefore p.1 hfail
    have hopen : isBlank (byte '\x7b') = false := by decide
    rw [List.map_map] at hobject
    refine ⟨cause, ?_⟩
    rw [encode_part (by decide), named_append, List.map_map]
    simp only [readProperties, Typed.enter, skipBlanks_cons hopen, if_true, Nat.add_sub_cancel]
    exact hobject

/-- The value of a field. -/
theorem guards_field {s : Schema} (hd : s.Distinct)
    (hitems : ∀ i, s.items = some i → Guarded i .items)
    (hproperties : ∀ ps, s.properties = some ps → ∀ p ∈ ps, Guarded p.2 .member) {f : Field}
    {v w : Json} (hv : s.value? f = some v) {path : List Step} {front back : List Char}
    (h : Around path v w front back) :
    Guards (slotAt (.member f.name :: path))
      (fun budget => readValue budget (read budget) (readProperties budget (read (budget - 1))) f)
      v path front back := by
  cases h with
  | here =>
    rw [slotAt_field]
    exact fun literal hl budget _ => (value_refuses budget budget (budget - 1) hl).failsAround
  | item before after h =>
    cases f with
    | required =>
      obtain ⟨names, hnames, harray⟩ := Option.map_eq_some_iff.mp hv
      obtain ⟨rfl, hguards⟩ := guards_names (Json.array.inj harray) h
      exact hguards
    | items =>
      obtain ⟨i, -, hi⟩ := Option.map_eq_some_iff.mp hv
      rw [toJson_eq_written] at hi
      cases hi
    | _ =>
      obtain ⟨a, -, ha⟩ := Option.map_eq_some_iff.mp hv
      cases ha
  | member before k after h =>
    cases f with
    | items =>
      obtain ⟨i, hi, hdocument⟩ := Option.map_eq_some_iff.mp hv
      have haround := Around.member before k after h
      rw [← hdocument] at haround ⊢
      exact fun literal hl budget hle =>
        (hitems i hi haround literal hl budget hle).optional haround
    | properties =>
      obtain ⟨ps, hps, hobject⟩ := Option.map_eq_some_iff.mp hv
      exact guards_properties (fun p hp => hd.property hps hp) (hproperties ps hps)
        (Json.object.inj hobject) h
    | _ =>
      obtain ⟨a, -, ha⟩ := Option.map_eq_some_iff.mp hv
      cases ha

theorem guarded (s : Schema) (hd : s.Distinct) (position : Position) : Guarded s position := by
  induction s using parts_induction generalizing position with
  | step s hitems hproperties =>
    intro path w front back h
    generalize hdocument : s.toJson position = v at h ⊢
    cases h with
    | here => exact fun literal _ budget _ => (read_refuses budget literal).failsAround
    | item before after h =>
      rw [toJson_eq_written] at hdocument
      cases hdocument
    | member before k after h =>
      obtain ⟨fields, f, rfl, rfl, hv, hnodup⟩ := exists_field hdocument
      have hguards := guards_field hd (fun i hi => hitems i hi (hd.items hi) .items)
        (fun ps hps p hp => hproperties ps hps p hp (hd.property hps hp) .member) hv h
      intro literal hl budget hle
      rw [← hdocument] at hle
      cases budget with
      | zero => exact absurd hle (Nat.not_le_of_lt (depth_toJson_pos s position))
      | succ n =>
        have hfield := hguards literal hl n (depth_toJson_le_iff.mp hle f _ hv)
        exact hfield.member hd hle hnodup (endsValue_led _ (.inr rfl))

def tooLarge : NumberLiteral :=
  { edge with
    fraction := none
    exponent := some ⟨false, .absent, ⟨"999".toList, by decide, List.all_eq_true.mp rfl⟩⟩ }

theorem tooLarge_beyond : tooLarge.value? = none := by decide +kernel

/-- Every part of a value has its place in the compact text. Where a literal that does not fit
takes the place of a part of a schema's document, the text is refused at the path of the part.
Where a number that is too large takes the place of a part of any value, the value's text is
refused at the path of the part, for the number's range. -/
theorem ofText_names_place :
    (∀ s : Schema, s.Distinct → s.document.depth ≤ 127 →
      ∀ path w, at? path s.document = some w →
        (∃ front back, Around path s.document w front back ∧
          s.document.compact = String.ofList (front ++ (w.compact.toList ++ back))) ∧
        ∀ front back, Around path s.document w front back →
          ∀ literal, ¬(slotAt path).Accepts literal →
            ∃ e reason, ofText (String.ofList (front ++ (literal.chars ++ back))) = .error e ∧
              e.message =
                "at JSON path " ++ Path.text (path.map Step.segment) ++ " → " ++ reason) ∧
    (∀ v : Json, v.Distinct → v.depth ≤ 127 →
      ∀ path w, at? path v = some w →
        (∃ front back, Around path v w front back ∧
          v.compact = String.ofList (front ++ (w.compact.toList ++ back))) ∧
        ∀ front back, Around path v w front back →
          ∃ e place, Json.ofText (String.ofList (front ++ ("1e999".toList ++ back))) = .error e ∧
            e.message = "at JSON path " ++ Path.text (path.map Step.segment) ++ " → " ++
              ("number out of range" ++ place)) := by
  have htext {v : Json} {path : List Step} {w : Json} (h : at? path v = some w) :
      ∃ front back, Around path v w front back ∧
        v.compact = String.ofList (front ++ (w.compact.toList ++ back)) := by
    obtain ⟨front, back, haround⟩ := exists_around h
    refine ⟨front, back, haround, ?_⟩
    rw [compact, compact, String.toList_ofList]
    exact congrArg String.ofList haround.compactChars_eq
  refine ⟨fun s hd hle path w hw => ⟨htext hw, fun front back haround literal hl => ?_⟩,
    fun v hd hle path w hw => ⟨htext hw, fun front back haround => ?_⟩⟩
  · obtain ⟨cause, hfail⟩ := guarded s hd .member haround literal hl maxDepth hle [] rfl
    obtain ⟨e, he, -, hpath⟩ := readWhole_fails hfail
    exact ⟨e, e.reason, he, ReadError.message_of_path hpath⟩
  · have hliteral : tooLarge.chars = "1e999".toList := rfl
    have hend : endsValue [] = true := rfl
    have hfail := Json.read_fails haround hd hle (opens_number tooLarge)
      (fun budget rest hr => read_beyond tooLarge_beyond budget hr) hend
    rw [hliteral] at hfail
    obtain ⟨e, he, hcause, hpath⟩ := readWhole_fails hfail
    obtain ⟨place, hreason⟩ := e.exists_reason
    refine ⟨e, place, he, ?_⟩
    rw [ReadError.message_of_path hpath, hreason, hcause]
    rfl

def rowSchema : Schema :=
  { items := some {
      properties := some [("a.b", { minLength := some 3 })]
      required := some ["x", "y"] } }

def minusThree : NumberLiteral where
  negative := true
  whole := ⟨['3'], by decide, List.all_eq_true.mp rfl⟩
  fraction := none
  exponent := none
  leading := by decide

/-- A number below zero for a length, and a number too large for a member of an item. -/
theorem ofText_names_place_deep :
    (∃ e reason, ofText ("\x7b\"items\":\x7b\"required\":[\"x\",\"y\"]," ++
        "\"properties\":\x7b\"a.b\":\x7b\"minLength\":-3\x7d\x7d\x7d\x7d") = .error e ∧
      e.message = "at JSON path items.properties.a.b.minLength → " ++ reason) ∧
    ∃ e place, Json.ofText "[null,\x7b\"k\":1e999\x7d]" = .error e ∧
      e.message = "at JSON path [1].k → " ++ ("number out of range" ++ place) := by
  obtain ⟨hschema, hvalue⟩ := ofText_names_place
  constructor
  · have hd : rowSchema.Distinct := by
      simp [rowSchema, Distinct, DistinctItems, DistinctProperties, DistinctMembers, Members.keys]
    have hle : rowSchema.document.depth ≤ 127 := by decide
    have hlength : at? [.member "items", .member "properties", .member "a.b", .member "minLength"]
        rowSchema.document = some (natural 3) := rfl
    have haround := Around.member [] "items" []
      (.member [("required", .array [.string "x", .string "y"])] "properties" []
        (.member [] "a.b" [] (.member [] "minLength" [] (.here (natural 3)))))
    have hl : ¬Slot.natural.Accepts (.number minusThree) := fun h => Bool.noConfusion h.1
    obtain ⟨e, reason, he, hmessage⟩ :=
      (hschema rowSchema hd hle _ _ hlength).2 _ _ haround (.number minusThree) hl
    exact ⟨e, reason, he, hmessage⟩
  · have hd : (Json.array [.null, .object [("k", .bool true)]]).Distinct := by decide
    have haround := Around.item [.null] [] (.member [] "k" [] (.here (.bool true)))
    obtain ⟨e, place, he, hmessage⟩ :=
      (hvalue _ hd (by decide) [.item 1, .member "k"] _ rfl).2 _ _ haround
    exact ⟨e, place, he, hmessage⟩

end SchemaByExample.Schema
