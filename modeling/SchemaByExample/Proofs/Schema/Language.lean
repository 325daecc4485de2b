import SchemaByExample.Proofs.Json.Decoding
import SchemaByExample.Proofs.Schema.Fields

/-! The texts of schemas. The reader takes exactly the texts whose tree is that of a schema: an
object of the fields that are given, none twice, or an array of the values of the first of
them. -/
namespace SchemaByExample.Schema

open Json Read Literal

/-! A schema by its fields. -/

def Field.Value : Field → Type
  | .dialect => String
  | .description => String
  | .kind => Kind
  | .minLength => UInt32
  | .minItems => UInt32
  | .uniqueItems => Bool
  | .items => Schema
  | .properties => Members Schema
  | .required => List String

def get (s : Schema) : (f : Field) → Option f.Value
  | .dialect => s.dialect
  | .description => s.description
  | .kind => s.kind
  | .minLength => s.minLength
  | .minItems => s.minItems
  | .uniqueItems => s.uniqueItems
  | .items => s.items
  | .properties => s.properties
  | .required => s.required

def set (s : Schema) : (f : Field) → Option f.Value → Schema
  | .dialect, o => { s with dialect := o }
  | .description, o => { s with description := o }
  | .kind, o => { s with kind := o }
  | .minLength, o => { s with minLength := o }
  | .minItems, o => { s with minItems := o }
  | .uniqueItems, o => { s with uniqueItems := o }
  | .items, o => { s with items := o }
  | .properties, o => { s with properties := o }
  | .required, o => { s with required := o }

@[simp] theorem get_set_self (s : Schema) (f : Field) (o : Option f.Value) :
    (s.set f o).get f = o := by
  cases f <;> rfl

theorem get_set_of_ne (s : Schema) {f g : Field} (h : g ≠ f) (o : Option f.Value) :
    (s.set f o).get g = s.get g := by
  cases f <;> cases g <;> first | rfl | exact absurd rfl h

@[simp] theorem get_empty (f : Field) : ({} : Schema).get f = none := by
  cases f <;> rfl

theorem eq_of_get_eq {s t : Schema} (h : ∀ f, s.get f = t.get f) : s = t := by
  cases s
  cases t
  simp only [mk.injEq]
  exact ⟨h .dialect, h .description, h .kind, h .minLength, h .minItems, h .uniqueItems,
    h .items, h .properties, h .required⟩

/-! Trees of schemas. -/

/-- A kind is given by its name, or by an object with the name as its only member and null as
its value. -/
inductive IsKind : Json → Kind → Prop
  | name (k : Kind) : IsKind (.string k.name) k
  | member (k : Kind) : IsKind (.object [(k.name, .null)]) k

mutual

inductive IsNode : Json → Schema → Prop
  | object {given : List (Field × Json)} {s : Schema} :
      (given.map Prod.fst).Nodup → (∀ p ∈ given, IsValue p.1 p.2 (s.get p.1)) →
        (∀ f ∉ given.map Prod.fst, s.get f = none) →
          IsNode (.object (given.map fun p => (p.1.name, p.2))) s
  | array {values : List Json} {s : Schema} :
      values.length ≤ 9 → (∀ p ∈ Field.all.zip values, IsValue p.1 p.2 (s.get p.1)) →
        (∀ f ∉ (Field.all.zip values).map Prod.fst, s.get f = none) → IsNode (.array values) s

/-- The tree is one of the value of the field, null if it has none. -/
inductive IsValue : (f : Field) → Json → Option f.Value → Prop
  | null (f : Field) : IsValue f .null none
  | dialect (s : String) : IsValue .dialect (.string s) (some s)
  | description (s : String) : IsValue .description (.string s) (some s)
  | kind {v : Json} {k : Kind} : IsKind v k → IsValue .kind v (some k)
  | minLength (n : UInt32) : IsValue .minLength (.natural n) (some n)
  | minItems (n : UInt32) : IsValue .minItems (.natural n) (some n)
  | uniqueItems (b : Bool) : IsValue .uniqueItems (.bool b) (some b)
  | items {v : Json} {s : Schema} : IsNode v s → IsValue .items v (some s)
  | properties {ps : List (String × Json × Schema)} : (∀ p ∈ ps, IsNode p.2.1 p.2.2) →
      IsValue .properties (.object (ps.map fun p => (p.1, p.2.1)))
        (some (Members.ofPairs (ps.map fun p => (p.1, p.2.2))))
  | required (names : List String) :
      IsValue .required (.array (names.map .string)) (some names)

end

/-! Readers of the values of fields. -/

theorem name_of_kindOfName {name : String} {k : Kind} (h : Kind.ofName? name = some k) :
    name = k.name := by
  have hname := List.find?_some h
  exact (beq_iff_eq.mp hname).symm

theorem name_of_fieldOfName {name : String} {f : Field} (h : Field.ofName? name = some f) :
    name = f.name := by
  have hname := List.find?_some h
  exact (beq_iff_eq.mp hname).symm

theorem kindName_blanks {bl : Bytes} (hbl : Blanks bl) (bytes : Bytes) :
    kindName (bl ++ bytes) = kindName bytes := by
  rw [kindName, kindName, (decodes_string _ 0).blanks hbl]

theorem kindName_chars {body : List Char} {k : Kind} (h : Content body k.name.toList)
    (rest : Bytes) :
    kindName (byte '"' :: (Utf8.encode body ++ byte '"' :: rest)) = .ok (k, rest) := by
  rw [kindName, typedString_chars _ h, String.ofList_toList]
  simp only [ok_bind, Kind.ofName?_name]

theorem string_of_kindName {k : Kind} {bytes rest : Bytes} (h : kindName bytes = .ok (k, rest)) :
    Typed.string "variant identifier" bytes = .ok (k.name, rest) := by
  simp only [kindName, bind_eq_ok, Prod.exists] at h
  obtain ⟨name, r, hname, h⟩ := h
  split at h
  · rename_i k' hk
    cases h
    rwa [← name_of_kindOfName hk]
  · cases h

theorem readKind_member {budget : Nat} {k : Kind} {text : List Char}
    (h : VerbatimMembers true text [(k.name, .null)]) (rest : Bytes) :
    readKind (budget + 1) (byte '\x7b' :: (Utf8.encode text ++ rest)) = .ok (k, rest) := by
  have hbrace : isBlank (byte '\x7b') = false := by decide
  have hne : byte '\x7b' ≠ byte '"' := by decide
  obtain ⟨front, name, bl, bl', body, more, hs, hname, hbl, hbl', hnull, hmore, htext⟩ :=
    exists_member_of_verbatim h
  have hend := endsValue_verbatimMembers hmore rest
  have hread := (decodes_null budget).complete (a := ()) hnull rfl (Nat.zero_le _) hend
  rw [htext]
  cases hs with
  | first hfront =>
    cases hmore with
    | nil hspace =>
      rw [Utf8.encode_append, List.append_assoc] at hread ⊢
      simp only [readKind, skipBlanks_cons hbrace, if_neg hne, if_true, kindName_blanks hfront,
        kindName_chars hname, ok_bind, colon_blanks hbl, (decodes_null budget).blanks hbl', hread,
        inside_ok, skipBlanks_append (blanks_of_space hspace)]
      rfl

theorem begins_kindMember {k : Kind} {bytes name value close rest : Bytes} {u u' : Unit}
    (hkind : kindName bytes = .ok (k, name)) (hcolon : colon name = .ok (u, value))
    (hnull : Typed.null value = .ok (u', close)) (hclose : skipBlanks close = byte '\x7d' :: rest) :
    Begins (byte '\x7b' :: bytes) (.object [(k.name, .null)]) rest := by
  obtain ⟨bl, hbl, rfl⟩ := exists_space hclose
  obtain ⟨front, body, hfront, hbody, rfl⟩ := exists_quoted (string_of_kindName hkind)
  obtain ⟨v, hv, rfl, -⟩ := (decodes_null 0).sound hnull
  have hmore : VerbatimMembers false (bl ++ ['\x7d']) [] := .nil hbl
  have hend : Utf8.encode bl ++ byte '\x7d' :: rest = Utf8.encode (bl ++ ['\x7d']) ++ rest := by
    rw [Utf8.encode_append, List.append_assoc]
    rfl
  rw [hend] at hv
  obtain ⟨text, htext, hbytes⟩ := exists_verbatimMembers_cons (.first hfront) hbody hcolon hv hmore
  rw [hbytes]
  exact begins_object htext rest

theorem decodes_kind (budget : Nat) : Decodes budget IsKind (readKind budget) where
  blanks hbl bytes := by simp only [readKind, skipBlanks_append hbl]
  complete := by
    intro text v k rest hv hk hle _
    cases hk with
    | name =>
      generalize hname : k.name = name at hv
      cases hv with
      | string hbody =>
        have hquote : isBlank (byte '"') = false := by decide
        rw [encode_ascii_cons (by decide), Utf8.encode_append, List.cons_append,
          List.append_assoc]
        simp only [readKind, skipBlanks_cons hquote, if_true]
        refine kindName_chars ?_ rest
        rwa [hname, String.toList_ofList]
    | member =>
      cases hv with
      | object hmembers =>
        cases budget with
        | zero => simp [depth] at hle
        | succ budget =>
          rw [encode_ascii_cons (by decide), List.cons_append]
          exact readKind_member hmembers rest
  sound := by
    intro bytes k rest h
    unfold readKind at h
    split at h
    · cases h
    rename_i b tail hb
    split at h
    · obtain ⟨v, hv, rfl, -⟩ := (decodes_string _ budget).sound (string_of_kindName h)
      exact ⟨_, hv.behind hb, .name k, Nat.zero_le _⟩
    split at h
    · rename_i hbrace
      subst hbrace
      cases budget with
      | zero => cases h
      | succ budget =>
        simp only [bind_eq_ok, inside_eq_ok, Prod.exists] at h
        obtain ⟨k', r, hkind, _, r1, hcolon, u, r2, hnull, h⟩ := h
        split at h
        · cases h
        rename_i c tail' hc
        split at h
        · rename_i hclose
          subst hclose
          cases h
          exact ⟨_, (begins_kindMember hkind hcolon hnull hc).behind hb, .member k,
            Nat.succ_le_succ (Nat.zero_le _)⟩
        · cases h
    · cases h

theorem decodes_names (budget : Nat) : Decodes budget
    (fun v names => v = .array (names.map .string)) (readNames budget) := by
  refine (decodes_array "a sequence" fun n _ => decodes_string "a string" n).congr fun v names => ?_
  constructor
  · rintro ⟨xs, rfl, rfl, hxs⟩
    rw [List.map_map]
    exact congrArg Json.array (List.map_congr_left hxs)
  · rintro rfl
    refine ⟨names.map fun name => (.string name, name), ?_, ?_,
      List.forall_mem_map.mpr fun _ _ => rfl⟩
    · rw [List.map_map]
      rfl
    · rw [List.map_map]
      exact (List.map_id names).symm

/-- The properties are an object of schemas; of properties of one name the last stays, at the
place of the first. -/
def AreNodes (v : Json) (properties : Members Schema) : Prop :=
  ∃ ps : List (String × Json × Schema), v = .object (ps.map fun p => (p.1, p.2.1)) ∧
    properties = Members.ofPairs (ps.map fun p => (p.1, p.2.2)) ∧ ∀ p ∈ ps, IsNode p.2.1 p.2.2

def readValue (budget : Nat) (schema : Bytes → Except Failure (Schema × Bytes))
    (properties : Bytes → Except Failure (Members Schema × Bytes)) :
    (f : Field) → Bytes → Except Failure (Option f.Value × Bytes)
  | .dialect => Typed.optional (Typed.string "a string")
  | .description => Typed.optional (Typed.string "a string")
  | .kind => Typed.optional (readKind budget)
  | .minLength => Typed.optional Typed.natural
  | .minItems => Typed.optional Typed.natural
  | .uniqueItems => Typed.optional Typed.bool
  | .items => Typed.optional schema
  | .properties => Typed.optional properties
  | .required => Typed.optional (readNames budget)

theorem decodes_orNull {budget : Nat} (f : Field) {means : Json → f.Value → Prop}
    {value : Bytes → Except Failure (f.Value × Bytes)} (h : Decodes budget means value)
    (hnull : ∀ a, ¬means .null a) (hmeans : ∀ v a, means v a ↔ IsValue f v (some a)) :
    Decodes budget (IsValue f) (Typed.optional value) := by
  refine (decodes_optional h hnull).congr fun v o => ?_
  constructor
  · rintro (_ | ha)
    · exact .null f
    · exact (hmeans _ _).mp ha
  · intro ho
    cases o with
    | none =>
      cases ho
      exact .null
    | some a => exact .some ((hmeans v a).mpr ho)

section Values

variable {budget : Nat} {schema : Bytes → Except Failure (Schema × Bytes)}
  {properties : Bytes → Except Failure (Members Schema × Bytes)}

theorem decodes_value (hschema : Decodes budget IsNode schema)
    (hproperties : Decodes budget AreNodes properties) (f : Field) :
    Decodes budget (IsValue f) (readValue budget schema properties f) := by
  cases f with
  | dialect =>
    refine decodes_orNull .dialect (decodes_string _ _) nofun fun v s => ?_
    exact ⟨fun h => h ▸ .dialect s, fun | .dialect _ => rfl⟩
  | description =>
    refine decodes_orNull .description (decodes_string _ _) nofun fun v s => ?_
    exact ⟨fun h => h ▸ .description s, fun | .description _ => rfl⟩
  | kind =>
    refine decodes_orNull .kind (decodes_kind _) nofun fun v k => ?_
    exact ⟨.kind, fun | .kind h => h⟩
  | minLength =>
    refine decodes_orNull .minLength (decodes_natural _) nofun fun v n => ?_
    exact ⟨fun h => h ▸ .minLength n, fun | .minLength _ => rfl⟩
  | minItems =>
    refine decodes_orNull .minItems (decodes_natural _) nofun fun v n => ?_
    exact ⟨fun h => h ▸ .minItems n, fun | .minItems _ => rfl⟩
  | uniqueItems =>
    refine decodes_orNull .uniqueItems (decodes_bool _) nofun fun v b => ?_
    exact ⟨fun h => h ▸ .uniqueItems b, fun | .uniqueItems _ => rfl⟩
  | items =>
    refine decodes_orNull .items hschema nofun fun v s => ?_
    exact ⟨.items, fun | .items h => h⟩
  | properties =>
    refine decodes_orNull .properties hproperties nofun fun v ps => ?_
    constructor
    · rintro ⟨ps, rfl, rfl, hps⟩
      exact .properties hps
    · rintro (_ | _)
      exact ⟨_, rfl, rfl, ‹_›⟩
  | required =>
    refine decodes_orNull .required (decodes_names _) nofun fun v names => ?_
    exact ⟨fun h => h ▸ .required names, fun | .required _ => rfl⟩

end Values

def setting (value : (f : Field) → Bytes → Except Failure (Option f.Value × Bytes)) : FieldReader :=
  fun s f bytes => value f bytes >>= fun p => .ok (s.set f p.1, p.2)

theorem readField_eq_setting (budget : Nat) (schema : Bytes → Except Failure (Schema × Bytes))
    (properties : Bytes → Except Failure (Members Schema × Bytes)) :
    readField budget schema properties = setting (readValue budget schema properties) := by
  funext s f bytes
  cases f <;> rfl

/-! The fields one after the other. -/

/-- With the given values of some fields, none of them twice, one schema becomes another. -/
structure Gives (budget : Nat) (s : Schema) (given : List (Field × Json)) (t : Schema) : Prop where
  nodup : (given.map Prod.fst).Nodup
  value : ∀ p ∈ given, IsValue p.1 p.2 (t.get p.1) ∧ p.2.depth ≤ budget
  others : ∀ f ∉ given.map Prod.fst, t.get f = s.get f

theorem gives_nil_iff {budget : Nat} {s t : Schema} : Gives budget s [] t ↔ t = s := by
  constructor
  · intro h
    exact eq_of_get_eq fun f => h.others f List.not_mem_nil
  · rintro rfl
    exact ⟨List.nodup_nil, List.forall_mem_nil _, fun _ _ => rfl⟩

theorem gives_cons_iff {budget : Nat} {s t : Schema} {f : Field} {v : Json}
    {given : List (Field × Json)} : Gives budget s ((f, v) :: given) t ↔
      f ∉ given.map Prod.fst ∧ IsValue f v (t.get f) ∧ v.depth ≤ budget ∧
        Gives budget (s.set f (t.get f)) given t := by
  constructor
  · intro h
    obtain ⟨hf, hnodup⟩ := List.nodup_cons.mp h.nodup
    obtain ⟨⟨hv, hle⟩, hgiven⟩ := List.forall_mem_cons.mp h.value
    refine ⟨hf, hv, hle, hnodup, hgiven, fun g hg => ?_⟩
    by_cases hgf : g = f
    · subst hgf
      rw [get_set_self]
    · rw [get_set_of_ne s hgf]
      exact h.others g (List.not_mem_cons_of_ne_of_not_mem hgf hg)
  · rintro ⟨hf, hv, hle, h⟩
    refine ⟨List.nodup_cons.mpr ⟨hf, h.nodup⟩, List.forall_mem_cons.mpr ⟨⟨hv, hle⟩, h.value⟩, ?_⟩
    intro g hg
    obtain ⟨hgf, hg⟩ := not_or.mp (mt List.mem_cons.mpr hg)
    rw [h.others g hg, get_set_of_ne s hgf]

theorem Gives.cons {budget : Nat} {s s' t : Schema} {f : Field} {v : Json}
    {given : List (Field × Json)} (h : Gives budget s' given t) (hf : f ∉ given.map Prod.fst)
    (hvalue : IsValue f v (s'.get f)) (hle : v.depth ≤ budget) (hset : s' = s.set f (s'.get f)) :
    Gives budget s ((f, v) :: given) t := by
  have hsame : t.get f = s'.get f := h.others f hf
  refine gives_cons_iff.mpr ⟨hf, ?_, hle, ?_⟩
  · rwa [hsame]
  · rwa [hsame, ← hset]

theorem map_fst_zip_sublist {α β : Type} (as : List α) (bs : List β) :
    ((as.zip bs).map Prod.fst).Sublist as := by
  induction as generalizing bs with
  | nil => exact .slnil
  | cons a as ih =>
    cases bs with
    | nil => exact List.nil_sublist _
    | cons b bs => exact (ih bs).cons_cons a

section Loops

variable {budget : Nat} {value : (f : Field) → Bytes → Except Failure (Option f.Value × Bytes)}
  (h : ∀ f, Decodes budget (IsValue f) (value f))

include h

theorem setting_blanks (s : Schema) (f : Field) {bl : Bytes} (hbl : Blanks bl) (bytes : Bytes) :
    setting value s f (bl ++ bytes) = setting value s f bytes := by
  rw [setting, (h f).blanks hbl]
  rfl

theorem setting_complete {f : Field} {text : List Char} {v : Json} {s t : Schema}
    (hv : Verbatim text v) (ht : IsValue f v (t.get f)) (hle : v.depth ≤ budget) {rest : Bytes}
    (hr : endsValue rest = true) :
    setting value s f (Utf8.encode text ++ rest) = .ok (s.set f (t.get f), rest) := by
  rw [setting, (h f).complete hv ht hle hr]
  rfl

theorem setting_sound {f : Field} {s t : Schema} {bytes rest : Bytes}
    (hread : setting value s f bytes = .ok (t, rest)) :
    ∃ v, Begins bytes v rest ∧ IsValue f v (t.get f) ∧ v.depth ≤ budget ∧
      t = s.set f (t.get f) := by
  simp only [setting, bind_eq_ok, Prod.exists] at hread
  obtain ⟨o, r, hvalue, hread⟩ := hread
  cases hread
  obtain ⟨v, hv, ho, hle⟩ := (h f).sound hvalue
  exact ⟨v, hv, by rwa [get_set_self], hle, by rw [get_set_self]⟩

theorem namedFields_complete {given : List (Field × Json)} {s t : Schema}
    (hgives : Gives budget s given t) {first : Bool} {text : List Char}
    (hv : VerbatimMembers first text (given.map fun p => (p.1.name, p.2))) {seen : List Field}
    (hseen : ∀ f ∈ given.map Prod.fst, f ∉ seen) (rest : Bytes) {fuel : Nat}
    (hf : given.length < fuel) :
    namedFields (setting value) fuel first seen s (Utf8.encode text ++ rest) =
      .ok (t, byte '\x7d' :: rest) := by
  induction given generalizing s first text seen fuel with
  | nil =>
    obtain ⟨fuel, rfl⟩ := Nat.exists_eq_add_one_of_ne_zero (Nat.ne_zero_of_lt hf)
    obtain rfl := gives_nil_iff.mp hgives
    cases hv with
    | nil hbl =>
      rw [Utf8.encode_append, List.append_assoc]
      exact congrArg (· >>= _) (nextKey_close first (blanks_of_space hbl) rest)
  | cons p given ih =>
    obtain ⟨fuel, rfl⟩ := Nat.exists_eq_add_one_of_ne_zero (Nat.ne_zero_of_lt hf)
    obtain ⟨f, v⟩ := p
    obtain ⟨hnew, hvalue, hle, hgiven⟩ := gives_cons_iff.mp hgives
    obtain ⟨hfseen, hseen⟩ := List.forall_mem_cons.mp hseen
    obtain ⟨bl, bl', body, more, hbl, hbl', hbody, hmore, hkey⟩ := nextKey_verbatim hv
    have hend := endsValue_verbatimMembers hmore rest
    have hfield := setting_complete h (s := s) hbody hvalue hle hend
    have hunseen : ∀ g ∈ given.map Prod.fst, g ∉ f :: seen := fun g hg =>
      List.not_mem_cons_of_ne_of_not_mem (fun hgf => hnew (hgf ▸ hg)) (hseen g hg)
    have hrest := ih hgiven hmore hunseen (Nat.lt_of_succ_lt_succ hf)
    simp only [namedFields, hkey, ok_bind, Field.ofName?_name, if_neg hfseen, colon_blanks hbl,
      setting_blanks h s f hbl', hfield, inside_ok, hrest]

theorem namedFields_sound {fuel : Nat} {first : Bool} {seen : List Field} {s t : Schema}
    {bytes rest : Bytes} (hf : bytes.length < fuel)
    (hread : namedFields (setting value) fuel first seen s bytes = .ok (t, rest)) :
    ∃ text given, VerbatimMembers first text (given.map fun p : Field × Json => (p.1.name, p.2)) ∧
      Gives budget s given t ∧ (∀ f ∈ given.map Prod.fst, f ∉ seen) ∧
      bytes = Utf8.encode text ++ rest.drop 1 := by
  induction fuel generalizing first seen s bytes with
  | zero => exact absurd hf (Nat.not_lt_zero _)
  | succ fuel ih =>
    simp only [namedFields, bind_eq_ok, Prod.exists] at hread
    obtain ⟨key, r, hkey, hread⟩ := hread
    cases key with
    | none =>
      cases hread
      obtain ⟨bl, tail, hbl, rfl, rfl⟩ := exists_nextKey_none hkey
      refine ⟨_, [], .nil hbl, gives_nil_iff.mpr rfl, List.forall_mem_nil _, ?_⟩
      rw [Utf8.encode_append, List.append_assoc]
      rfl
    | some k =>
      simp only at hread
      split at hread
      · cases hread
      rename_i f hname
      obtain rfl := name_of_fieldOfName hname
      split at hread
      · cases hread
      rename_i hfseen
      simp only [bind_eq_ok, inside_eq_ok, Prod.exists] at hread
      obtain ⟨_, r1, hcolon, s', r2, hfield, hread⟩ := hread
      obtain ⟨v, hv, hvalue, hle, hset⟩ := setting_sound h hfield
      have hlength : r2.length < fuel := by
        have hlt := (spans_nextKey_some hkey).2
        have hcolon := (spans_colon hcolon).length_le
        obtain ⟨_, _, -, -, rfl⟩ := hv
        simp only [List.length_append] at hcolon
        omega
      obtain ⟨more, given, hmore, hgives, hseen, rfl⟩ := ih hlength hread
      obtain ⟨front, name, hfront, hname, rfl⟩ := exists_nextKey_some hkey
      obtain ⟨text, htext, hbytes⟩ := exists_verbatimMembers_cons hfront hname hcolon hv hmore
      have hnew : f ∉ given.map Prod.fst := fun hf => hseen f hf List.mem_cons_self
      refine ⟨text, (f, v) :: given, htext, hgives.cons hnew hvalue hle hset,
        List.forall_mem_cons.mpr ⟨hfseen, fun g hg hmem => ?_⟩, hbytes⟩
      exact hseen g hg (List.mem_cons_of_mem f hmem)

theorem listedFields_complete {fields : List Field} {values : List Json}
    (hlength : values.length ≤ fields.length) {s t : Schema}
    (hgives : Gives budget s (fields.zip values) t) {i : Nat} {text : List Char}
    (hv : VerbatimItems (i == 0) text values) (rest : Bytes) :
    ∃ r, listedFields (setting value) i fields s (Utf8.encode text ++ rest) = .ok (t, r) ∧
      endArray r = .ok ((), rest) := by
  induction fields generalizing values s i text with
  | nil =>
    obtain rfl := List.eq_nil_of_length_eq_zero (Nat.le_zero.mp hlength)
    obtain rfl := gives_nil_iff.mp hgives
    cases hv with
    | nil hbl =>
      refine ⟨_, rfl, ?_⟩
      rw [Utf8.encode_append, List.append_assoc, endArray, skipBlanks_append (blanks_of_space hbl)]
      exact endArray_close rest
  | cons f fields ih =>
    cases values with
    | nil =>
      obtain rfl := gives_nil_iff.mp hgives
      cases hv with
      | nil hbl =>
        refine ⟨byte ']' :: rest, ?_, endArray_close rest⟩
        rw [Utf8.encode_append, List.append_assoc]
        exact congrArg (· >>= _) (nextItem_close (i == 0) (blanks_of_space hbl) rest)
    | cons v values =>
      obtain ⟨-, hvalue, hle, hgiven⟩ := gives_cons_iff.mp hgives
      obtain ⟨body, more, hbody, hmore, hnext⟩ := nextItem_verbatim hv
      obtain ⟨r, hrest, hend⟩ := ih (Nat.le_of_succ_le_succ hlength) hgiven (i := i + 1) hmore
      have hends := endsValue_verbatimItems hmore rest
      have hfield := setting_complete h (s := s) hbody hvalue hle hends
      refine ⟨r, ?_, hend⟩
      simp only [listedFields, hnext, ok_bind, if_true, hfield, inside_ok, hrest]

theorem listedFields_sound {fields : List Field} (hfields : fields.Nodup) {i : Nat}
    {s t : Schema} {bytes r rest : Bytes} {u : Unit}
    (hread : listedFields (setting value) i fields s bytes = .ok (t, r))
    (hend : endArray r = .ok (u, rest)) :
    ∃ text values, VerbatimItems (i == 0) text values ∧ values.length ≤ fields.length ∧
      Gives budget s (fields.zip values) t ∧ bytes = Utf8.encode text ++ rest := by
  induction fields generalizing i s bytes with
  | nil =>
    cases hread
    obtain ⟨bl, hbl, rfl⟩ := exists_endArray hend
    exact ⟨_, [], .nil hbl, Nat.le_refl 0, gives_nil_iff.mpr rfl, rfl⟩
  | cons f fields ih =>
    obtain ⟨hf, hnodup⟩ := List.nodup_cons.mp hfields
    simp only [listedFields, bind_eq_ok, Prod.exists] at hread
    obtain ⟨more, r', hnext, hread⟩ := hread
    cases more with
    | false =>
      cases hread
      obtain ⟨text, htext, hbytes⟩ := exists_verbatimItems_nil hnext hend
      exact ⟨text, [], htext, Nat.zero_le _, gives_nil_iff.mpr rfl, hbytes⟩
    | true =>
      simp only [if_true, bind_eq_ok, inside_eq_ok, Prod.exists] at hread
      obtain ⟨s', r'', hfield, hread⟩ := hread
      obtain ⟨v, hv, hvalue, hle, hset⟩ := setting_sound h hfield
      obtain ⟨more, values, hmore, hlength, hgives, rfl⟩ := ih hnodup hread
      obtain ⟨text, htext, hbytes⟩ := exists_verbatimItems_cons hnext hv hmore
      have hnew : f ∉ (fields.zip values).map Prod.fst := fun hmem =>
        hf ((map_fst_zip_sublist fields values).subset hmem)
      exact ⟨text, v :: values, htext, Nat.succ_le_succ hlength,
        hgives.cons hnew hvalue hle hset, hbytes⟩

end Loops

/-! Schemas. -/

theorem gives_of_isValue {budget : Nat} {given : List (Field × Json)} {s : Schema}
    (hnodup : (given.map Prod.fst).Nodup) (hvalue : ∀ p ∈ given, IsValue p.1 p.2 (s.get p.1))
    (hothers : ∀ f ∉ given.map Prod.fst, s.get f = none) (hle : ∀ p ∈ given, p.2.depth ≤ budget) :
    Gives budget {} given s where
  nodup := hnodup
  value p hp := ⟨hvalue p hp, hle p hp⟩
  others f hf := (hothers f hf).trans (get_empty f).symm

theorem Gives.isNode_object {budget : Nat} {given : List (Field × Json)} {s : Schema}
    (h : Gives budget {} given s) : IsNode (.object (given.map fun p => (p.1.name, p.2))) s ∧
      (Json.object (given.map fun p => (p.1.name, p.2))).depth ≤ budget + 1 := by
  constructor
  · exact .object h.nodup (fun p hp => (h.value p hp).1)
      fun f hf => (h.others f hf).trans (get_empty f)
  · rw [depth_object_le_succ, List.forall_mem_map]
    exact fun p hp => (h.value p hp).2

theorem Gives.isNode_array {budget : Nat} {values : List Json} {s : Schema}
    (h : Gives budget {} (Field.all.zip values) s) (hlength : values.length ≤ 9) :
    IsNode (.array values) s ∧ (Json.array values).depth ≤ budget + 1 := by
  constructor
  · exact .array hlength (fun p hp => (h.value p hp).1)
      fun f hf => (h.others f hf).trans (get_empty f)
  · have hvalues : (Field.all.zip values).map Prod.snd = values := List.map_snd_zip hlength
    rw [depth_array_le_succ, ← hvalues, List.forall_mem_map]
    exact fun p hp => (h.value p hp).2

theorem decodes_readWith_none : Decodes 0 IsNode (readWith none) where
  blanks hbl bytes := by simp only [readWith, skipBlanks_append hbl]
  complete := by
    intro text v s rest _ hs hle _
    cases hs <;> simp [depth] at hle
  sound := by
    intro bytes s rest hread
    unfold readWith at hread
    split at hread
    · cases hread
    split at hread
    · cases hread
    · exact absurd hread refuse_ne_ok

section ReadWith

variable {budget : Nat} {value : (f : Field) → Bytes → Except Failure (Option f.Value × Bytes)}
  (h : ∀ f, Decodes budget (IsValue f) (value f))

include h

theorem readWith_brace {given : List (Field × Json)} {s : Schema}
    (hgives : Gives budget {} given s) {text : List Char}
    (hv : VerbatimMembers true text (given.map fun p => (p.1.name, p.2))) (rest : Bytes) :
    readWith (some (setting value)) (byte '\x7b' :: (Utf8.encode text ++ rest)) =
      .ok (s, rest) := by
  have hbrace : isBlank (byte '\x7b') = false := by decide
  have hne : byte '\x7b' ≠ byte '[' := by decide
  have hlength := length_lt_of_verbatimMembers hv
  rw [List.length_map] at hlength
  have hfuel : given.length < (Utf8.encode text ++ rest).length + 1 := by
    rw [List.length_append]
    omega
  have hunseen : ∀ f ∈ given.map Prod.fst, f ∉ ([] : List Field) := by simp
  have hread := namedFields_complete h hgives hv hunseen rest hfuel
  simp only [readWith, skipBlanks_cons hbrace, or_true, if_true, if_neg hne, hread, ok_bind,
    List.drop_succ_cons, List.drop_zero]

theorem readWith_bracket {values : List Json} {s : Schema} (hlength : values.length ≤ 9)
    (hgives : Gives budget {} (Field.all.zip values) s) {text : List Char}
    (hv : VerbatimItems true text values) (rest : Bytes) :
    readWith (some (setting value)) (byte '[' :: (Utf8.encode text ++ rest)) = .ok (s, rest) := by
  have hbracket : isBlank (byte '[') = false := by decide
  obtain ⟨r, hread, hend⟩ := listedFields_complete h hlength hgives (i := 0) hv rest
  simp only [readWith, skipBlanks_cons hbracket, true_or, if_true, hread, ok_bind, hend]

theorem decodes_readWith : Decodes (budget + 1) IsNode (readWith (some (setting value))) where
  blanks hbl bytes := by simp only [readWith, skipBlanks_append hbl]
  complete := by
    intro text v s rest hv hs hle _
    cases hs with
    | object hnodup hvalue hothers =>
      cases hv with
      | object hmembers =>
        rw [depth_object_le_succ, List.forall_mem_map] at hle
        rw [encode_ascii_cons (by decide), List.cons_append]
        exact readWith_brace h (gives_of_isValue hnodup hvalue hothers hle) hmembers rest
    | @array values _ hlength hvalue hothers =>
      cases hv with
      | array hitems =>
        rw [depth_array_le_succ] at hle
        rw [encode_ascii_cons (by decide), List.cons_append]
        have hnodup := (map_fst_zip_sublist Field.all values).nodup (by decide)
        have hgives := gives_of_isValue hnodup hvalue hothers fun p hp =>
          hle p.2 (List.of_mem_zip hp).2
        exact readWith_bracket h hlength hgives hitems rest
  sound := by
    intro bytes s rest hread
    unfold readWith at hread
    split at hread
    · cases hread
    rename_i b tail hb
    split at hread
    · rename_i hopen
      simp only at hread
      split at hread
      · rename_i hbracket
        subst hbracket
        simp only [bind_eq_ok, Prod.exists] at hread
        obtain ⟨s', r, hfields, u, r', hend, hread⟩ := hread
        cases hread
        obtain ⟨text, values, htext, hlength, hgives, rfl⟩ :=
          listedFields_sound h (by decide) hfields hend
        exact ⟨_, (begins_array htext rest).behind hb, hgives.isNode_array hlength⟩
      · rename_i hbracket
        obtain rfl := hopen.resolve_left hbracket
        simp only [bind_eq_ok, Prod.exists] at hread
        obtain ⟨s', r, hfields, hread⟩ := hread
        cases hread
        obtain ⟨text, given, htext, hgives, -, rfl⟩ :=
          namedFields_sound h (Nat.lt_succ_self _) hfields
        exact ⟨_, (begins_object htext (r.drop 1)).behind hb, hgives.isNode_object⟩
    · exact absurd hread refuse_ne_ok

end ReadWith

theorem decodes_properties {budget : Nat} (h : ∀ n, budget = n + 1 → Decodes n IsNode (read n)) :
    Decodes budget AreNodes (readProperties budget (read (budget - 1))) := by
  refine decodes_object "a map" fun n hn => ?_
  subst hn
  exact h n rfl

theorem decodes_read (budget : Nat) : Decodes budget IsNode (read budget) := by
  -- the schemas of properties stand two containers further in, those of items one
  induction budget using Nat.strongRecOn with
  | ind budget ih =>
    cases budget with
    | zero => exact decodes_readWith_none
    | succ budget =>
      have hproperties : Decodes budget AreNodes (readProperties budget (read (budget - 1))) :=
        decodes_properties fun n hn => ih n (by omega)
      rw [read_succ, readField_eq_setting]
      exact decodes_readWith (decodes_value (ih budget (Nat.lt_succ_self _)) hproperties)

/-- The texts of schemas: one JSON text, with blanks around it, that nests at most 127 containers
and has the tree of a schema. Lengths are literals of an integer of 32 bits, without sign, fraction
and exponent. A property that is given twice has its first place and its last schema. -/
theorem language_of_schemas :
    (∀ text s, ofText text = .ok s ↔ ∃ v, IsTextOf text v ∧ v.depth ≤ 127 ∧ IsNode v s) ∧
    (∀ (l : NumberLiteral) (n : UInt32), l.value?.map Json.number = some (.natural n) ↔
      l.negative = false ∧ l.fraction = none ∧ l.exponent = none ∧ l.whole.number = n.toNat) ∧
    (∀ properties : List (String × Schema),
      Members.keys (Members.ofPairs properties) = (Members.keys properties).eraseDups ∧
        ∀ k, Members.find? k (Members.ofPairs properties) = Members.find? k properties.reverse) :=
  ⟨fun _ _ => (decodes_read maxDepth).readWhole_eq_ok_iff, value?_eq_natural_iff,
    fun properties =>
      ⟨Members.keys_ofPairs properties, fun k => Members.find?_ofPairs k properties⟩⟩

/-- A member that stands twice is refused, also where it is null. -/
example : (ofText "\x7b\"type\": null, \"type\": null\x7d").isOk = false := by decide +kernel

/-- The array form, of which the last values may be missing. -/
example : (ofText " [null, null, \x7b\"array\": null\x7d, null, 3] ").isOk = true := by
  decide +kernel

end SchemaByExample.Schema
