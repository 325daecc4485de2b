import SchemaByExample.Proofs.Json.IntegerLiteral

/-! Texts of a document: its tokens in order, with any blanks between them. The printer
writes such texts in every layout whose lines begin with blanks. -/
namespace SchemaByExample.Json

open Read Literal

def Blanks (bytes : Bytes) : Prop := ∀ b ∈ bytes, isBlank b = true

theorem Blanks.nil : Blanks [] := by simp [Blanks]

inductive Separates : Bool → Bytes → Prop
  | first {bl : Bytes} : Blanks bl → Separates true bl
  | next {bl bl' : Bytes} : Blanks bl → Blanks bl' → Separates false (bl ++ byte ',' :: bl')

mutual

/-- Texts of a value, from its first token to its last. -/
inductive Written : Json → Bytes → Prop
  | null : Written .null (Utf8.encode "null".toList)
  | true : Written (.bool true) (Utf8.encode "true".toList)
  | false : Written (.bool false) (Utf8.encode "false".toList)
  | number (n : JsonNumber) : Written (.number n) (Utf8.encode (numberChars n))
  | string (s : String) : Written (.string s) (Utf8.encode (quote s))
  | array {items : List Json} {text : Bytes} :
      WrittenItems true items text → Written (.array items) (byte '[' :: text)
  | object {members : List (String × Json)} {text : Bytes} :
      WrittenMembers true members text → Written (.object members) (byte '\x7b' :: text)

/-- Texts of items up to the closing bracket; the flag tells that no item stands before. -/
inductive WrittenItems : Bool → List Json → Bytes → Prop
  | nil {first : Bool} {bl : Bytes} : Blanks bl → WrittenItems first [] (bl ++ [byte ']'])
  | cons {first : Bool} {v : Json} {items : List Json} {front text more : Bytes} :
      Separates first front → Written v text → WrittenItems false items more →
        WrittenItems first (v :: items) (front ++ (text ++ more))

inductive WrittenMembers : Bool → List (String × Json) → Bytes → Prop
  | nil {first : Bool} {bl : Bytes} : Blanks bl → WrittenMembers first [] (bl ++ [byte '\x7d'])
  | cons {first : Bool} {v : Json} {members : List (String × Json)}
      {front bl bl' text more : Bytes} (k : String) :
      Separates first front → Blanks bl → Blanks bl' → Written v text →
        WrittenMembers false members more →
          WrittenMembers first ((k, v) :: members)
            (front ++ (Utf8.encode (quote k) ++ (bl ++ byte ':' :: (bl' ++ (text ++ more)))))

end

/-! The first byte of a text tells which sort of value it is of. -/

def opens (b : UInt8) : Json → Bool
  | .null => b == byte 'n'
  | .bool true => b == byte 't'
  | .bool false => b == byte 'f'
  | .number _ => b == byte '-' || isDigit b
  | .string _ => b == byte '"'
  | .array _ => b == byte '['
  | .object _ => b == byte '{'

/-- The first character of a magnitude is a digit. -/
theorem magnitude_head (style : Number.FloatStyle) {d : Char} (hd : d.isDigit = true)
    (ds : List Char) (e : Int) :
    ∃ c cs, style.magnitude (d :: ds) e = c :: cs ∧ c.isDigit = true := by
  simp only [Number.FloatStyle.magnitude]
  split
  · split
    · exact ⟨'0', _, rfl, by decide⟩
    · split
      · exact ⟨d, _, rfl, hd⟩
      · exact ⟨d, _, by rw [List.take_succ_cons]; rfl, hd⟩
  · cases ds with
    | nil => exact ⟨d, _, rfl, hd⟩
    | cons d' ds => exact ⟨d, _, rfl, hd⟩

theorem numberChars_head (n : JsonNumber) :
    ∃ c cs, numberChars n = c :: cs ∧ (c = '-' ∨ c.isDigit = true) := by
  cases n with
  | word n =>
    rw [numberChars, intChars]
    split
    · exact ⟨'-', _, rfl, .inl rfl⟩
    · obtain ⟨c, cs, hc, hd⟩ := toDigits_head n.value.natAbs
      exact ⟨c, cs, hc, .inr hd⟩
  | double x =>
    obtain ⟨d, ds, hds, hd⟩ := toDigits_head x.shortest.digits
    rw [numberChars, Number.Binary.text, Number.FloatStyle.text, String.toList_ofList]
    split
    · exact ⟨'-', _, rfl, .inl rfl⟩
    · rw [hds]
      obtain ⟨c, cs, hc, hcd⟩ := magnitude_head Number.documentStyle hd
        (ds.reverse.dropWhile (· == '0')).reverse _
      exact ⟨c, cs, hc, .inr hcd⟩

theorem opens_of_written {v : Json} {text : Bytes} (h : Written v text) :
    ∃ b rest, text = b :: rest ∧ v.opens b = true := by
  cases h with
  | number n =>
    obtain ⟨c, cs, hc, hd⟩ := numberChars_head n
    have hlt : c.val.toNat < 0x80 := by
      obtain rfl | hd := hd
      · decide
      · exact Nat.lt_trans (isDigit_bounds hd).2 (by decide)
    refine ⟨byte c, Utf8.encode cs, by rw [hc, Utf8.encode_cons, encodeChar_ascii hlt]; rfl, ?_⟩
    obtain rfl | hd := hd
    · rfl
    · simp [opens, isDigit_byte hd]
  | string s => exact ⟨_, _, encode_quote s, by simp [opens]⟩
  | array _ => exact ⟨_, _, rfl, by simp [opens]⟩
  | object _ => exact ⟨_, _, rfl, by simp [opens]⟩
  | _ => exact ⟨_, _, rfl, by decide⟩

/-- No value begins with a blank or a closing bracket, and only null begins with its letter. -/
theorem of_opens {v : Json} {b : UInt8} (h : v.opens b = true) :
    isBlank b = false ∧ b ≠ byte ']' ∧ (v.isNull = false → b ≠ byte 'n') := by
  have hdigit (hb : isDigit b = true) {c : UInt8} (hc : 58 ≤ c.toNat) : b ≠ c := by
    simp only [isDigit, Bool.and_eq_true, decide_eq_true_eq] at hb
    rintro rfl
    omega
  cases v with
  | number n =>
    simp only [opens, Bool.or_eq_true, beq_iff_eq] at h
    obtain rfl | hb := h
    · exact ⟨by decide, by decide, fun _ => by decide⟩
    · exact ⟨(not_blank_of_isDigit hb).1, hdigit hb (by decide), fun _ => hdigit hb (by decide)⟩
  | bool t => cases t <;> (obtain rfl := eq_of_beq h; decide)
  | null => obtain rfl := eq_of_beq h; decide
  | _ => obtain rfl := eq_of_beq h; exact ⟨by decide, by decide, fun _ => by decide⟩

structure Spacing.Blank (sp : Spacing) : Prop where
  line : ∀ d, Blanks (Utf8.encode (sp.line d))
  colon : ∃ bl bl', Blanks bl ∧ Blanks bl' ∧ Utf8.encode sp.colon = bl ++ byte ':' :: bl'

theorem blank_compact : Spacing.Blank .compact :=
  ⟨fun _ => .nil, [], [], .nil, .nil, rfl⟩

theorem blank_pretty : Spacing.Blank .pretty := by
  constructor
  · intro d b hb
    have hmem : b = byte '\n' ∨ b = byte ' ' := by
      simp only [Spacing.pretty, Utf8.encode, List.flatMap_cons, List.mem_append,
        List.mem_flatMap, List.mem_replicate] at hb
      obtain hb | ⟨c, ⟨-, rfl⟩, hb⟩ := hb
      · exact .inl (by simpa [encodeChar_ascii] using hb)
      · exact .inr (by simpa [encodeChar_ascii] using hb)
    obtain rfl | rfl := hmem <;> decide
  · exact ⟨[], [byte ' '], .nil, by simp [Blanks]; decide, rfl⟩

section Render

variable {sp : Spacing} (hsp : sp.Blank)

include hsp

theorem separates_line (d : Nat) :
    Separates false (byte ',' :: Utf8.encode (sp.line d)) := .next .nil (hsp.line d)

mutual

/-- What the printer writes for a value is a text of the value. -/
theorem written_render (d : Nat) : (v : Json) → Written v (Utf8.encode (render sp d v))
  | .null => .null
  | .bool true => .true
  | .bool false => .false
  | .number n => .number n
  | .string s => .string s
  | .array [] => .array (.nil .nil)
  | .array (v :: rest) => by
    have h := WrittenItems.cons (.first (hsp.line (d + 1))) (written_render (d + 1) v)
      (written_renderItems d rest)
    have := Written.array h
    simpa [render, encodeChar_ascii] using this
  | .object [] => .object (.nil .nil)
  | .object ((k, v) :: rest) => by
    obtain ⟨bl, bl', hbl, hbl', hcolon⟩ := hsp.colon
    have h := WrittenMembers.cons k (.first (hsp.line (d + 1))) hbl hbl' (written_render (d + 1) v)
      (written_renderMembers d rest)
    have := Written.object h
    simpa [render, hcolon, encodeChar_ascii] using this

theorem written_renderItems (d : Nat) : (items : List Json) →
    WrittenItems false items
      (Utf8.encode (renderItems sp d items) ++ (Utf8.encode (sp.line d) ++ [byte ']']))
  | [] => .nil (hsp.line d)
  | v :: rest => by
    have h := WrittenItems.cons (separates_line hsp (d + 1)) (written_render (d + 1) v)
      (written_renderItems d rest)
    simpa [renderItems, encodeChar_ascii] using h

theorem written_renderMembers (d : Nat) : (members : List (String × Json)) →
    WrittenMembers false members
      (Utf8.encode (renderMembers sp d members) ++ (Utf8.encode (sp.line d) ++ [byte '\x7d']))
  | [] => .nil (hsp.line d)
  | (k, v) :: rest => by
    obtain ⟨bl, bl', hbl, hbl', hcolon⟩ := hsp.colon
    have h := WrittenMembers.cons k (separates_line hsp (d + 1)) hbl hbl'
      (written_render (d + 1) v) (written_renderMembers d rest)
    simpa [renderMembers, hcolon, encodeChar_ascii] using h

end

end Render

end SchemaByExample.Json
