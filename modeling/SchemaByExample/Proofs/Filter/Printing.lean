import SchemaByExample.Filter.Value
import SchemaByExample.Proofs.Json.Documents
import SchemaByExample.Proofs.Json.NumberText
import SchemaByExample.Proofs.Json.Path

/-! Documents among the values of filters. A document that is taken for a value, printed and
read again is the document, if its doubles are read back. -/
namespace SchemaByExample

namespace Json

/-- Every double in the value is read back from its text. -/
def ReadsBack (v : Json) : Prop :=
  ∀ path x, at? path v = some (.number (.double x)) →
    ofText x.text = .ok (.number (.double x))

theorem readsBack_of_scalar {v : Json} (hv : v.isContainer = false)
    (h : ∀ x, v = .number (.double x) → ofText x.text = .ok (.number (.double x))) :
    v.ReadsBack := by
  intro path x hx
  cases path with
  | nil => exact h x (Option.some.inj hx)
  | cons s path =>
    obtain ⟨u, hu, -⟩ := exists_stepsTo hx
    cases hu <;> cases hv

theorem readsBack_array_iff {items : List Json} :
    (array items).ReadsBack ↔ ∀ v ∈ items, v.ReadsBack := by
  constructor
  · intro h v hv path x hx
    obtain ⟨i, hi⟩ := List.mem_iff_getElem?.mp hv
    refine h (.item i :: path) x ?_
    rw [at?, hi, Option.bind_some, hx]
  · intro h path x hx
    cases path with
    | nil => cases hx
    | cons s path =>
      obtain ⟨u, hu, hrest⟩ := exists_stepsTo hx
      cases hu with
      | item hu => exact h u (List.mem_of_getElem? hu) path x hrest

theorem readsBack_object_iff {members : List (String × Json)}
    (hd : (Members.keys members).Nodup) :
    (object members).ReadsBack ↔ ∀ p ∈ members, p.2.ReadsBack := by
  constructor
  · intro h p hp path x hx
    refine h (.member p.1 :: path) x ?_
    rw [at?, Members.find?_of_mem hd hp, Option.bind_some, hx]
  · intro h path x hx
    cases path with
    | nil => cases hx
    | cons s path =>
      obtain ⟨u, hu, hrest⟩ := exists_stepsTo hx
      cases hu with
      | member hu => exact h _ (Members.mem_of_find? hu) path x hrest

theorem hexValue?_digitChar : ∀ d < 16, hexValue? (Nat.digitChar d) = some d := by decide

/-- The four digits of a control character, behind their letter, are an escape of it. -/
theorem escape_hexPair {c : Char} (h : c.toNat < 32) :
    Escape ('u' :: '0' :: '0' :: hexPair c.toNat) c := by
  have hdigits : FourHex ('0' :: '0' :: hexPair c.toNat)
      (Number.ofDigits 16 [0, 0, c.toNat / 16, c.toNat % 16]) :=
    .mk (by decide) (by decide) (hexValue?_digitChar _ (by omega))
      (hexValue?_digitChar _ (by omega))
  have hcode : Number.ofDigits 16 [0, 0, c.toNat / 16, c.toNat % 16] = c.toNat := by
    simp only [Number.ofDigits, List.foldl_cons, List.foldl_nil]
    omega
  rw [hcode] at hdigits
  have hescape := Escape.code hdigits (fun hhigh => by have := hhigh.1; omega)
    (fun hlow => by have := hlow.1; omega)
  rwa [Char.ofNat_toNat] at hescape

/-- What a document has for a character, before the content of a literal. -/
theorem content_escapeChar (c : Char) {body text : List Char} (h : Content body text) :
    Content (escapeChar c ++ body) (c :: text) := by
  rw [escapeChar]
  iterate 7
    split
    · subst c
      exact .escape (.letter (by decide)) h
  split
  · rename_i hcontrol
    exact .escape (escape_hexPair hcontrol) h
  · rename_i hquote hslash _ _ _ _ _ hcontrol
    exact .plain (Nat.not_lt.mp hcontrol) hquote hslash h

theorem ofText_of_legible {n : Nat} {text : List Char} {v : Json} (hdenotes : Denotes text v)
    (hlegible : Legible n text v) (hn : n ≤ maxDepth) : ofText (String.ofList text) = .ok v := by
  refine ofBytes_of_document ⟨?_, [], text, [], .nil, hdenotes, .nil, ?_⟩
  · rwa [Utf8.ofString, String.toList_ofList, hlegible.nests.nesting_eq]
  · rw [Utf8.ofString, String.toList_ofList, List.append_nil, List.nil_append]

/-- A double that is read back has its text as a literal. -/
theorem exists_literal_of_readsBack {n : JsonNumber} (h : (number n).ReadsBack) :
    ∃ l : NumberLiteral, l.chars = numberChars n ∧ l.value? = some n := by
  cases n with
  | word w => exact exists_literal_word w
  | double x =>
    obtain ⟨l, m, hchars, hvalue⟩ := exists_literal_double x
    have hread := ofText_of_legible (.number l hvalue) (legible_number l hvalue) (Nat.zero_le _)
    rw [hchars, String.ofList_toList, h [] x rfl] at hread
    obtain rfl : JsonNumber.double x = m := number.inj (Except.ok.inj hread)
    exact ⟨l, hchars, hvalue⟩

end Json

namespace Filter.Value

open Json

/-- A character of a string that is printed for a value, before the content of a literal. -/
theorem content_escapeChar (c : Char) {body text : List Char} (h : Content body text) :
    Content (escapeChar c ++ body) (c :: text) := by
  rw [escapeChar]
  split
  · -- these two controls have letters of their own in a document, but not here
    rename_i hletter
    have hcontrol : c.toNat < 32 := by obtain rfl | rfl := hletter <;> decide
    exact .escape (escape_hexPair hcontrol) h
  · exact Json.content_escapeChar c h

theorem exists_quote (s : String) :
    ∃ body, Content body s.toList ∧ quote s = '"' :: (body ++ ['"']) := by
  have hbody : ∀ cs : List Char, Content (cs.flatMap escapeChar) cs := by
    intro cs
    induction cs with
    | nil => exact .nil
    | cons c cs ih => exact content_escapeChar c ih
  exact ⟨_, hbody s.toList, rfl⟩

theorem chars_ofNumber (n : JsonNumber) : chars (ofNumber n) = numberChars n := by
  cases n with
  | word w =>
    rw [ofNumber]
    split
    · rename_i hword
      rw [ofInt, chars, toInt_ofInt w.low hword, numberChars]
    · exact String.toList_ofList
  | double x => rfl

def Prints (text : List Char) (v : Json) : Prop := Denotes text v ∧ Legible v.depth text v

def PrintsItems (first : Bool) (text : List Char) (items : List Json) : Prop :=
  DenotesItems first text items ∧ LegibleItems (depthItems items) first text items

def PrintsMembers (first : Bool) (text : List Char) (pairs : List (String × Json)) : Prop :=
  DenotesMembers first text pairs ∧ LegibleMembers (depthMembers pairs) first text pairs

theorem PrintsItems.cons {first : Bool} {front text more : List Char} {v : Json}
    {items : List Json} (hs : Separator first front) (hv : Prints text v)
    (h : PrintsItems false more items) : PrintsItems first (front ++ (text ++ more)) (v :: items) :=
  ⟨.cons hs hv.1 h.1, legibleItems_cons hs hv.2 h.1 h.2⟩

theorem PrintsMembers.cons {first : Bool} {front text more : List Char} {v : Json}
    {pairs : List (String × Json)} (hs : Separator first front) (k : String) (hv : Prints text v)
    (h : PrintsMembers false more pairs) :
    PrintsMembers first (front ++ (quote k ++ ':' :: (text ++ more))) ((k, v) :: pairs) := by
  obtain ⟨body, hbody, hquote⟩ := exists_quote k
  have hdenotes := DenotesMembers.cons hs hbody .nil .nil hv.1 h.1
  have hlegible := legibleMembers_cons hs hbody .nil .nil hv.2 h.1 h.2
  rw [String.ofList_toList] at hdenotes hlegible
  rw [hquote, List.cons_append, List.append_assoc, List.singleton_append]
  exact ⟨hdenotes, hlegible⟩

mutual

theorem prints_ofJson : (v : Json) → v.Distinct → v.ReadsBack → Prints (chars (ofJson v)) v
  | .null, _, _ => ⟨.null, legible_null⟩
  | .bool true, _, _ => ⟨.true, legible_true⟩
  | .bool false, _, _ => ⟨.false, legible_false⟩
  | .number n, _, hback => by
    obtain ⟨l, hchars, hvalue⟩ := exists_literal_of_readsBack hback
    rw [ofJson, chars_ofNumber, ← hchars]
    exact ⟨.number l hvalue, legible_number l hvalue⟩
  | .string s, _, _ => by
    obtain ⟨body, hbody, hquote⟩ := exists_quote s
    have hdenotes := Denotes.string hbody
    have hlegible := legible_string hbody
    rw [String.ofList_toList] at hdenotes hlegible
    rw [ofJson, chars, hquote]
    exact ⟨hdenotes, hlegible⟩
  | .array [], _, _ => ⟨.array (.nil .nil), legible_array (legibleItems_nil true .nil)⟩
  | .array (v :: rest), hd, hback => by
    obtain ⟨hv, hrest⟩ := List.forall_mem_cons.mp (readsBack_array_iff.mp hback)
    have hitems := PrintsItems.cons (.first .nil) (prints_ofJson v hd.1 hv)
      (prints_ofItems rest hd.2 hrest)
    rw [ofJson, ofItems, chars, List.cons_append, List.cons_append, List.append_assoc]
    exact ⟨.array hitems.1, legible_array hitems.2⟩
  | .object [], _, _ => ⟨.object (.nil .nil), legible_object (legibleMembers_nil true .nil)⟩
  | .object ((k, v) :: rest), hd, hback => by
    obtain ⟨hv, hrest⟩ := List.forall_mem_cons.mp ((readsBack_object_iff hd.1).mp hback)
    have hmembers := PrintsMembers.cons (.first .nil) k (prints_ofJson v hd.2.1 hv)
      (prints_ofMembers rest hd.2.2 hrest)
    have hobject := Denotes.object hmembers.1
    have hlegible := legible_object hmembers.2
    rw [Members.ofPairs_eq_self hd.1] at hobject hlegible
    rw [ofJson, ofMembers, chars]
    simp only [List.cons_append, List.append_assoc]
    exact ⟨hobject, hlegible⟩

theorem prints_ofItems : (items : List Json) → DistinctItems items →
    (∀ v ∈ items, v.ReadsBack) → PrintsItems false (itemChars (ofItems items) ++ [']']) items
  | [], _, _ => ⟨.nil .nil, legibleItems_nil false .nil⟩
  | v :: rest, hd, hback => by
    obtain ⟨hv, hrest⟩ := List.forall_mem_cons.mp hback
    have hitems := PrintsItems.cons (.next .nil .nil) (prints_ofJson v hd.1 hv)
      (prints_ofItems rest hd.2 hrest)
    rw [ofItems, itemChars, List.cons_append, List.cons_append, List.append_assoc]
    exact hitems

theorem prints_ofMembers : (members : List (String × Json)) → DistinctMembers members →
    (∀ p ∈ members, p.2.ReadsBack) →
    PrintsMembers false (memberChars (ofMembers members) ++ ['}']) members
  | [], _, _ => ⟨.nil .nil, legibleMembers_nil false .nil⟩
  | (k, v) :: rest, hd, hback => by
    obtain ⟨hv, hrest⟩ := List.forall_mem_cons.mp hback
    have hmembers := PrintsMembers.cons (.next .nil .nil) k (prints_ofJson v hd.1 hv)
      (prints_ofMembers rest hd.2 hrest)
    rw [ofMembers, memberChars]
    simp only [List.cons_append, List.append_assoc]
    exact hmembers

end

/-- A document is read back from the text of its value. -/
theorem ofText_text_ofJson {v : Json} (hd : v.Distinct) (hdepth : v.depth ≤ maxDepth)
    (hback : v.ReadsBack) : Json.ofText (text (ofJson v)) = .ok v := by
  obtain ⟨hdenotes, hlegible⟩ := prints_ofJson v hd hback
  exact ofText_of_legible hdenotes hlegible hdepth

end Filter.Value

end SchemaByExample
