import SchemaByExample.Shape.Infer
import SchemaByExample.Schema.Compile
import SchemaByExample.Proofs.Shape.Signature

/-! The tree of a container from its parts: one child for each part, in order, and the marks
of an array by whether it is homogeneous. -/
namespace SchemaByExample.Shape

open Json Similarity

theorem ofEach_eq_map (items : List Json) : ofEach items = items.map ofValue := by
  induction items with
  | nil => rfl
  | cons v rest ih => rw [ofEach, ih, List.map_cons]

theorem ofMembers_eq_map (members : List (String × Json)) :
    ofMembers members = members.map fun p => (p.1, ofValue p.2) := by
  induction members with
  | nil => rfl
  | cons p rest ih => rw [ofMembers, ih, List.map_cons]

/-- The node of an item among the children of an array whose items are kept apart. -/
def ofElement : Json → Shape
  | .object members => { ofValue (.object members) with required := !members.isEmpty }
  | .array items =>
    { ofValue (.array items) with uniqueItems := some true, required := !items.isEmpty }
  | v => ofValue v

/-- The node of a part; `apart` tells that it is an item of an array that keeps its items
apart. -/
def ofPart (apart : Bool) (v : Json) : Shape := if apart then ofElement v else ofValue v

theorem element?_ofValue (primitives : Primitives) (v : Json) :
    element? primitives v (ofValue v) =
      if v.isContainer ∨ primitives = .keep then some (ofElement v) else none := by
  cases v <;> cases primitives <;> rfl

theorem elements_keep (i : Nat) (items : List Json) :
    elements .keep i (items.zip (items.map ofValue)) =
      (placed i items).map fun p => (p.1, ofElement p.2) := by
  induction items generalizing i with
  | nil => rfl
  | cons v rest ih =>
    simp only [List.map_cons, List.zip_cons_cons, elements, element?_ofValue, or_true, if_true,
      ih, placed, Nat.toString_eq_ofList_toDigits]

theorem elements_skip (i : Nat) (items : List Json) :
    elements .skip i (items.zip (items.map ofValue)) =
      ((placed i items).filter fun p => p.2.isContainer).map fun p => (p.1, ofElement p.2) := by
  induction items generalizing i with
  | nil => rfl
  | cons v rest ih =>
    simp only [List.map_cons, List.zip_cons_cons, elements, element?_ofValue, reduceCtorEq,
      or_false, ih, placed, Nat.toString_eq_ofList_toDigits]
    cases hv : v.isContainer <;> simp [hv]

theorem ofValue_object (members : List (String × Json)) :
    ofValue (.object members) =
      { kind := some .object, children := members.map fun p => (p.1, ofValue p.2) } := by
  rw [ofValue, ofMembers_eq_map]

theorem ofValue_homogeneous {items : List Json} (hd : (Json.array items).Distinct)
    (h : homogeneous items = true) :
    ofValue (.array items) =
      { kind := some .array
        children := (itemParts items).map fun p => (p.1, ofValue p.2)
        uniqueItems := some true
        minItems := some 1 } := by
  cases items with
  | nil => simp [homogeneous] at h
  | cons v rest =>
    cases v with
    | object first =>
      obtain ⟨r, hr, hfirst⟩ := representative_of_homogeneous hd h
      rw [ofValue, ofEach_eq_map, ofItems, alike_eq_homogeneous hd, if_pos h, hr, Option.bind_some,
        List.getElem?_map, hfirst, Option.map_some, ofValue_object, itemParts, if_pos h]
    | _ => simp [homogeneous] at h

theorem ofValue_apart {items : List Json} (hd : (Json.array items).Distinct)
    (h : homogeneous items = false) :
    ofValue (.array items) =
      { kind := some .array
        children := (itemParts items).map fun p => (p.1, ofElement p.2) } := by
  cases items with
  | nil => rfl
  | cons v rest =>
    cases v with
    | object first =>
      have hn : ¬homogeneous (.object first :: rest) = true := by simp [h]
      rw [ofValue, ofEach_eq_map, ofItems, alike_eq_homogeneous hd, if_neg hn]
      simp only [elements_skip, itemParts, if_neg hn]
    | _ => simp only [ofValue, ofEach_eq_map, ofItems, itemParts, elements_keep]

def childrenOf (apart : Bool) (parts : List (String × Json)) : List (String × Shape) :=
  parts.map fun p => (p.1, ofPart apart p.2)

theorem ofPart_object (apart : Bool) (members : List (String × Json)) :
    ofPart apart (.object members) =
      { kind := some .object
        children := childrenOf false members
        required := apart && !members.isEmpty } := by
  cases apart <;> simp only [ofPart, ofElement, ofValue_object] <;> rfl

/-- The node of an array: its parts, and two marks if it is homogeneous. -/
theorem ofPart_array (apart : Bool) {items : List Json} (hd : (Json.array items).Distinct) :
    ofPart apart (.array items) =
      { kind := some .array
        children := childrenOf (!homogeneous items) (itemParts items)
        required := apart && !items.isEmpty
        uniqueItems := if homogeneous items || apart then some true else none
        minItems := if homogeneous items then some 1 else none } := by
  cases h : homogeneous items with
  | true => cases apart <;> simp only [ofPart, ofElement, ofValue_homogeneous hd h] <;> rfl
  | false => cases apart <;> simp only [ofPart, ofElement, ofValue_apart hd h] <;> rfl

theorem ofPrimitive_kind (v : Json) : (ofPrimitive v).kind = v.kind? := rfl

theorem ofPrimitive_required (v : Json) : (ofPrimitive v).required = !v.isNull := rfl

/-- Only a text that is no number has a least length. -/
theorem ofPrimitive_of_kind_ne {v : Json} (h : v.kind? ≠ some .string) :
    ofPrimitive v = { kind := v.kind?, required := !v.isNull } := by
  delta ofPrimitive
  congr 1
  cases hk : v.kind? with
  | none => rfl
  | some k =>
    cases k with
    | string => exact absurd hk h
    | _ => rfl

theorem ofPrimitive_of_kind_eq {s : String} (h : (Json.string s).kind? = some .string) :
    ofPrimitive (.string s) =
      { kind := some .string
        required := true
        minLength := some (if s.isEmpty then 0 else 1) } := by
  delta ofPrimitive
  simp only [h]
  rfl

theorem ofValue_scalar {v : Json} (h : v.isContainer = false) : ofValue v = ofPrimitive v := by
  cases v with
  | array items => simp [isContainer] at h
  | object members => simp [isContainer] at h
  | _ => rw [ofValue]

theorem ofPart_scalar (apart : Bool) {v : Json} (h : v.isContainer = false) :
    ofPart apart v = ofPrimitive v := by
  have he : ofElement v = ofValue v := by
    cases v with
    | array items => simp [isContainer] at h
    | object members => simp [isContainer] at h
    | _ => rfl
  cases apart
  · exact ofValue_scalar h
  · exact he.trans (ofValue_scalar h)

theorem kind_ofPart (apart : Bool) {v : Json} (hd : v.Distinct) :
    (ofPart apart v).kind = v.kind? := by
  cases h : v.isContainer with
  | false => rw [ofPart_scalar apart h, ofPrimitive_kind]
  | true =>
    cases v with
    | array items => rw [ofPart_array apart hd, kind?]
    | object members => rw [ofPart_object, kind?]
    | _ => simp [isContainer] at h

theorem isNull_eq_isNone (v : Json) : v.isNull = v.kind?.isNone := by
  cases v <;> rfl

theorem text_of_kind {v : Json} (h : v.kind? = some .string) : ∃ s, v = .string s := by
  cases v with
  | string s => exact ⟨s, rfl⟩
  | _ => simp [kind?] at h

theorem array_of_kind {v : Json} (h : v.kind? = some .array) : ∃ items, v = .array items := by
  cases v with
  | array items => exact ⟨items, rfl⟩
  | string s =>
    simp only [kind?, Option.some.injEq] at h
    split at h <;> cases h
  | _ => simp [kind?] at h

theorem object_of_kind {v : Json} (h : v.kind? = some .object) :
    ∃ members, v = .object members := by
  cases v with
  | object members => exact ⟨members, rfl⟩
  | string s =>
    simp only [kind?, Option.some.injEq] at h
    split at h <;> cases h
  | _ => simp [kind?] at h

theorem isContainerKind_kind? (v : Json) :
    Schema.isContainerKind v.kind? = v.isContainer := by
  cases v with
  | string s =>
    simp only [kind?]
    split <;> rfl
  | _ => rfl

/-- Under an object a part is listed unless it is null, and under an array if it is a scalar
besides. -/
theorem lists_ofPart (target : Schema.Target) (apart : Bool) {v : Json} (hd : v.Distinct) :
    Schema.lists target (ofPart apart v) =
      (!v.isNull && (target = .object || !v.isContainer)) := by
  rw [Schema.lists, kind_ofPart apart hd, isContainerKind_kind?]
  cases h : v.isContainer with
  | true => cases v <;> simp_all [isNull, isContainer]
  | false => simp [ofPart_scalar apart h, ofPrimitive_required]

end SchemaByExample.Shape
