import SchemaByExample.Proofs.Json.Reordering
import SchemaByExample.Proofs.Schema.Outline
import SchemaByExample.Proofs.Schema.Fields
import SchemaByExample.Proofs.Shape.Agreement

/-! The order of members carries no meaning. If the members of objects in a document are
reordered, the children in its tree are, and in its schema the properties and the lists of
required names. -/
namespace SchemaByExample.MemberOrder

open Json Shape Outline

/-! Trees. -/

theorem childrenOf_agree {a : Bool} {parts others : List (String × Json)}
    (h : ReorderedParts [] parts others) (hk : (Members.keys others).Nodup)
    (ha : ∀ p ∈ parts, ∀ w, (p.1, w) ∈ others → Reordered [] p.2 w →
      (ofPart a p.2).agrees (ofPart a w) = true) :
    ∀ c ∈ childrenOf a parts, ∃ t, Members.find? c.1 (childrenOf a others) = some t ∧
      c.2.agrees t = true := by
  intro c hc
  obtain ⟨p, hp, rfl⟩ := List.mem_map.mp hc
  obtain ⟨w, hw, hr⟩ := h.counterpart hp
  have hmem : (p.1, ofPart a w) ∈ childrenOf a others := List.mem_map.mpr ⟨_, hw, rfl⟩
  have hkeys : (Members.keys (childrenOf a others)).Nodup := by
    simpa [Members.keys, childrenOf, Function.comp_def] using hk
  exact ⟨ofPart a w, Members.find?_of_mem hkeys hmem, ha p hp w hw hr⟩

theorem agrees_ofPart {v w : Json} (hv : v.Distinct) (hw : w.Distinct) (h : Reordered [] v w)
    (a : Bool) : (ofPart a v).agrees (ofPart a w) = true := by
  induction v using parts_induction generalizing w a with
  | step v ih =>
    have hparts := h.parts
    have hlen (b : Bool) : (childrenOf b v.parts).length = (childrenOf b w.parts).length := by
      rw [childrenOf, childrenOf, List.length_map, List.length_map, hparts.length_eq]
    have hchildren (b : Bool) := childrenOf_agree (a := b) hparts hw.keys_parts
      fun p hp x hx hr => ih p hp (hv.part hp) (hw.part hx) hr b
    cases h with
    | scalar hs =>
      rw [ofPart_scalar a hs]
      exact agrees_self rfl
    | @array items others h =>
      rw [ofPart_array a hv, ofPart_array a hw, h.homogeneous_eq, h.isEmpty_eq]
      exact agrees_iff.mpr ⟨rfl, rfl, rfl, rfl, rfl, hlen _, hchildren _⟩
    | @object members aligned others hm hp =>
      have hempty : members.isEmpty = others.isEmpty := by
        rw [Bool.eq_iff_iff, List.isEmpty_iff_length_eq_zero, List.isEmpty_iff_length_eq_zero]
        exact hparts.length_eq ▸ Iff.rfl
      rw [ofPart_object, ofPart_object, hempty]
      exact agrees_iff.mpr ⟨rfl, rfl, rfl, rfl, rfl, hlen false, hchildren false⟩

theorem agrees_ofDocument {v w : Json} (hv : v.Distinct) (hw : w.Distinct)
    (h : Reordered [] v w) : (ofDocument v).agrees (ofDocument w) = true := by
  rw [ofDocument, ofDocument, h.isContainer_eq]
  split
  · exact agrees_ofPart hv hw h false
  · exact agrees_self rfl

/-! Schemas. -/

/-- The lists of required names count as sets. -/
abbrev Alike : Json → Json → Prop := Reordered ["required"]

section Required

variable {parts others : List (String × Json)} (h : ReorderedParts [] parts others)
include h

theorem present_perm : (present parts).Perm (present others) :=
  h.names_filter_perm (f := fun v => !v.isNull) fun _ _ hr => by rw [hr.isNull_eq]

theorem presentScalars_perm : (presentScalars parts).Perm (presentScalars others) :=
  h.names_filter_perm (f := fun v => !v.isNull && !v.isContainer) fun _ _ hr => by
    rw [hr.isNull_eq, hr.isContainer_eq]

end Required

def propertiesJson (properties : List (String × Schema)) : Json :=
  .object (properties.map fun p => (p.1, p.2.document))

theorem alike_propertiesJson {a : Bool} {parts others : List (String × Json)}
    (h : ReorderedParts [] parts others)
    (ha : ∀ p ∈ parts, ∀ w, Reordered [] p.2 w →
      Alike (schema a p.2).document (schema a w).document) :
    Alike (propertiesJson (properties a parts)) (propertiesJson (properties a others)) := by
  have hmap (ps : List (String × Json)) : propertiesJson (properties a ps) =
      .object (ps.map fun p => (p.1, (schema a p.2).document)) := by
    rw [propertiesJson, properties, List.map_map]
    rfl
  rw [hmap, hmap]
  exact h.map (f := fun v => (schema a v).document) ha

/-- Two schemas that differ in properties and required names. -/
theorem alike_ofMembers (base : Schema) (position : Schema.Position)
    {properties others : List (String × Schema)} {required names : List String}
    (hp : Alike (propertiesJson properties) (propertiesJson others))
    (hr : required.Perm names) :
    Alike
      (Schema.toJson position
        { base with properties := some properties, required := some required })
      (Schema.toJson position
        { base with properties := some others, required := some names }) := by
  have hproperties : ReorderedMembers ["required"]
      [("properties", propertiesJson properties)] [("properties", propertiesJson others)] :=
    .cons _ hp .nil
  have hrequired : ReorderedMembers ["required"]
      [("required", .array (required.map .string))] [("required", .array (names.map .string))] :=
    .shuffle (by simp) (hr.map _) .nil
  obtain ⟨dialect, description, kind, minLength, minItems, uniqueItems, items, _, _⟩ := base
  simp only [Schema.toJson, Schema.propertiesToJson, Schema.membersToJson_eq_map, Shape.optional]
  refine .object (.append (ReorderedMembers.refl _) ?_) (List.Perm.refl _)
  cases position with
  | member => exact hproperties.append hrequired
  | items => exact hrequired.append hproperties

/-- Two schemas that differ in the schema of items. -/
theorem alike_items (base : Schema) (position : Schema.Position) {s t : Schema}
    (h : Alike (s.toJson .items) (t.toJson .items)) :
    Alike (Schema.toJson position { base with items := some s })
      (Schema.toJson position { base with items := some t }) := by
  have hitems : ReorderedMembers ["required"]
      [("items", s.toJson .items)] [("items", t.toJson .items)] := .cons _ h .nil
  obtain ⟨dialect, description, kind, minLength, minItems, uniqueItems, _, _, _⟩ := base
  simp only [Schema.toJson, Schema.itemsToJson]
  refine .object ?_ (List.Perm.refl _)
  exact ((ReorderedMembers.refl _).append hitems).append (ReorderedMembers.refl _)

theorem alike_schema {v w : Json} (h : Reordered [] v w) (a : Bool)
    (position : Schema.Position) :
    Alike ((schema a v).toJson position) ((schema a w).toJson position) := by
  induction v using parts_induction generalizing w a position with
  | step v ih =>
    have hparts := h.parts
    have hproperties (b : Bool) := alike_propertiesJson (a := b) hparts
      fun p hp x hr => ih p hp hr b .member
    cases h with
    | scalar hs => exact Reordered.refl _
    | @array items others h =>
      rw [schema_array, schema_array, h.homogeneous_eq]
      exact alike_items
        { kind := some .array
          uniqueItems := if homogeneous others || a then some true else none
          minItems := if homogeneous others then some 1 else none } position
        (alike_ofMembers {} .items (hproperties _) (presentScalars_perm hparts))
    | @object members aligned others hm hp =>
      rw [schema_object, schema_object]
      exact alike_ofMembers { kind := some .object } _ (hproperties false) (present_perm hparts)

theorem alike_inferJson {v w : Json} (hv : v.Distinct) (hw : w.Distinct)
    (h : Reordered [] v w) : Alike (Schema.inferJson v) (Schema.inferJson w) := by
  have hparts := h.parts
  have hproperties (a : Bool) := alike_propertiesJson (a := a) hparts
    fun _ _ _ hr => alike_schema hr a .member
  have hrequired := present_perm hparts
  rw [Schema.inferJson, Schema.inferJson, Schema.infer, Schema.infer, compile_ofDocument v hv,
    compile_ofDocument w hw]
  cases h with
  | scalar _ => exact Reordered.refl _
  | @array items others h =>
    rw [document, document, h.homogeneous_eq]
    exact alike_items
      { dialect := some Schema.draft04
        description := some ""
        kind := some .array
        minItems := some 1
        uniqueItems := some true } .member
      (alike_ofMembers { kind := some .object } .items (hproperties _) hrequired)
  | @object members aligned others hm hp =>
    exact alike_ofMembers
      { dialect := some Schema.draft04
        description := some ""
        kind := some .object } .member (hproperties false) hrequired

/-- Reordering the members of objects in a document reorders the children in its tree, and the
properties and required names in its schema, and changes nothing else. -/
theorem infer_of_reordered {v w : Json} (hv : v.Distinct) (hw : w.Distinct)
    (h : Reordered [] v w) :
    Reordered ["required"] (Schema.inferJson v) (Schema.inferJson w) ∧
      (ofDocument v).agrees (ofDocument w) = true :=
  ⟨alike_inferJson hv hw h, agrees_ofDocument hv hw h⟩

def tagged (id tag : Json) : Json := .object [("id", id), ("tag", tag)]

def taggedFirst (id tag : Json) : Json := .object [("tag", tag), ("id", id)]

def listing : Json :=
  .object [("rows", .array [tagged (.string "7") .null, taggedFirst (.string "8") (.string "x")]),
    ("flag", .bool true)]

def reorderedListing : Json :=
  .object [("flag", .bool true),
    ("rows", .array [taggedFirst (.string "7") .null, tagged (.string "8") (.string "x")])]

theorem infer_of_reordered_listing :
    listing.Distinct ∧ reorderedListing.Distinct ∧ Reordered [] listing reorderedListing ∧
      Reordered ["required"] (Schema.inferJson listing) (Schema.inferJson reorderedListing) ∧
      (ofDocument listing).agrees (ofDocument reorderedListing) = true := by
  have hv : listing.Distinct := by decide
  have hw : reorderedListing.Distinct := by decide
  have hfirst : Reordered [] (tagged (.string "7") .null) (taggedFirst (.string "7") .null) :=
    .object (.refl _) (.swap _ _ _)
  have hsecond : Reordered [] (taggedFirst (.string "8") (.string "x"))
      (tagged (.string "8") (.string "x")) := .object (.refl _) (.swap _ _ _)
  have h : Reordered [] listing reorderedListing :=
    .object (.cons "rows" (.array (.cons hfirst (.cons hsecond .nil))) (.refl _)) (.swap _ _ _)
  exact ⟨hv, hw, h, infer_of_reordered hv hw h⟩

end SchemaByExample.MemberOrder
