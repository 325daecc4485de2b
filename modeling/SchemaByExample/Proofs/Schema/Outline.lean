import SchemaByExample.Infer
import SchemaByExample.Proofs.Shape.Children

/-! Inference in one pass. The outline of a document is its schema, written down from the
document itself by the parts of each container, without a tree between them. -/
namespace SchemaByExample.Outline

open Json

def present (parts : List (String × Json)) : List String :=
  (parts.filter fun p => !p.2.isNull).map (·.1)

def presentScalars (parts : List (String × Json)) : List String :=
  (parts.filter fun p => !p.2.isNull && !p.2.isContainer).map (·.1)

def text (s : String) : Schema :=
  if NumericText.isNumeric s then { kind := some .number }
  else { kind := some .string, minLength := if s.isEmpty then none else some 1 }

/-- The schema of a value below the root; `apart` tells that it is an item of an array that
is not homogeneous. -/
def schema (apart : Bool) : Json → Schema
  | .null => {}
  | .bool _ => { kind := some .boolean }
  | .number _ => { kind := some .number }
  | .string s => text s
  | .object members =>
    { kind := some .object
      properties := some (members.attach.map fun p => (p.1.1, schema false p.1.2))
      required := some (present members) }
  | .array items =>
    { kind := some .array
      uniqueItems := if homogeneous items || apart then some true else none
      minItems := if homogeneous items then some 1 else none
      items := some
        { properties := some ((itemParts items).attach.map fun p =>
            (p.1.1, schema (!homogeneous items) p.1.2))
          required := some (presentScalars (itemParts items)) } }
termination_by v => sizeOf v
decreasing_by
  · exact sizeOf_lt_of_mem p.2
  · exact sizeOf_lt_of_mem_parts (v := .array items) p.2

def properties (apart : Bool) (parts : List (String × Json)) : List (String × Schema) :=
  parts.map fun p => (p.1, schema apart p.2)

/-- The schema of a document. An array describes its items as objects, and every other
document counts as an object. -/
def document : Json → Schema
  | .array items =>
    { dialect := some Schema.draft04
      description := some ""
      kind := some .array
      minItems := some 1
      uniqueItems := some true
      items := some
        { kind := some .object
          properties := some (properties (!homogeneous items) (itemParts items))
          required := some (present (itemParts items)) } }
  | v =>
    { dialect := some Schema.draft04
      description := some ""
      kind := some .object
      properties := some (properties false v.parts)
      required := some (present v.parts) }

theorem map_attach_eq_properties (apart : Bool) (parts : List (String × Json)) :
    (parts.attach.map fun p => (p.1.1, schema apart p.1.2)) = properties apart parts :=
  List.attach_map_val (f := fun p : String × Json => (p.1, schema apart p.2))

theorem schema_object (apart : Bool) (members : List (String × Json)) :
    schema apart (.object members) =
      Schema.ofObject (properties false members) (present members) := by
  rw [schema.eq_def]
  simp only [map_attach_eq_properties]
  rfl

theorem schema_array (apart : Bool) (items : List Json) :
    schema apart (.array items) =
      { kind := some .array
        uniqueItems := if homogeneous items || apart then some true else none
        minItems := if homogeneous items then some 1 else none
        items := some (Schema.ofMembers (properties (!homogeneous items) (itemParts items))
          (presentScalars (itemParts items))) } := by
  rw [schema.eq_def]
  simp only [map_attach_eq_properties]
  rfl

/-- A text that counts as a number has no length, and a least length of zero is dropped. -/
theorem ofShape_text (s : String) : Schema.ofShape (Shape.ofPrimitive (.string s)) = text s := by
  cases h : NumericText.isNumeric s with
  | true =>
    have hk : (Json.string s).kind? = some .number := by simp [kind?, h]
    rw [Shape.ofPrimitive_of_kind_ne (by simp [hk]), hk, text, if_pos h]
    rfl
  | false =>
    have hk : (Json.string s).kind? = some .string := by simp [kind?, h]
    rw [Shape.ofPrimitive_of_kind_eq hk, text, h]
    cases s.isEmpty <;> rfl

theorem ofShape_scalar (apart : Bool) {v : Json} (h : v.isContainer = false) :
    Schema.ofShape (Shape.ofPart apart v) = schema apart v := by
  rw [Shape.ofPart_scalar apart h, schema.eq_def]
  cases v with
  | array items => simp [isContainer] at h
  | object members => simp [isContainer] at h
  | string s => exact ofShape_text s
  | _ => rfl

theorem ofShapes_eq_map (children : List (String × Shape)) :
    Schema.ofShapes children = children.map fun c => (c.1, Schema.ofShape c.2) := by
  induction children with
  | nil => rfl
  | cons c rest ih => rw [Schema.ofShapes, ih, List.map_cons]

theorem ofShape_of_object {s : Shape} (h : s.kind = some .object) :
    Schema.ofShape s = Schema.ofObject (Members.ofPairs (Schema.ofShapes s.children))
      (Schema.requiredNames .object s.children) := by
  obtain ⟨kind, children, required, minLength, uniqueItems, minItems⟩ := s
  subst h
  rw [Schema.ofShape]

theorem ofShape_of_array {s : Shape} (h : s.kind = some .array) :
    Schema.ofShape s =
      { kind := some .array
        uniqueItems := s.uniqueItems
        minItems := s.minItems
        items := some (Schema.ofMembers (Members.ofPairs (Schema.ofShapes s.children))
          (Schema.requiredNames .items s.children)) } := by
  obtain ⟨kind, children, required, minLength, uniqueItems, minItems⟩ := s
  subst h
  rw [Schema.ofShape]

variable {parts : List (String × Json)}

/-- No name occurs twice among parts, so that no schema replaces another. -/
theorem ofPairs_childrenOf (apart : Bool) (hk : (Members.keys parts).Nodup)
    (h : ∀ p ∈ parts, Schema.ofShape (Shape.ofPart apart p.2) = schema apart p.2) :
    Members.ofPairs (Schema.ofShapes (Shape.childrenOf apart parts)) = properties apart parts := by
  have hmap : Schema.ofShapes (Shape.childrenOf apart parts) = properties apart parts := by
    rw [ofShapes_eq_map, Shape.childrenOf, properties, List.map_map]
    exact List.map_congr_left fun p hp => congrArg (p.1, ·) (h p hp)
  rw [hmap]
  apply Members.ofPairs_eq_self
  simpa [properties, Members.keys, Function.comp_def] using hk

theorem requiredNames_childrenOf (target : Schema.Target) (apart : Bool)
    (hd : ∀ p ∈ parts, p.2.Distinct) :
    Schema.requiredNames target (Shape.childrenOf apart parts) = match target with
      | .object => present parts
      | .items => presentScalars parts := by
  have hl : ∀ p ∈ parts, Schema.lists target (Shape.ofPart apart p.2) =
      (!p.2.isNull && (target = .object || !p.2.isContainer)) :=
    fun p hp => Shape.lists_ofPart target apart (hd p hp)
  have hf := List.filter_congr hl
  rw [Schema.requiredNames, Shape.childrenOf, List.filter_map, List.map_map]
  cases target <;> simp_all [present, presentScalars, Function.comp_def]

/-- The tree of a value compiles to its outline. -/
theorem ofShape_ofPart {v : Json} (hd : v.Distinct) (apart : Bool) :
    Schema.ofShape (Shape.ofPart apart v) = schema apart v := by
  induction v using parts_induction generalizing apart with
  | step v ih =>
    cases v with
    | object members =>
      have hm : ∀ p ∈ members, p.2.Distinct := fun p => hd.member
      have hs : ∀ p ∈ members, Schema.ofShape (Shape.ofPart false p.2) = schema false p.2 :=
        fun p hp => ih p hp (hm p hp) false
      rw [Shape.ofPart_object, ofShape_of_object rfl, ofPairs_childrenOf false hd.keys hs,
        requiredNames_childrenOf .object false hm, schema_object]
    | array items =>
      have hm : ∀ p ∈ itemParts items, p.2.Distinct := fun p => Distinct.part hd
      have hs : ∀ p ∈ itemParts items, Schema.ofShape (Shape.ofPart (!homogeneous items) p.2) =
          schema (!homogeneous items) p.2 := fun p hp => ih p hp (hm p hp) _
      rw [Shape.ofPart_array apart hd, ofShape_of_array rfl, ofPairs_childrenOf _ hd.itemParts hs,
        requiredNames_childrenOf .items _ hm, schema_array]
    | _ => exact ofShape_scalar apart rfl

def rootObject (tree : Shape) : Schema :=
  Schema.ofObject (Members.ofPairs (Schema.ofShapes tree.children))
    (Schema.requiredNames .object tree.children)

theorem compile_of_object {tree : Shape} (h : tree.kind = some .object) :
    Schema.compile tree = (rootObject tree).asDocument := by
  simp only [Schema.compile, h, if_true]
  rfl

theorem compile_of_array {tree : Shape} (h : tree.kind = some .array) :
    Schema.compile tree = Schema.asDocument
      { kind := some .array
        minItems := some 1
        uniqueItems := some true
        items := some (rootObject tree) } := by
  simp only [Schema.compile, h, Option.some.injEq, reduceCtorEq, if_false]
  rfl

theorem rootObject_of_children {v : Json} (hd : v.Distinct) (apart : Bool) {tree : Shape}
    (h : tree.children = Shape.childrenOf apart v.parts) :
    rootObject tree = Schema.ofObject (properties apart v.parts) (present v.parts) := by
  have hs : ∀ p ∈ v.parts, Schema.ofShape (Shape.ofPart apart p.2) = schema apart p.2 :=
    fun p hp => ofShape_ofPart (hd.part hp) apart
  rw [rootObject, h, ofPairs_childrenOf apart hd.keys_parts hs,
    requiredNames_childrenOf .object apart fun p => hd.part]

/-- The tree of a document compiles to its outline. -/
theorem compile_ofDocument (v : Json) (hd : v.Distinct) :
    Schema.compile (Shape.ofDocument v) = document v := by
  cases v with
  | object members =>
    have ht : Shape.ofDocument (.object members) = Shape.ofPart false (.object members) := rfl
    rw [ht, Shape.ofPart_object, compile_of_object rfl, rootObject_of_children hd false rfl]
    rfl
  | array items =>
    have ht : Shape.ofDocument (.array items) = Shape.ofPart false (.array items) := rfl
    rw [ht, Shape.ofPart_array false hd, compile_of_array rfl,
      rootObject_of_children hd (!homogeneous items) rfl]
    rfl
  | _ => rfl

/-- The schema of every document is its outline, the order of members included. -/
theorem infer_eq_document (v : Json) (hd : v.Distinct) : Schema.infer v = document v := by
  rw [Schema.infer, compile_ofDocument v hd]

def nested : Json :=
  .object [
    ("rows", .array [.array [.object [("k", .bool true), ("l", .array [.null])],
      .object [("l", .null), ("k", .null)]], .string "x"]),
    ("mixed", .array [.object [("k", .string "")], .string "7", .array [.bool false]]),
    ("none", .null)]

theorem infer_nested : nested.Distinct ∧ Schema.infer nested = document nested :=
  ⟨by decide, infer_eq_document nested (by decide)⟩

end SchemaByExample.Outline
