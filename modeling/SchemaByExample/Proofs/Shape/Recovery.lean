import SchemaByExample.Proofs.Schema.Injective
import SchemaByExample.Proofs.Schema.Outline
import SchemaByExample.Proofs.Shape.WellFormed

/-! The tree of a document from its schema. A schema drops marks of the tree, but in a
well-formed tree the marks follow from what is kept and from where a node stands. So a
document that is no array has the schema of another one exactly when it has its tree. -/
namespace SchemaByExample.Shape

open Json Outline

theorem ofShape_of_scalar {s : Shape} (h : Schema.isContainerKind s.kind = false) :
    Schema.ofShape s = { kind := s.kind, minLength := s.minLength.filter (0 < ·) } := by
  obtain ⟨kind, children, required, minLength, uniqueItems, minItems⟩ := s
  rw [Schema.ofShape]
  · rintro rfl
    cases h
  · rintro rfl
    cases h

theorem kind_ofShape (s : Shape) : (Schema.ofShape s).kind = s.kind := by
  cases hk : s.kind with
  | none => rw [ofShape_of_scalar (by rw [hk]; rfl), hk]
  | some k =>
    cases k with
    | object =>
      rw [ofShape_of_object hk]
      rfl
    | array => rw [ofShape_of_array hk]
    | _ => rw [ofShape_of_scalar (by rw [hk]; rfl), hk]

theorem ofPairs_ofShapes {children : List (String × Shape)}
    (h : (Members.keys children).Nodup) :
    Members.ofPairs (Schema.ofShapes children) =
      children.map fun c => (c.1, Schema.ofShape c.2) := by
  rw [ofShapes_eq_map]
  apply Members.ofPairs_eq_self
  simpa [Members.keys, Function.comp_def] using h

/-- Children are told by the schemas under their names, if each child is. -/
theorem children_eq_of_ofShapes {children others : List (String × Shape)}
    (hc : (Members.keys children).Nodup) (ho : (Members.keys others).Nodup)
    (h : Members.ofPairs (Schema.ofShapes children) = Members.ofPairs (Schema.ofShapes others))
    (hs : ∀ c ∈ children, ∀ d ∈ others,
      Schema.ofShape c.2 = Schema.ofShape d.2 → c.2 = d.2) : children = others := by
  rw [ofPairs_ofShapes hc, ofPairs_ofShapes ho] at h
  exact Members.eq_of_map_eq h hs

/-- Only a text has a length, and a length of zero is known from its not being there. -/
theorem minLength_eq_of_filter {s t : Shape} (hs : IsPrimitive s) (ht : IsPrimitive t)
    (hk : s.kind = t.kind)
    (h : s.minLength.filter (0 < ·) = t.minLength.filter (0 < ·)) :
    s.minLength = t.minLength := by
  have hsl := hs.minLength
  have htl := ht.minLength
  rw [← hk] at htl
  by_cases hstring : s.kind = some .string
  · rw [if_pos hstring] at hsl htl
    obtain hsl | hsl := hsl <;> obtain htl | htl := htl <;> rw [hsl, htl] at h ⊢
    · exact absurd h (by decide)
    · exact absurd h (by decide)
  · rw [if_neg hstring] at hsl htl
    rw [hsl, htl]

theorem kind_eq_of_ofShape {s t : Shape} (h : Schema.ofShape s = Schema.ofShape t) :
    s.kind = t.kind := by
  rw [← kind_ofShape s, h, kind_ofShape]

/-- What the schema of an array tells of the array. -/
theorem array_eq_of_ofShape {s t : Shape} (hs : s.kind = some .array) (ht : t.kind = some .array)
    (h : Schema.ofShape s = Schema.ofShape t) : s.minItems = t.minItems ∧
      Members.ofPairs (Schema.ofShapes s.children) =
        Members.ofPairs (Schema.ofShapes t.children) := by
  rw [ofShape_of_array hs, ofShape_of_array ht] at h
  have hminItems : s.minItems = t.minItems := congrArg Schema.minItems h
  have hitems := Option.some.inj (congrArg Schema.items h)
  exact ⟨hminItems, Option.some.inj (congrArg Schema.properties hitems)⟩

/-- In one role, a well-formed node is determined by its schema. -/
theorem eq_of_ofShape {role : Role} {s t : Shape} (hs : WellFormed role s)
    (ht : WellFormed role t) (h : Schema.ofShape s = Schema.ofShape t) : s = t := by
  have hkind := kind_eq_of_ofShape h
  induction hs generalizing t with
  | @primitive role s hs _ =>
    have hp := ht.isPrimitive (hkind ▸ hs.kind)
    rw [ofShape_of_scalar hs.kind, ofShape_of_scalar hp.kind] at h
    exact hs.eq hp hkind (minLength_eq_of_filter hs hp hkind (congrArg Schema.minLength h))
  | @object role s hs _ ih =>
    obtain ⟨hobject, hc⟩ := ht.isObject (hkind ▸ hs.kind)
    rw [ofShape_of_object hs.kind, ofShape_of_object hobject.kind] at h
    have hproperties := Option.some.inj (congrArg Schema.properties h)
    refine hs.eq hobject (children_eq_of_ofShapes hs.names hobject.names hproperties ?_)
    intro c hcs d hd heq
    exact ih c hcs (hc d hd) heq (kind_eq_of_ofShape heq)
  | @collapsed role s hs _ ih =>
    have hk := hkind ▸ hs.kind
    obtain ⟨hitems, hproperties⟩ := array_eq_of_ofShape hs.kind hk h
    obtain ⟨hcollapsed, hc⟩ := ht.isCollapsed hk (hitems ▸ hs.minItems)
    refine hs.eq hcollapsed (children_eq_of_ofShapes hs.names hcollapsed.names hproperties ?_)
    intro c hcs d hd heq
    exact ih c hcs (hc d hd) heq (kind_eq_of_ofShape heq)
  | @apart role s hs _ ih =>
    have hk := hkind ▸ hs.kind
    obtain ⟨hitems, hproperties⟩ := array_eq_of_ofShape hs.kind hk h
    obtain ⟨hapart, hc⟩ := ht.isApart hk (hitems ▸ hs.minItems)
    refine hs.eq hapart
      (children_eq_of_ofShapes hs.places.names hapart.places.names hproperties ?_)
    intro c hcs d hd heq
    exact ih c hcs (hc d hd) heq (kind_eq_of_ofShape heq)

theorem kind_ofDocument {v : Json} (h : v.kind? ≠ some .array) :
    (ofDocument v).kind = some .object := by
  cases v with
  | array items => exact absurd rfl h
  | object members => rfl
  | _ => rfl

/-- Two documents that are no arrays have one schema exactly when they have one tree. -/
theorem inferJson_eq_iff {v w : Json} (hv : v.Distinct) (hw : w.Distinct)
    (hva : v.kind? ≠ some .array) (hwa : w.kind? ≠ some .array) :
    Schema.inferJson v = Schema.inferJson w ↔ ofDocument v = ofDocument w := by
  have hvk := kind_ofDocument hva
  have hwk := kind_ofDocument hwa
  constructor
  · intro h
    have hinfer : Schema.infer v = Schema.infer w := Schema.toJson_injective h
    rw [Schema.infer, Schema.infer, compile_of_object hvk, compile_of_object hwk] at hinfer
    have hroot := congrArg Schema.asPart hinfer
    rw [Schema.asPart_asDocument rfl rfl, Schema.asPart_asDocument rfl rfl] at hroot
    have hshape : Schema.ofShape (ofDocument v) = Schema.ofShape (ofDocument w) := by
      rw [ofShape_of_object hvk, ofShape_of_object hwk]
      exact hroot
    exact eq_of_ofShape (wellFormed_node hv .root) (wellFormed_node hw .root) hshape
  · intro h
    rw [Schema.inferJson, Schema.inferJson, Schema.infer, Schema.infer, h]

def batch (numbers : List UInt32) : Json :=
  .object [("rows", .array (numbers.map fun n => .object [
    ("text", .string ""), ("n", .natural n), ("list", .array [.object [], .null])])),
    ("none", .null)]

theorem inferJson_eq_batch : (batch [1]).Distinct ∧ (batch [2, 3]).Distinct ∧
    (batch [1]).kind? ≠ some .array ∧ (batch [2, 3]).kind? ≠ some .array ∧
    (Schema.inferJson (batch [1]) = Schema.inferJson (batch [2, 3]) ↔
      ofDocument (batch [1]) = ofDocument (batch [2, 3])) := by
  have h₁ : (batch [1]).Distinct := by decide
  have h₂ : (batch [2, 3]).Distinct := by decide
  have hk₁ : (batch [1]).kind? ≠ some .array := by decide
  have hk₂ : (batch [2, 3]).kind? ≠ some .array := by decide
  exact ⟨h₁, h₂, hk₁, hk₂, inferJson_eq_iff h₁ h₂ hk₁ hk₂⟩

/-- The root of an array keeps no marks: arrays with two trees may have one schema. -/
example : (Schema.inferJson (.array [.null])).compact =
      (Schema.inferJson (.array [.object [("0", .null)]])).compact ∧
    (ofDocument (.array [.null])).minItems ≠
      (ofDocument (.array [.object [("0", .null)]])).minItems := by
  decide +kernel

end SchemaByExample.Shape
