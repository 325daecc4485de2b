import SchemaByExample.Schema.Reader

/-! Schemas by their fields. The JSON form of a schema lists the fields that are set, in an
order that depends on where the schema stands. -/
namespace SchemaByExample.Schema

open Json

mutual

def Distinct : Schema → Prop
  | ⟨_, _, _, _, _, _, items, properties, _⟩ =>
    DistinctItems items ∧ DistinctProperties properties

def DistinctItems : Option Schema → Prop
  | none => True
  | some s => Distinct s

def DistinctProperties : Option (List (String × Schema)) → Prop
  | none => True
  | some ps => (Members.keys ps).Nodup ∧ DistinctMembers ps

def DistinctMembers : List (String × Schema) → Prop
  | [] => True
  | (_, s) :: rest => Distinct s ∧ DistinctMembers rest

end

theorem distinctMembers_iff {ps : List (String × Schema)} :
    DistinctMembers ps ↔ ∀ p ∈ ps, p.2.Distinct := by
  induction ps with
  | nil => simp [DistinctMembers]
  | cons p rest ih => rw [DistinctMembers, ih, List.forall_mem_cons]

theorem Distinct.items {s i : Schema} (h : s.Distinct) (hi : s.items = some i) : i.Distinct := by
  obtain ⟨_, _, _, _, _, _, items, properties, _⟩ := s
  subst hi
  exact h.1

theorem Distinct.keys {s : Schema} {ps : List (String × Schema)} (h : s.Distinct)
    (hp : s.properties = some ps) : (Members.keys ps).Nodup := by
  obtain ⟨_, _, _, _, _, _, items, properties, _⟩ := s
  subst hp
  exact h.2.1

theorem Distinct.property {s : Schema} {ps : List (String × Schema)} (h : s.Distinct)
    (hp : s.properties = some ps) {p : String × Schema} (hm : p ∈ ps) : p.2.Distinct := by
  obtain ⟨_, _, _, _, _, _, items, properties, _⟩ := s
  subst hp
  exact distinctMembers_iff.mp h.2.2 p hm

/-- What passes to a schema from its items and its properties holds of every schema. -/
theorem parts_induction {motive : Schema → Prop}
    (step : ∀ s, (∀ i, s.items = some i → motive i) →
      (∀ ps, s.properties = some ps → ∀ p ∈ ps, motive p.2) → motive s) (s : Schema) :
    motive s := by
  refine step s (fun i hi => parts_induction step i) (fun ps hps p hp => parts_induction step p.2)
termination_by sizeOf s
decreasing_by
  · obtain ⟨_, _, _, _, _, _, items, properties, _⟩ := s
    subst hi
    simp only [mk.sizeOf_spec, Option.some.sizeOf_spec]
    omega
  · obtain ⟨_, _, _, _, _, _, items, properties, _⟩ := s
    subst hps
    have hlt := List.sizeOf_lt_of_mem hp
    obtain ⟨k, t⟩ := p
    simp only [mk.sizeOf_spec, Option.some.sizeOf_spec, Prod.mk.sizeOf_spec] at hlt ⊢
    omega

def value? (s : Schema) : Field → Option Json
  | .dialect => s.dialect.map .string
  | .description => s.description.map .string
  | .kind => s.kind.map fun k => .string k.name
  | .minLength => s.minLength.map .natural
  | .minItems => s.minItems.map .natural
  | .uniqueItems => s.uniqueItems.map .bool
  | .items => s.items.map (toJson .items)
  | .properties => s.properties.map fun ps => .object (ps.map fun p => (p.1, p.2.document))
  | .required => s.required.map fun names => .array (names.map .string)

def fieldOrder : Position → List Field
  | .member => Field.all
  | .items =>
    [.dialect, .description, .kind, .minLength, .minItems, .uniqueItems, .items, .required,
      .properties]

def written (s : Schema) (fields : List Field) : List (String × Json) :=
  fields.filterMap fun f => (s.value? f).map (f.name, ·)

def asPart (s : Schema) : Schema := { s with dialect := none, description := none }

theorem asPart_asDocument {s : Schema} (hd : s.dialect = none) (ht : s.description = none) :
    s.asDocument.asPart = s := by
  cases s
  subst hd ht
  rfl

theorem membersToJson_eq_map (properties : List (String × Schema)) :
    membersToJson properties = properties.map fun p => (p.1, p.2.document) := by
  induction properties with
  | nil => rfl
  | cons p rest ih => rw [membersToJson, ih, List.map_cons, document]

theorem written_nil (s : Schema) : s.written [] = [] := rfl

theorem written_cons (s : Schema) (f : Field) (fields : List Field) :
    s.written (f :: fields) =
      ((s.value? f).map fun v => (f.name, v)).toList ++ s.written fields := by
  rw [written, List.filterMap_cons]
  cases s.value? f <;> rfl

theorem written_cons_some {s : Schema} {f : Field} {v : Json} (h : s.value? f = some v)
    (fields : List Field) : s.written (f :: fields) = (f.name, v) :: s.written fields := by
  rw [written_cons, h]
  rfl

theorem written_cons_none {s : Schema} {f : Field} (h : s.value? f = none)
    (fields : List Field) : s.written (f :: fields) = s.written fields := by
  rw [written_cons, h]
  rfl

theorem optional_eq_toList {α : Type} (name : String) (f : α → Json) (o : Option α) :
    Shape.optional name f o = ((o.map f).map fun v => (name, v)).toList := by
  cases o <;> rfl

theorem itemsToJson_eq_toList (items : Option Schema) :
    itemsToJson items = ((items.map (toJson .items)).map fun v => ("items", v)).toList := by
  cases items <;> rfl

theorem propertiesToJson_eq_toList (properties : Option (List (String × Schema))) :
    propertiesToJson properties =
      ((properties.map fun ps => Json.object (ps.map fun p => (p.1, p.2.document))).map
        fun v => ("properties", v)).toList := by
  cases properties with
  | none => rfl
  | some ps =>
    rw [propertiesToJson, membersToJson_eq_map]
    rfl

/-- The JSON form lists the fields that are set. -/
theorem toJson_eq_written (s : Schema) (position : Position) :
    s.toJson position = .object (s.written (fieldOrder position)) := by
  obtain ⟨dialect, description, kind, minLength, minItems, uniqueItems, items, properties,
    required⟩ := s
  cases position <;>
    simp only [toJson, optional_eq_toList, itemsToJson_eq_toList, propertiesToJson_eq_toList,
      fieldOrder, Field.all, written_cons, written_nil, value?, Field.name, List.append_assoc,
      List.append_nil]

/-- The schema that agrees with a given one on some fields and sets no other. -/
def only (s : Schema) (fields : List Field) : Schema where
  dialect := if .dialect ∈ fields then s.dialect else none
  description := if .description ∈ fields then s.description else none
  kind := if .kind ∈ fields then s.kind else none
  minLength := if .minLength ∈ fields then s.minLength else none
  minItems := if .minItems ∈ fields then s.minItems else none
  uniqueItems := if .uniqueItems ∈ fields then s.uniqueItems else none
  items := if .items ∈ fields then s.items else none
  properties := if .properties ∈ fields then s.properties else none
  required := if .required ∈ fields then s.required else none

theorem only_nil (s : Schema) : s.only [] = {} := by simp [only]

/-- Fields that are not set are not missed. -/
theorem only_eq_self {s : Schema} {fields : List Field}
    (h : ∀ f, f ∈ fields ∨ s.value? f = none) : s.only fields = s := by
  obtain ⟨dialect, description, kind, minLength, minItems, uniqueItems, items, properties,
    required⟩ := s
  have hset {α : Type} {p : Prop} [Decidable p] {o : Option α} (ho : p ∨ o = none) :
      (if p then o else none) = o := by
    by_cases hp : p
    · exact if_pos hp
    · rw [if_neg hp, ho.resolve_left hp]
  simp only [only, mk.injEq]
  refine ⟨hset ?_, hset ?_, hset ?_, hset ?_, hset ?_, hset ?_, hset ?_, hset ?_, hset ?_⟩
  · simpa [value?] using h .dialect
  · simpa [value?] using h .description
  · simpa [value?] using h .kind
  · simpa [value?] using h .minLength
  · simpa [value?] using h .minItems
  · simpa [value?] using h .uniqueItems
  · simpa [value?] using h .items
  · simpa [value?] using h .properties
  · simpa [value?] using h .required

end SchemaByExample.Schema
