import SchemaByExample.Proofs.Schema.Fields

/-! Validity of documents against the schemas written here, in the terms of draft 4. Every
keyword says something about values of one type and nothing about all others. -/
namespace SchemaByExample

open Number

def JsonNumber.units : JsonNumber → Int
  | .word n => n.value * twoTo Format.double.lowest
  | .double x => x.signedUnits

namespace Json

mutual

/-- Whether two documents are one instance: members may stand in any order, and numbers
count by their values. -/
def same : Json → Json → Bool
  | .null, .null => true
  | .bool a, .bool b => a == b
  | .number m, .number n => m.units == n.units
  | .string s, .string t => s == t
  | .array items, .array others => sameItems items others
  | .object members, .object others =>
    members.length == others.length && sameMembers members others
  | _, _ => false

def sameItems : List Json → List Json → Bool
  | [], [] => true
  | v :: rest, w :: others => same v w && sameItems rest others
  | _, _ => false

def sameMembers : List (String × Json) → List (String × Json) → Bool
  | [], _ => true
  | (k, v) :: rest, others =>
    (match Members.find? k others with
      | some w => same v w
      | none => false) && sameMembers rest others

end

end Json

namespace Draft04

open Json

def typeName : Json → String
  | .null => "null"
  | .bool _ => "boolean"
  | .number _ => "number"
  | .string _ => "string"
  | .array _ => "array"
  | .object _ => "object"

/-- What a keyword without schemas in it says about a value; an argument of another form than
the schemas here have says nothing. -/
def holds (keyword : String) (argument value : Json) : Bool :=
  match keyword, argument, value with
  | "type", .string name, v => name == typeName v
  | "minLength", .number (.word n), .string s => n.value ≤ s.length
  | "minItems", .number (.word n), .array items => n.value ≤ items.length
  | "uniqueItems", .bool unique, .array items =>
    !unique || items.Pairwise (fun v w => v.same w = false)
  | "required", .array names, .object members =>
    names.all fun name => members.any fun m => name.same (.string m.1)
  | _, _, _ => true

def itemsOf : Json → List Json
  | .array items => items
  | _ => []

def membersOf : Json → List (String × Json)
  | .object members => members
  | _ => []

mutual

def accepts : Json → Json → Bool
  | .object keywords, value => acceptsAll keywords value
  | _, _ => false

def acceptsAll : List (String × Json) → Json → Bool
  | [], _ => true
  | (keyword, argument) :: rest, value =>
    (if keyword = "items" then (itemsOf value).all (accepts argument)
      else if keyword = "properties" then acceptsProperties argument (membersOf value)
      else holds keyword argument value) && acceptsAll rest value

def acceptsProperties : Json → List (String × Json) → Bool
  | .object properties, members => acceptsMembers properties members
  | _, _ => false

def acceptsMembers : List (String × Json) → List (String × Json) → Bool
  | [], _ => true
  | (name, schema) :: rest, members =>
    (members.all fun m => m.1 != name || accepts schema m.2) && acceptsMembers rest members

end

theorem acceptsAll_append (keywords others : List (String × Json)) (v : Json) :
    acceptsAll (keywords ++ others) v = (acceptsAll keywords v && acceptsAll others v) := by
  induction keywords with
  | nil => simp [acceptsAll]
  | cons p rest ih =>
    obtain ⟨keyword, argument⟩ := p
    rw [List.cons_append, acceptsAll, acceptsAll, ih, Bool.and_assoc]

theorem acceptsMembers_iff {properties members : List (String × Json)} :
    acceptsMembers properties members = true ↔
      ∀ p ∈ properties, ∀ m ∈ members, m.1 = p.1 → accepts p.2 m.2 = true := by
  induction properties with
  | nil => simp [acceptsMembers]
  | cons p rest ih =>
    obtain ⟨name, schema⟩ := p
    simp only [acceptsMembers, Bool.and_eq_true, List.all_eq_true, ih, List.forall_mem_cons,
      Bool.or_eq_true, bne_iff_ne, ← Decidable.imp_iff_not_or]

structure Admits (s : Schema) (v : Json) : Prop where
  kind : ∀ k, s.kind = some k → k.name = typeName v
  minLength : ∀ n, s.minLength = some n → ∀ t, v = .string t → n.toNat ≤ t.length
  minItems : ∀ n, s.minItems = some n → ∀ items, v = .array items → n.toNat ≤ items.length
  uniqueItems : s.uniqueItems = some true → (itemsOf v).Pairwise fun w x => w.same x = false
  items : ∀ i, s.items = some i → ∀ w ∈ itemsOf v, accepts i.document w = true
  properties : ∀ ps, s.properties = some ps → ∀ p ∈ ps, ∀ m ∈ membersOf v, m.1 = p.1 →
    accepts p.2.document m.2 = true
  required : ∀ names, s.required = some names → ∀ members, v = .object members →
    ∀ k ∈ names, k ∈ Members.keys members

variable {v : Json}

theorem acceptsAll_optional {α : Type} {keyword : String} {f : α → Json} {P : α → Prop}
    (hi : keyword ≠ "items") (hp : keyword ≠ "properties")
    (h : ∀ a, holds keyword (f a) v = true ↔ P a) (o : Option α) :
    acceptsAll (Shape.optional keyword f o) v = true ↔ ∀ a, o = some a → P a := by
  cases o with
  | none => simp [Shape.optional, acceptsAll]
  | some a => simp [Shape.optional, acceptsAll, hi, hp, h]

theorem holds_dialect (text : String) : holds "$schema" (.string text) v = true ↔ True :=
  iff_of_true rfl trivial

theorem holds_description (text : String) :
    holds "description" (.string text) v = true ↔ True :=
  iff_of_true rfl trivial

theorem holds_type (k : Kind) : holds "type" (.string k.name) v = true ↔ k.name = typeName v :=
  beq_iff_eq

theorem holds_minLength (n : UInt32) : holds "minLength" (natural n) v = true ↔
    ∀ t, v = .string t → n.toNat ≤ t.length := by
  cases v <;> simp [holds, natural]

theorem holds_minItems (n : UInt32) : holds "minItems" (natural n) v = true ↔
    ∀ items, v = .array items → n.toNat ≤ items.length := by
  cases v <;> simp [holds, natural]

theorem holds_uniqueItems (b : Bool) : holds "uniqueItems" (.bool b) v = true ↔
    (b = true → (itemsOf v).Pairwise fun w x => w.same x = false) := by
  cases v <;> cases b <;> simp [holds, itemsOf]

theorem holds_required (names : List String) :
    holds "required" (.array (names.map .string)) v = true ↔
      ∀ members, v = .object members → ∀ k ∈ names, k ∈ Members.keys members := by
  cases v with
  | object members => simp [holds, same, Members.keys, Eq.comm (b := Prod.fst _)]
  | _ => simp [holds]

/-- Where a schema stands decides about the order of its keywords and nothing else. -/
theorem accepts_toJson_items (s : Schema) :
    accepts (s.toJson .items) v = accepts s.document v := by
  obtain ⟨dialect, description, kind, minLength, minItems, uniqueItems, items, properties,
    required⟩ := s
  simp only [Schema.document, Schema.toJson, accepts, acceptsAll_append]
  congr 1
  exact Bool.and_comm _ _

theorem acceptsAll_items (items : Option Schema) :
    acceptsAll (Schema.itemsToJson items) v = true ↔
      ∀ i, items = some i → ∀ w ∈ itemsOf v, accepts i.document w = true := by
  cases items with
  | none => simp [Schema.itemsToJson, acceptsAll]
  | some i => simp [Schema.itemsToJson, acceptsAll, accepts_toJson_items]

theorem acceptsAll_properties (properties : Option (List (String × Schema))) :
    acceptsAll (Schema.propertiesToJson properties) v = true ↔
      ∀ ps, properties = some ps → ∀ p ∈ ps, ∀ m ∈ membersOf v, m.1 = p.1 →
        accepts p.2.document m.2 = true := by
  cases properties with
  | none => simp [Schema.propertiesToJson, acceptsAll]
  | some ps =>
    simp only [Schema.propertiesToJson, acceptsAll, String.reduceEq, if_false, if_true,
      Bool.and_true, acceptsProperties, Schema.membersToJson_eq_map, acceptsMembers_iff,
      List.forall_mem_map, Option.some.injEq, forall_eq']

/-- A schema in its JSON form accepts exactly what it admits. -/
theorem accepts_document {s : Schema} : accepts s.document v = true ↔ Admits s v := by
  obtain ⟨dialect, description, kind, minLength, minItems, uniqueItems, items, properties,
    required⟩ := s
  have hdialect := acceptsAll_optional (v := v) (by decide) (by decide) holds_dialect dialect
  have hdescription :=
    acceptsAll_optional (v := v) (by decide) (by decide) holds_description description
  have hkind := acceptsAll_optional (v := v) (by decide) (by decide) holds_type kind
  have hlength := acceptsAll_optional (v := v) (by decide) (by decide) holds_minLength minLength
  have hcount := acceptsAll_optional (v := v) (by decide) (by decide) holds_minItems minItems
  have hunique := acceptsAll_optional (v := v) (by decide) (by decide) holds_uniqueItems uniqueItems
  have hrequired := acceptsAll_optional (v := v) (by decide) (by decide) holds_required required
  have hitems := acceptsAll_items (v := v) items
  have hproperties := acceptsAll_properties (v := v) properties
  simp only [Schema.document, Schema.toJson, accepts, acceptsAll_append, Bool.and_eq_true,
    hdialect, hdescription, hkind, hlength, hcount, hunique, hrequired, hitems, hproperties,
    implies_true, true_and]
  constructor
  · rintro ⟨⟨⟨⟨⟨hk, hl⟩, hc⟩, hu⟩, hi⟩, hp, hr⟩
    exact ⟨hk, hl, hc, fun h => hu _ h rfl, hi, hp, hr⟩
  · intro h
    refine ⟨⟨⟨⟨⟨h.kind, h.minLength⟩, h.minItems⟩, ?_⟩, h.items⟩, h.properties, h.required⟩
    rintro _ hb rfl
    exact h.uniqueItems hb

variable {properties : List (String × Schema)} {required : List String}

theorem admits_ofMembers_iff : Admits (Schema.ofMembers properties required) v ↔
    (∀ p ∈ properties, ∀ m ∈ membersOf v, m.1 = p.1 → accepts p.2.document m.2 = true) ∧
      ∀ members, v = .object members → ∀ k ∈ required, k ∈ Members.keys members := by
  constructor
  · intro h
    exact ⟨h.properties _ rfl, h.required _ rfl⟩
  · intro h
    constructor
    case properties => rintro _ ⟨rfl⟩; exact h.1
    case required => rintro _ ⟨rfl⟩; exact h.2
    all_goals simp [Schema.ofMembers]

theorem admits_ofObject_iff : Admits (Schema.ofObject properties required) v ↔
    typeName v = "object" ∧ Admits (Schema.ofMembers properties required) v := by
  rw [admits_ofMembers_iff]
  constructor
  · intro h
    exact ⟨(h.kind .object rfl).symm, h.properties _ rfl, h.required _ rfl⟩
  · intro h
    constructor
    case kind => rintro _ ⟨rfl⟩; exact h.1.symm
    case properties => rintro _ ⟨rfl⟩; exact h.2.1
    case required => rintro _ ⟨rfl⟩; exact h.2.2
    all_goals simp [Schema.ofObject, Schema.ofMembers]

theorem admits_array_iff {uniqueItems : Option Bool} {minItems : Option UInt32} {items : Schema} :
    Admits { kind := some .array, uniqueItems, minItems, items := some items } v ↔
      ∃ values, v = .array values ∧ (∀ n, minItems = some n → n.toNat ≤ values.length) ∧
        (uniqueItems = some true → values.Pairwise fun w x => w.same x = false) ∧
        ∀ w ∈ values, Admits items w := by
  constructor
  · intro h
    have hv := h.kind .array rfl
    cases v with
    | array values =>
      exact ⟨values, rfl, fun n hn => h.minItems n hn values rfl, h.uniqueItems,
        fun w hw => accepts_document.mp (h.items items rfl w hw)⟩
    | _ => simp [typeName, Kind.name] at hv
  · rintro ⟨values, rfl, hm, hu, hi⟩
    constructor
    case kind => rintro _ ⟨rfl⟩; rfl
    case minItems => rintro n hn _ ⟨rfl⟩; exact hm n hn
    case uniqueItems => exact hu
    case items => rintro _ ⟨rfl⟩ w hw; exact accepts_document.mpr (hi w hw)
    all_goals simp

theorem admits_asDocument_iff {s : Schema} : Admits s.asDocument v ↔ Admits s v :=
  ⟨fun h => ⟨h.1, h.2, h.3, h.4, h.5, h.6, h.7⟩, fun h => ⟨h.1, h.2, h.3, h.4, h.5, h.6, h.7⟩⟩

end Draft04

end SchemaByExample
