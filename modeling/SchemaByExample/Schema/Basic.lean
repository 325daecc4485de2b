import SchemaByExample.Shape.Basic

/-! Schema documents and their JSON form. -/
namespace SchemaByExample

/-- A schema: the members that are set. -/
structure Schema where
  dialect : Option String := none
  description : Option String := none
  kind : Option Kind := none
  minLength : Option UInt32 := none
  minItems : Option UInt32 := none
  uniqueItems : Option Bool := none
  items : Option Schema := none
  properties : Option (List (String × Schema)) := none
  required : Option (List String) := none

namespace Schema

def draft04 : String := "http://json-schema.org/draft-04/schema#"

/-- The members of an object, of any type; the items of an array are described by one. -/
def ofMembers (properties : Members Schema) (required : List String) : Schema :=
  { properties := some properties, required := some required }

def ofObject (properties : Members Schema) (required : List String) : Schema :=
  { ofMembers properties required with kind := some .object }

def asDocument (s : Schema) : Schema :=
  { s with dialect := some draft04, description := some "" }

inductive Position where
  | member | items
  deriving DecidableEq

open Shape (optional)

mutual

/-- The members that are set, in a fixed order. In the schema of an array's items the
required names come before the properties, everywhere else behind them. -/
def toJson (position : Position) : Schema → Json
  | ⟨dialect, description, kind, minLength, minItems, uniqueItems, items, properties, required⟩ =>
    let required := optional "required" (fun names => .array (names.map .string)) required
    let properties := propertiesToJson properties
    .object (
      optional "$schema" .string dialect ++ optional "description" .string description ++
      optional "type" (fun k : Kind => .string k.name) kind ++
      optional "minLength" .natural minLength ++ optional "minItems" .natural minItems ++
      optional "uniqueItems" .bool uniqueItems ++ itemsToJson items ++
      match position with
      | .member => properties ++ required
      | .items => required ++ properties)

def itemsToJson : Option Schema → List (String × Json)
  | none => []
  | some s => [("items", toJson .items s)]

def propertiesToJson : Option (List (String × Schema)) → List (String × Json)
  | none => []
  | some ps => [("properties", .object (membersToJson ps))]

def membersToJson : List (String × Schema) → List (String × Json)
  | [] => []
  | (k, s) :: rest => (k, toJson .member s) :: membersToJson rest

end

mutual

/-- Whether two schemas set the same members to the same values, the properties in any
order. -/
def agrees : Schema → Schema → Bool
  | ⟨dialect, description, kind, minLength, minItems, uniqueItems, items, properties, required⟩,
      t =>
    dialect == t.dialect && description == t.description && kind == t.kind &&
      minLength == t.minLength && minItems == t.minItems && uniqueItems == t.uniqueItems &&
      itemsAgree items t.items && propertiesAgree properties t.properties &&
      required == t.required

def itemsAgree : Option Schema → Option Schema → Bool
  | none, none => true
  | some s, some t => agrees s t
  | _, _ => false

def propertiesAgree : Option (List (String × Schema)) → Option (List (String × Schema)) → Bool
  | none, none => true
  | some ps, some qs => ps.length == qs.length && allAgree ps qs
  | _, _ => false

def allAgree : List (String × Schema) → List (String × Schema) → Bool
  | [], _ => true
  | (k, s) :: rest, qs =>
    (match Members.find? k qs with
      | some t => agrees s t
      | none => false) && allAgree rest qs

end

def document (s : Schema) : Json := s.toJson .member

end Schema

end SchemaByExample
