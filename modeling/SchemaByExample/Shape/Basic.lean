import SchemaByExample.Shape.Kind

/-! Shape trees: what is kept of a document to describe documents like it. -/
namespace SchemaByExample

/-- A node of a shape tree. The children of an object stand under its members' names, those
of an array under the decimal places of its items, or under the members' names of the item
that stands for all. -/
structure Shape where
  kind : Option Kind := none
  children : List (String × Shape) := []
  required : Bool := false
  minLength : Option UInt32 := none
  uniqueItems : Option Bool := none
  minItems : Option UInt32 := none

namespace Shape

def ofKind (kind : Kind) : Shape := { kind := some kind }

/-- A member that stands in a written node only if it is set. -/
def optional {α : Type} (name : String) (toJson : α → Json) : Option α → List (String × Json)
  | some v => [(name, toJson v)]
  | none => []

mutual

def toJson : Shape → Json
  | ⟨kind, children, required, minLength, uniqueItems, minItems⟩ =>
    .object (
      [("kind", match kind with | some k => .string k.name | none => .null)] ++
      (match children with
        | [] => []
        | (k, c) :: rest => [("children", .object ((k, toJson c) :: childrenToJson rest))]) ++
      [("required", .bool required)] ++
      optional "min_length" .natural minLength ++
      optional "unique_items" .bool uniqueItems ++
      optional "min_items" .natural minItems)

def childrenToJson : List (String × Shape) → List (String × Json)
  | [] => []
  | (k, c) :: rest => (k, toJson c) :: childrenToJson rest

end

end Shape

end SchemaByExample
