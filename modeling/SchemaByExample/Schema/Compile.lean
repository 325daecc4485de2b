import SchemaByExample.Schema.Basic

/-! From shape trees to schemas. -/
namespace SchemaByExample.Schema

/-- What the names of required children are collected for: an object lists every container
and the primitives that are required, the items of an array only these primitives. -/
inductive Target where
  | object | items
  deriving DecidableEq, Repr

def isContainerKind : Option Kind → Bool
  | some .object => true
  | some .array => true
  | _ => false

def lists (target : Target) (child : Shape) : Bool :=
  if isContainerKind child.kind then target = .object else child.required

def requiredNames (target : Target) (children : List (String × Shape)) : List String :=
  (children.filter (fun c => lists target c.2)).map (·.1)

mutual

/-- The schema of a child. A least length of zero says nothing and is dropped. -/
def ofShape : Shape → Schema
  | ⟨some .object, children, _, _, _, _⟩ =>
    ofObject (Members.ofPairs (ofShapes children)) (requiredNames .object children)
  | ⟨some .array, children, _, _, uniqueItems, minItems⟩ =>
    { kind := some .array
      uniqueItems := uniqueItems
      minItems := minItems
      items := some
        (ofMembers (Members.ofPairs (ofShapes children)) (requiredNames .items children)) }
  | ⟨kind, _, _, minLength, _, _⟩ => { kind := kind, minLength := minLength.filter (0 < ·) }

def ofShapes : List (String × Shape) → List (String × Schema)
  | [] => []
  | (k, s) :: rest => (k, ofShape s) :: ofShapes rest

end

/-- Properties and required names that a tree's children are added to. -/
structure Emitted where
  properties : Members Schema := []
  required : List String := []

/-- Adds the schemas of a tree's children and the names of those that count as required. -/
def emit (target : Target) (tree : Shape) (into : Emitted) : Emitted where
  properties := Members.insertAll into.properties (ofShapes tree.children)
  required := into.required ++ requiredNames target tree.children

/-- The document of a tree: of an object if the root is one, else of an array whose items
are objects. -/
def compile (tree : Shape) : Schema :=
  let root := emit .object tree {}
  let object := ofObject root.properties root.required
  if tree.kind = some .object then object.asDocument
  else asDocument {
    kind := some .array, minItems := some 1, uniqueItems := some true, items := some object }

end SchemaByExample.Schema
