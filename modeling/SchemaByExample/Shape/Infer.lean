import SchemaByExample.Shape.Basic
import SchemaByExample.Shape.Similarity

/-! The shape of a document. -/
namespace SchemaByExample.Shape

/-- A primitive is required unless it is null, and a text knows whether it is empty. -/
def ofPrimitive (v : Json) : Shape where
  kind := v.kind?
  required := !v.isNull
  minLength := match v.kind?, v with
    | some .string, .string s => some (if s.isEmpty then 0 else 1)
    | _, _ => none

/-- What becomes of primitive items when the items of an array are kept apart. -/
inductive Primitives where
  | keep | skip
  deriving DecidableEq

/-- An item's node among the children of its array: a container is required unless it is
empty, and an array counts as a set. -/
def element? (primitives : Primitives) : Json → Shape → Option Shape
  | .object members, s => some { s with required := !members.isEmpty }
  | .array items, s => some { s with uniqueItems := some true, required := !items.isEmpty }
  | _, s => if primitives = .keep then some s else none

/-- The children of an array whose items are kept apart, from place `i` on. -/
def elements (primitives : Primitives) (i : Nat) : List (Json × Shape) → List (String × Shape)
  | [] => []
  | (v, s) :: rest =>
    match element? primitives v s with
    | some child => (String.ofList (Nat.toDigits 10 i), child) :: elements primitives (i + 1) rest
    | none => elements primitives (i + 1) rest

/-- The shape of an array from its items and their shapes. Objects with one set of names
collapse into the node of one of them. -/
def ofItems (items : List Json) (shapes : List Shape) : Shape :=
  let apart (primitives : Primitives) : Shape :=
    { kind := some .array, children := elements primitives 0 (items.zip shapes) }
  match items with
  | .object _ :: _ =>
    if Similarity.alike items then
      match (Similarity.representative items).bind (shapes[·]?) with
      | some s => { s with kind := some .array, uniqueItems := some true, minItems := some 1 }
      | none => apart .skip
    else apart .skip
  | _ => apart .keep

mutual

def ofValue : Json → Shape
  | .object members => { kind := some .object, children := ofMembers members }
  | .array items => ofItems items (ofEach items)
  | .null => ofPrimitive .null
  | .bool b => ofPrimitive (.bool b)
  | .number n => ofPrimitive (.number n)
  | .string s => ofPrimitive (.string s)

def ofEach : List Json → List Shape
  | [] => []
  | v :: rest => ofValue v :: ofEach rest

def ofMembers : List (String × Json) → List (String × Shape)
  | [] => []
  | (k, v) :: rest => (k, ofValue v) :: ofMembers rest

end

/-- The shape of a whole document; one that is no container counts as an empty object. -/
def ofDocument (v : Json) : Shape := if v.isContainer then ofValue v else ofKind .object

end SchemaByExample.Shape
