import SchemaByExample.Json.Basic

/-! Structured data of programs, and its JSON form. -/
namespace SchemaByExample

open Number

/-- A value of a program: scalars, sequences, records, maps with keys of any type, and
variants, which are named alternatives with or without contents. -/
inductive Data where
  | unit
  | some (inner : Data)
  | newtype (inner : Data)
  | bool (b : Bool)
  | integer (n : Int)
  | single (x : Extended Format.single)
  | double (x : Extended Format.double)
  | text (s : String)
  | bytes (bs : List UInt8)
  | sequence (items : List Data)
  | record (fields : List (String × Data))
  | map (entries : List (Data × Data))
  | variant (name : String)
  | variantOf (name : String) (inner : Data)
  | variantSequence (name : String) (items : List Data)
  | variantRecord (name : String) (fields : List (String × Data))

inductive DataError where
  | numberOutOfRange
  | keyNotFinite
  | keyNotString
  deriving DecidableEq, Repr

namespace DataError

def message : DataError → String
  | .numberOutOfRange => "number out of range"
  | .keyNotFinite => "float key must be finite (got NaN or +/-inf)"
  | .keyNotString => "key must be a string"

end DataError

namespace Data

/-- Every single value is a double. -/
def widen : Extended Format.single → Extended Format.double
  | .nan => .nan
  | .infinite s => .infinite s
  | .finite x => .ofRatio _ x.negative x.units (twoTo Format.single.lowest)

/-- Null stands for values that are not finite. -/
def ofFloat : Extended Format.double → Json
  | .finite x => .number (.double x)
  | _ => .null

def floatKey {F : Format} : Extended F → Except DataError String
  | .finite x => .ok x.text
  | _ => .error .keyNotFinite

/-- The member name that a map's key stands for. -/
def key : Data → Except DataError String
  | .newtype inner => key inner
  | .bool b => .ok (if b then "true" else "false")
  | .integer n => .ok (toString n)
  | .single x => floatKey x
  | .double x => floatKey x
  | .text s => .ok s
  | .variant name => .ok name
  | _ => .error .keyNotString

mutual

/-- The JSON form, or the first part in writing order that has none. -/
def toJson : Data → Except DataError Json
  | .unit => .ok .null
  | .some inner => toJson inner
  | .newtype inner => toJson inner
  | .bool b => .ok (.bool b)
  | .integer n =>
    match Word.ofInt? n with
    | .some w => .ok (.number (.word w))
    | .none => .error .numberOutOfRange
  | .single x => .ok (ofFloat (widen x))
  | .double x => .ok (ofFloat x)
  | .text s => .ok (.string s)
  | .bytes bs => .ok (.array (bs.map fun b => .natural b.toUInt32))
  | .sequence items => do return .array (← itemsToJson items)
  | .record fields => do return .object (Members.ofPairs (← fieldsToJson fields))
  | .map entries => do return .object (Members.ofPairs (← entriesToJson entries))
  | .variant name => .ok (.string name)
  | .variantOf name inner => do return .object [(name, ← toJson inner)]
  | .variantSequence name items => do return .object [(name, .array (← itemsToJson items))]
  | .variantRecord name fields => do
    return .object [(name, .object (Members.ofPairs (← fieldsToJson fields)))]

def itemsToJson : List Data → Except DataError (List Json)
  | [] => .ok []
  | d :: rest => do
    let v ← toJson d
    return v :: (← itemsToJson rest)

def fieldsToJson : List (String × Data) → Except DataError (List (String × Json))
  | [] => .ok []
  | (k, d) :: rest => do
    let v ← toJson d
    return (k, v) :: (← fieldsToJson rest)

def entriesToJson : List (Data × Data) → Except DataError (List (String × Json))
  | [] => .ok []
  | (k, d) :: rest => do
    let k ← key k
    let v ← toJson d
    return (k, v) :: (← entriesToJson rest)

end

mutual

/-- A JSON value as data of a program. Its objects are maps. -/
def ofJson : Json → Data
  | .null => .unit
  | .bool b => .bool b
  | .number (.word n) => .integer n.value
  | .number (.double x) => .double (.finite x)
  | .string s => .text s
  | .array items => .sequence (ofItems items)
  | .object members => .map (ofMembers members)

def ofItems : List Json → List Data
  | [] => []
  | v :: rest => ofJson v :: ofItems rest

def ofMembers : List (String × Json) → List (Data × Data)
  | [] => []
  | (k, v) :: rest => (.text k, ofJson v) :: ofMembers rest

end

end Data

end SchemaByExample
