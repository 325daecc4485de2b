import SchemaByExample.Schema.Basic
import SchemaByExample.Json.Typed

/-! Reading schema documents. A schema is an object of known members, none of them twice,
or an array that lists the members' values in order. -/
namespace SchemaByExample.Schema

open Read Literal

inductive Field where
  | dialect | description | kind | minLength | minItems | uniqueItems | items | properties
  | required
  deriving DecidableEq

namespace Field

def name : Field → String
  | .dialect => "$schema"
  | .description => "description"
  | .kind => "type"
  | .minLength => "minLength"
  | .minItems => "minItems"
  | .uniqueItems => "uniqueItems"
  | .items => "items"
  | .properties => "properties"
  | .required => "required"

/-- The fields in the order of the array form. -/
def all : List Field :=
  [.dialect, .description, .kind, .minLength, .minItems, .uniqueItems, .items, .properties,
    .required]

def ofName? (name : String) : Option Field := all.find? (·.name == name)

theorem ofName?_name (f : Field) : ofName? f.name = some f := by
  cases f <;> decide

end Field

def kindName (bytes : Bytes) : Except Failure (Kind × Bytes) := do
  let (name, rest) ← Typed.string "variant identifier" bytes
  match Kind.ofName? name with
  | some k => .ok (k, rest)
  | none => fail (.unknownName "variant" name (Kind.all.map Kind.name)) rest

/-- A kind is its name, or an object with the name as only member and null as its value. -/
def readKind (budget : Nat) (bytes : Bytes) : Except Failure (Kind × Bytes) :=
  match skipBlanks bytes with
  | [] => fail .eofInValue []
  | b :: rest =>
    if b = byte '"' then kindName (b :: rest)
    else if b = byte '\x7b' then
      match budget with
      | 0 => failPast .recursionLimit (b :: rest)
      | _ + 1 => do
        let (kind, rest) ← kindName rest
        let ((), rest) ← colon rest
        let ((), rest) ← inside (.key kind.name) (Typed.null rest)
        match skipBlanks rest with
        | [] => fail .eofInObject []
        | c :: rest => if c = byte '\x7d' then .ok (kind, rest) else fail .expectedValue (c :: rest)
    else failPast .expectedValue (b :: rest)

def readNames (budget : Nat) (bytes : Bytes) : Except Failure (List String × Bytes) :=
  Typed.enter '[' "a sequence" budget bytes fun _ => Read.array (Typed.string "a string")

/-- Reads the value of a field into a schema. `schema` reads the schema of the items, and
`properties` the schemas of the properties. -/
def readField (budget : Nat) (schema : Bytes → Except Failure (Schema × Bytes))
    (properties : Bytes → Except Failure (Members Schema × Bytes)) (s : Schema) :
    Field → Bytes → Except Failure (Schema × Bytes)
  | .dialect, bytes => do
    let (v, rest) ← Typed.optional (Typed.string "a string") bytes
    .ok ({ s with dialect := v }, rest)
  | .description, bytes => do
    let (v, rest) ← Typed.optional (Typed.string "a string") bytes
    .ok ({ s with description := v }, rest)
  | .kind, bytes => do
    let (v, rest) ← Typed.optional (readKind budget) bytes
    .ok ({ s with kind := v }, rest)
  | .minLength, bytes => do
    let (v, rest) ← Typed.optional Typed.natural bytes
    .ok ({ s with minLength := v }, rest)
  | .minItems, bytes => do
    let (v, rest) ← Typed.optional Typed.natural bytes
    .ok ({ s with minItems := v }, rest)
  | .uniqueItems, bytes => do
    let (v, rest) ← Typed.optional Typed.bool bytes
    .ok ({ s with uniqueItems := v }, rest)
  | .items, bytes => do
    let (v, rest) ← Typed.optional schema bytes
    .ok ({ s with items := v }, rest)
  | .properties, bytes => do
    let (v, rest) ← Typed.optional properties bytes
    .ok ({ s with properties := v }, rest)
  | .required, bytes => do
    let (v, rest) ← Typed.optional (readNames budget) bytes
    .ok ({ s with required := v }, rest)

abbrev FieldReader := Schema → Field → Bytes → Except Failure (Schema × Bytes)

/-- The place of a member that is refused by its name: behind the name, the blanks after it
and a brace that closes the object there. -/
def behindName (bytes : Bytes) : Bytes :=
  match skipBlanks bytes with
  | b :: rest => if b = byte '\x7d' then rest else b :: rest
  | [] => []

/-- The members of the object form, up to the closing brace. -/
def namedFields (field : FieldReader) : Nat → Bool → List Field → Schema → Bytes →
    Except Failure (Schema × Bytes)
  | 0, _, _, s, bytes => .ok (s, bytes)
  | fuel + 1, first, seen, s, bytes => do
    match ← nextKey first bytes with
    | (none, rest) => .ok (s, rest)
    | (some k, rest) =>
      match Field.ofName? k with
      | none =>
        inside (.key k) (fail (.unknownName "field" k (Field.all.map Field.name)) (behindName rest))
      | some f =>
        if f ∈ seen then fail (.duplicateField k) (behindName rest)
        else
          let ((), rest) ← colon rest
          let (s, rest) ← inside (.key k) (field s f rest)
          namedFields field fuel false (f :: seen) s rest

/-- The values of the array form, of which the last may be missing. -/
def listedFields (field : FieldReader) : Nat → List Field → Schema → Bytes →
    Except Failure (Schema × Bytes)
  | _, [], s, bytes => .ok (s, bytes)
  | i, f :: fs, s, bytes => do
    let (more, rest) ← nextItem (i == 0) bytes
    if more then
      let (s, rest) ← inside (.index i) (field s f rest)
      listedFields field (i + 1) fs s rest
    else .ok (s, rest)

def refusal : String := "struct SchemaNode"

/-- Reads a schema by the readers of its fields, for which there are none where no container
may be entered. -/
def readWith (field : Option FieldReader) (bytes : Bytes) : Except Failure (Schema × Bytes) :=
  match skipBlanks bytes with
  | [] => fail .eofInValue []
  | b :: rest =>
    if b = byte '[' ∨ b = byte '\x7b' then
      match field with
      | none => failPast .recursionLimit (b :: rest)
      | some field =>
        if b = byte '[' then do
          let (s, rest) ← listedFields field 0 Field.all {} rest
          let ((), rest) ← endArray rest
          .ok (s, rest)
        else do
          let (s, rest) ← namedFields field (rest.length + 1) true [] {} rest
          .ok (s, rest.drop 1)
    else Typed.refuse refusal (b :: rest)

def readProperties (budget : Nat) (schema : Bytes → Except Failure (Schema × Bytes))
    (bytes : Bytes) : Except Failure (Members Schema × Bytes) :=
  Typed.enter '\x7b' "a map" budget bytes fun _ => Read.object schema

/-- Reads a schema that may nest `budget` containers, itself among them. -/
def read : (budget : Nat) → Bytes → Except Failure (Schema × Bytes)
  | 0 => readWith none
  | 1 => readWith (some (readField 0 (read 0) (readProperties 0 (read 0))))
  | budget + 2 =>
    readWith (some (readField (budget + 1) (read (budget + 1))
      (readProperties (budget + 1) (read budget))))

/-- With one container entered, its properties may nest two less. -/
theorem read_succ (budget : Nat) :
    read (budget + 1) = readWith (some (readField budget (read budget)
      (readProperties budget (read (budget - 1))))) := by
  cases budget <;> rfl

def ofBytes (bytes : Bytes) : Except ReadError Schema := readWhole (read maxDepth) bytes

def ofText (text : String) : Except ReadError Schema := ofBytes (Utf8.ofString text)

end SchemaByExample.Schema
