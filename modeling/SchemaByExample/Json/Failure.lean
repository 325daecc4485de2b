import SchemaByExample.Json.Printer

/-! Why a text is not read, and where: the cause, the path to the value that was being
read, and the place in the text. -/
namespace SchemaByExample

open Number

/-- A value that stands where another kind of value is expected. -/
inductive Found where
  | null
  | bool (b : Bool)
  | integer (n : Int)
  | float (x : Double)
  | string (s : String)
  | sequence
  | map

inductive Cause where
  | eofInValue
  | eofInObject
  | eofInList
  | eofInString
  | expectedColon
  | expectedListEnd
  | expectedObjectEnd
  | expectedIdent
  | expectedValue
  | invalidNumber
  | numberOutOfRange
  | invalidEscape
  | invalidCodePoint
  | controlCharacter
  | keyNotString
  | loneSurrogate
  | unexpectedHexEnd
  | trailingComma
  | trailingCharacters
  | recursionLimit
  | invalidType (found : Found) (expected : String)
  | invalidValue (n : Int) (expected : String)
  | unknownName (sort name : String) (known : List String)
  | duplicateField (name : String)

/-- A step from a value to a part of it; `unknown` is a member whose name was not read. -/
inductive Segment where
  | key (name : String)
  | index (i : Nat)
  | unknown
  deriving DecidableEq

/-- A failure while reading, with the number of bytes that lie behind its place. -/
structure Failure where
  cause : Cause
  path : List Segment
  left : Nat

abbrev Bytes := List UInt8

namespace Read

variable {α : Type}

/-- Fails at the first byte of `rest`, as not read. -/
def fail (cause : Cause) (rest : Bytes) : Except Failure α := .error ⟨cause, [], rest.length⟩

/-- Fails behind the first byte of `rest`, at the end of the text if there is none. -/
def failPast (cause : Cause) (rest : Bytes) : Except Failure α :=
  .error ⟨cause, [], rest.length - 1⟩

/-- A failure inside a part is a failure at that part's path. -/
def inside (segment : Segment) (step : Except Failure α) : Except Failure α :=
  step.mapError fun f => { f with path := segment :: f.path }

end Read

namespace Path

def step : Segment → List Char
  | .key name => name.toList
  | .index i => '[' :: Nat.toDigits 10 i ++ [']']
  | .unknown => ['?']

/-- The steps of a path after its first, names behind a dot. -/
def rest : List Segment → List Char
  | [] => []
  | .index i :: more => step (.index i) ++ rest more
  | s :: more => '.' :: step s ++ rest more

/-- Names are written raw and joined by dots, indices stand in brackets, and the path of
the whole document is a dot. -/
def text : List Segment → String
  | [] => "."
  | s :: more => String.ofList (step s ++ rest more)

end Path

/-- A line and a column of a text. Lines count from one; the column is the number of bytes
of the line up to the place. -/
structure Place where
  line : Nat
  column : Nat
  deriving DecidableEq

namespace Place

def ofPrefix (bytes : Bytes) : Place :=
  ⟨bytes.count 10 + 1, (bytes.reverse.takeWhile (· != 10)).length⟩

end Place

/-- The error of a text: the path is missing for text behind a whole document. -/
structure ReadError where
  cause : Cause
  path : Option (List Segment)
  place : Place

end SchemaByExample
