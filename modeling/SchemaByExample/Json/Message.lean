import SchemaByExample.Json.Reader
import SchemaByExample.Text.Quoted

/-! The wording of reading errors. -/
namespace SchemaByExample

def Found.text : Found → String
  | .null => "null"
  | .bool b => "boolean `" ++ (if b then "true" else "false") ++ "`"
  | .integer n => "integer `" ++ String.ofList (Json.intChars n) ++ "`"
  | .float x => "floating point `" ++ x.text ++ "`"
  | .string s => "string " ++ Quoted.text s
  | .sequence => "sequence"
  | .map => "map"

/-- A choice of three names or more. -/
def oneOf (names : List String) : String :=
  "one of " ++ String.intercalate ", " (names.map fun n => "`" ++ n ++ "`")

def Cause.text : Cause → String
  | .eofInValue => "EOF while parsing a value"
  | .eofInObject => "EOF while parsing an object"
  | .eofInList => "EOF while parsing a list"
  | .eofInString => "EOF while parsing a string"
  | .expectedColon => "expected `:`"
  | .expectedListEnd => "expected `,` or `]`"
  | .expectedObjectEnd => "expected `,` or `\x7d`"
  | .expectedIdent => "expected ident"
  | .expectedValue => "expected value"
  | .invalidNumber => "invalid number"
  | .numberOutOfRange => "number out of range"
  | .invalidEscape => "invalid escape"
  | .invalidCodePoint => "invalid unicode code point"
  | .controlCharacter => "control character (\\u0000-\\u001F) found while parsing a string"
  | .keyNotString => "key must be a string"
  | .loneSurrogate => "lone leading surrogate in hex escape"
  | .unexpectedHexEnd => "unexpected end of hex escape"
  | .trailingComma => "trailing comma"
  | .trailingCharacters => "trailing characters"
  | .recursionLimit => "recursion limit exceeded"
  | .invalidType found expected => "invalid type: " ++ found.text ++ ", expected " ++ expected
  | .invalidValue n expected =>
    "invalid value: " ++ (Found.integer n).text ++ ", expected " ++ expected
  | .unknownName sort name known =>
    "unknown " ++ sort ++ " `" ++ name ++ "`, expected " ++ oneOf known
  | .duplicateField name => "duplicate field `" ++ name ++ "`"

namespace ReadError

def reason (e : ReadError) : String :=
  e.cause.text ++ " at line " ++ toString e.place.line ++ " column " ++ toString e.place.column

/-- The whole message, with the path where there is one. -/
def message (e : ReadError) : String :=
  match e.path with
  | some path => "at JSON path " ++ Path.text path ++ " → " ++ e.reason
  | none => e.reason

end ReadError

end SchemaByExample
