import SchemaByExample.Json.Basic
import SchemaByExample.Shape.NumericText

/-! The kinds of values. -/
namespace SchemaByExample

inductive Kind where
  | object | array | string | number | boolean
  deriving DecidableEq, Repr

namespace Kind

def all : List Kind := [.object, .array, .string, .number, .boolean]

def name : Kind → String
  | .object => "object"
  | .array => "array"
  | .string => "string"
  | .number => "number"
  | .boolean => "boolean"

def ofName? (name : String) : Option Kind := all.find? (·.name == name)

theorem ofName?_name (k : Kind) : ofName? k.name = some k := by
  cases k <;> decide

end Kind

/-- The kind of a value. Null has none, and a text that is numeric is a number. -/
def Json.kind? : Json → Option Kind
  | .null => none
  | .bool _ => some .boolean
  | .number _ => some .number
  | .string s => some (if NumericText.isNumeric s then .number else .string)
  | .array _ => some .array
  | .object _ => some .object

end SchemaByExample
