import SchemaByExample.Data.Basic
import SchemaByExample.Json.Message
import SchemaByExample.Schema.Compile
import SchemaByExample.Schema.Reader
import SchemaByExample.Shape.Infer

/-! Schemas from example documents, however the example is given. -/
namespace SchemaByExample

inductive InputError where
  | text (e : ReadError)
  | data (e : DataError)

namespace InputError

def message : InputError → String
  | .text e => "invalid input: " ++ e.message
  | .data e => "invalid input: " ++ e.message

end InputError

namespace Schema

/-- The schema of documents like the given one. -/
def infer (example_ : Json) : Schema := compile (Shape.ofDocument example_)

def inferJson (example_ : Json) : Json := (infer example_).document

def inferText (text : String) : Except InputError Json :=
  match Json.ofText text with
  | .ok v => .ok (inferJson v)
  | .error e => .error (.text e)

def inferData (data : Data) : Except InputError Json :=
  match data.toJson with
  | .ok v => .ok (inferJson v)
  | .error e => .error (.data e)

/-- A schema is data by way of its JSON form. -/
def toData (s : Schema) : Data := .ofJson s.document

end Schema

/-- Inference as a service. It has no state. -/
structure Generator where

def Generator.generate (_ : Generator) (example_ : Json) : Json := Schema.inferJson example_

end SchemaByExample
