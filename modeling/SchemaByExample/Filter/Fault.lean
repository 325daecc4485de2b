import SchemaByExample.Filter.Value

/-! What may stand among the outputs of a filter instead of a value. -/
namespace SchemaByExample.Filter

inductive Part where
  | text (s : String)
  | value (v : Value)

namespace Part

def plain : Part → String
  | .text s => s
  | .value v => v.text

def shown : Part → String
  | .text s => "Str(" ++ Quoted.text s ++ ")"
  | .value v => "Val(" ++ v.shown ++ ")"

end Part

/-- An error is a value or a message; a jump leaves the label with its number, and a filter
that takes too many steps is stopped, where the program would go on for ever. -/
inductive Fault where
  | value (v : Value)
  | message (parts : List Part)
  | jump (label : Nat)
  | stopped

namespace Fault

def ofText (s : String) : Fault := .value (.string s)

def notA (kind : String) (v : Value) : Fault :=
  .message [.text "cannot use ", .value v, .text " as ", .text kind]

def notContainer (v : Value) : Fault := notA "iterable (array or object)" v

def notIndexed (v key : Value) : Fault :=
  .message [.text "cannot index ", .value v, .text " with ", .value key]

def notCalculated (l : Value) (op : String) (r : Value) : Fault :=
  .message [.text "cannot calculate ", .value l, .text " ", .text op, .text " ", .value r]

def notPath : Fault := .message [.text "invalid path expression"]

/-- What a handler gets for an error; jumps and stops are not handled. -/
def caught? : Fault → Option Value
  | .value v => some v
  | .message parts => some (.string (String.join (parts.map Part.plain)))
  | .jump _ => none
  | .stopped => none

def shown : Fault → String
  | .value v => "Error(Val(" ++ v.shown ++ "))"
  | .message parts => "Error(Str([" ++ Value.separated (parts.map Part.shown) ++ "]))"
  | .jump _ => "Break"
  | .stopped => "Stopped"

end Fault

end SchemaByExample.Filter
