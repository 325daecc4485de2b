import SchemaByExample.Command.Arguments
import SchemaByExample.Text.Quoted

/-! A request shown as a tree of named fields, for a look at what was understood. -/
namespace SchemaByExample.Command

/-- A value as it is shown: a text on the line, or a name with fields, items or both in
brackets on lines of their own. -/
inductive Shown where
  | text (s : String)
  | record (name : String) (fields : List (String × Shown))
  | wrapped (name : String) (inner : Shown)
  | list (items : List Shown)

namespace Shown

def indent (d : Nat) : String := String.ofList (List.replicate (4 * d) ' ')

mutual

def render (d : Nat) : Shown → String
  | .text s => s
  | .record name fields => name ++ " \x7b\n" ++ renderFields (d + 1) fields ++ indent d ++ "\x7d"
  | .wrapped name inner =>
    name ++ "(\n" ++ indent (d + 1) ++ render (d + 1) inner ++ ",\n" ++ indent d ++ ")"
  | .list [] => "[]"
  | .list (v :: rest) => "[\n" ++ renderItems (d + 1) (v :: rest) ++ indent d ++ "]"

def renderFields (d : Nat) : List (String × Shown) → String
  | [] => ""
  | (k, v) :: rest => indent d ++ k ++ ": " ++ render d v ++ ",\n" ++ renderFields d rest

def renderItems (d : Nat) : List Shown → String
  | [] => ""
  | v :: rest => indent d ++ render d v ++ ",\n" ++ renderItems d rest

end

def bool (b : Bool) : Shown := .text (if b then "true" else "false")

def option (show_ : String → String) : Option String → Shown
  | none => .text "None"
  | some s => .wrapped "Some" (.text (show_ s))

end Shown

def InputSettings.shown (s : InputSettings) : Shown :=
  .record "InputSettings" [
    ("ndjson", .bool s.ndjson),
    ("json_pointer", .option Quoted.text s.pointer),
    ("jq_expr", .option Quoted.text s.filter),
    ("input", .list (s.inputs.map fun i => .text (Quoted.text i)))]

def Request.shown (r : Request) : Shown :=
  .record "CommandLineInterface" [
    ("cmd", .wrapped (match r.product with | .schema => "Schema" | .shape => "Shape")
      (.record "SchemaOut" [
        ("input_settings", r.input.shown),
        ("out", .option Quoted.path r.out),
        ("compact", .bool r.compact),
        ("no_op", .bool r.noOp)]))]

def Request.echo (r : Request) : String := r.shown.render 0 ++ "\n"

end SchemaByExample.Command
