import SchemaByExample.Filter.Eval
import SchemaByExample.Json.Message

/-! Running a filter on a document. -/
namespace SchemaByExample.Filter

/-- Why a filter has no outputs; the text of the filter stands by the errors in it. -/
inductive Error where
  | notCut (source : String) (errors : List Token.Error)
  | notRead (source : String) (errors : List Grammar.Error)
  | modules (source : String) (paths : List String)
  | undefined (source : String) (names : List Undefined)
  | fault (f : Fault)
  | notJson (e : ReadError)

namespace Error

def listed (items : List String) : String := "([" ++ String.intercalate ", " items ++ "])"

def message : Error → String
  | .notCut source errors =>
    "parse error: Lex" ++ listed (errors.map Token.Error.shown) ++ " in `" ++ source ++ "`\n"
  | .notRead source errors =>
    "parse error: Parse" ++ listed (errors.map Grammar.Error.shown) ++ " in `" ++ source ++ "`\n"
  | .modules source paths =>
    let refused (p : String) := "(" ++ Quoted.text p ++ ", \"module loading not supported\")"
    "parse error: Io" ++ listed (paths.map refused) ++ " in `" ++ source ++ "`\n"
  | .undefined source names =>
    String.join (names.map fun n => "undefined " ++ n.shown ++ " in `" ++ source ++ "`\n")
  | .fault f => f.shown
  | .notJson e => "filter produced non-JSON output: " ++ e.reason

end Error

def Term.ofText (source : String) : Except Error Term := do
  let tokens ← (Token.ofText source).mapError (.notCut source)
  let (modules, t) ←
    (Grammar.run (Grammar.whole (8 * source.length + 16)) tokens).mapError (.notRead source)
  if !modules.isEmpty then throw (.modules source modules)
  match t.undefined Scope.base with
  | [] => return t
  | names => throw (.undefined source names)

/-- The documents of a number of outputs, up to the first that is none. -/
def documents (outs : Outputs Value) : Except Error (List Json) :=
  (outs.fold (fun acc x => do
    let v ← x.mapError .fault
    let document ← (Json.ofText v.text).mapError .notJson
    return document :: acc) []).map List.reverse

/-- What runs filters: the outputs of a filter for a document, or the error that keeps it from
being run. An engine only computes. A filter that ends the program, or asks for anything but its
document, is not one for an engine. -/
abbrev Engine := String → Json → Except Error (Outputs Value)

/-- The engine of this library. -/
def language : Engine := fun source v => do return (← Term.ofText source).outputs (.ofJson v)

/-- The outputs of a filter for a document, as documents. -/
def runWith (engine : Engine) (source : String) (v : Json) : Except Error (List Json) := do
  documents (← engine source v)

def run : String → Json → Except Error (List Json) := runWith language

end SchemaByExample.Filter
