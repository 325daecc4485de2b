import SchemaByExample.Command.Arguments
import SchemaByExample.Files.Search
import SchemaByExample.Filter.Run
import SchemaByExample.Json.Message
import SchemaByExample.Json.Pointer

/-! Loading the documents of a request. -/
namespace SchemaByExample.Command

open Files

inductive Source where
  | stdin
  | path (p : String)
  deriving DecidableEq

namespace Source

def label : Source → String
  | .stdin => "<stdin>"
  | .path p => p

def file : Source → String
  | .stdin => "-"
  | .path p => p

end Source

inductive ReadFault where
  | system (e : OsError)
  | notText
  deriving DecidableEq

inductive LoadError where
  | badPattern (pattern : String) (e : PatternError)
  | unlisted (e : Unlisted)
  | noMatch (pattern : String)
  | unreadable (file : String) (fault : ReadFault)
  | text (label : String) (line : Option Nat) (e : ReadError)
  | unresolved (pointer origin : String)
  | filter (e : Filter.Error)

namespace ReadFault

def message : ReadFault → String
  | .system e => e.message
  | .notText => "stream did not contain valid UTF-8"

end ReadFault

namespace LoadError

/-- The message; the cause of an unreadable file follows it once more. -/
def message : LoadError → String
  | .badPattern pattern e => "glob: " ++ pattern ++ ": " ++ e.message
  | .unlisted e => "glob: " ++ e.message
  | .noMatch pattern => "glob: pattern matched no files: " ++ pattern
  | .unreadable file fault =>
    "failed to read " ++ file ++ ": " ++ fault.message ++ ": " ++ fault.message
  | .text label line e =>
    let place := match line with
      | some n => "line " ++ toString n ++ ": "
      | none => ""
    "invalid input: " ++ place ++ label ++ ": " ++ e.message
  | .unresolved pointer origin =>
    "JSON pointer " ++ Quoted.text pointer ++ " did not resolve in " ++ origin
  | .filter e => "jq: " ++ e.message

end LoadError

/-- The paths that a pattern leads to, up to the first directory that cannot be listed. -/
def foundPaths : List (Except Unlisted String) → Except LoadError (List String)
  | [] => .ok []
  | .error e :: _ => .error (.unlisted e)
  | .ok path :: rest => do return path :: (← foundPaths rest)

/-- The sources of an input, where `glob` tells what a pattern leads to. -/
def resolveOne (glob : String → Matches) (input : String) : Except LoadError (List Source) :=
  if input = "-" then .ok [.stdin]
  else if isPattern input then
    match glob input with
    | .error e => .error (.badPattern input e)
    | .ok found =>
      match foundPaths found with
      | .error e => .error e
      | .ok [] => .error (.noMatch input)
      | .ok paths => .ok (paths.map .path)
  else .ok [.path input]

def resolve (glob : String → Matches) : List String → Except LoadError (List Source)
  | [] => .ok []
  | input :: rest => do
    let sources ← resolveOne glob input
    return sources ++ (← resolve glob rest)

/-- The text of a source, and what is left of the standard input behind it. -/
def readSource (disk : Disk) (stdin : Bytes) (source : Source) :
    Except LoadError (String × Bytes) := do
  let (content, stdin) ← match source with
    | .stdin => pure (stdin, [])
    | .path p =>
      match disk.read p with
      | .ok content => pure (content, stdin)
      | .error e => throw (.unreadable source.file (.system e))
  match Utf8.decode content with
  | some text => return (text, stdin)
  | none => throw (.unreadable source.file .notText)

def parseLines (label : String) : List (Nat × List Char) → Except LoadError (List Json)
  | [] => .ok []
  | (n, line) :: rest =>
    if line.all Text.isWhiteSpace then parseLines label rest
    else match Json.ofText (String.ofList line) with
      | .error e => .error (.text label (some n) e)
      | .ok v => do return v :: (← parseLines label rest)

/-- The documents of a text: one for each line that is not blank, or one in all. -/
def parseDocuments (ndjson : Bool) (label text : String) : Except LoadError (List Json) :=
  if ndjson then parseLines label (Text.lines text.toList)
  else match Json.ofText text with
    | .ok v => .ok [v]
    | .error e => .error (.text label none e)

section Engine

variable (engine : Filter.Engine)

def select (s : InputSettings) (label : String) (v : Json) : Except LoadError (List Json) := do
  let v ← match s.pointer with
    | none => pure v
    | some p =>
      match Pointer.resolve p v with
      | some w => pure w
      | none => throw (.unresolved p label)
  match s.filter with
  | none => return [v]
  | some f =>
    match Filter.runWith engine f v with
    | .ok vs => return vs
    | .error e => throw (.filter e)

def selectAll (s : InputSettings) (label : String) : List Json → Except LoadError (List Json)
  | [] => .ok []
  | v :: rest => do
    let vs ← select engine s label v
    return vs ++ (← selectAll s label rest)

/-- Each source is read, then all of its documents are parsed, then each is selected from.
The standard input is used up by the first source that reads it. -/
def loadSources (disk : Disk) (s : InputSettings) : Bytes → List Source →
    Except LoadError (List Json)
  | _, [] => .ok []
  | stdin, source :: rest => do
    let (text, stdin) ← readSource disk stdin source
    let documents ← parseDocuments s.ndjson source.label text
    let selected ← selectAll engine s source.label documents
    return selected ++ (← loadSources disk s stdin rest)

/-- The documents of a request. All inputs are resolved before any is read. -/
def loadWith (glob : String → Matches) (disk : Disk) (stdin : Bytes) (s : InputSettings) :
    Except LoadError (List Json) := do
  loadSources engine disk s stdin (← resolve glob s.inputs)

def load (disk : Disk) (stdin : Bytes) (s : InputSettings) : Except LoadError (List Json) :=
  loadWith engine (glob disk) disk stdin s

end Engine

end SchemaByExample.Command
