import SchemaByExample.Command.Echo
import SchemaByExample.Command.Help
import SchemaByExample.Command.Load
import SchemaByExample.Infer

/-! A run of the command line on a disk. -/
namespace SchemaByExample.Command

open Files

/-- What a run leaves behind, apart from the disk. -/
structure Outcome where
  status : Nat
  stdout : String := ""
  stderr : String := ""
  deriving DecidableEq

inductive RunError where
  | load (e : LoadError)
  | create (path : String) (e : OsError)
  | write (path : String) (e : OsError)

def RunError.message : RunError → String
  | .load e => "failed to load input documents: " ++ e.message
  | .create path e => "failed to create " ++ path ++ ": " ++ e.message
  | .write path e => "failed to write " ++ path ++ ": " ++ e.message

def failed (e : RunError) : Outcome := ⟨1, "", "error: " ++ e.message ++ "\n"⟩

def answer (p : Product) (v : Json) : Json :=
  match p with
  | .schema => Schema.inferJson v
  | .shape => (Shape.ofDocument v).toJson

/-- A single answer stands by itself, any other number of them in an array. -/
def collapse : List Json → Json
  | [v] => v
  | vs => .array vs

/-- The text that answers a request for the loaded documents. -/
def outputText (r : Request) (documents : List Json) : String :=
  let output := collapse (documents.map (answer r.product))
  if r.compact then output.compact else output.pretty

/-- Writes an output file, and makes the directories it is in. -/
def writeOut (disk : Disk) (path text : String) : Outcome × Disk :=
  let made : Except (RunError × Disk) Disk :=
    match parent? path with
    | none => .ok disk
    | some p =>
      match makeDirectories (p.length + 1) p disk with
      | .ok d => .ok d
      | .error (e, d) => .error (.create p e, d)
  match made with
  | .error (e, d) => (failed e, d)
  | .ok d =>
    match d.write path (Utf8.ofString text) with
    | .ok d => (⟨0, "", ""⟩, d)
    | .error e => (failed (.write path e), d)

def runRequest (engine : Filter.Engine) (disk : Disk) (stdin : Bytes) (r : Request) :
    Outcome × Disk :=
  if r.noOp then (⟨0, "", r.echo⟩, disk)
  else match load engine disk stdin r.input with
    | .error e => (failed (.load e), disk)
    | .ok documents =>
      let text := outputText r documents
      match r.out with
      | none => (⟨0, text ++ "\n", ""⟩, disk)
      | some path => writeOut disk path text

/-- A run with the given arguments. A command line that is wrong ends with status 2; the text in
which the program then says what is wrong with it is left out, and `stderr` is empty. -/
def runWith (engine : Filter.Engine) (disk : Disk) (stdin : Bytes) (arguments : List String) :
    Outcome × Disk :=
  match parse arguments with
  | .request r => runRequest engine disk stdin r
  | .help topic => (⟨0, topic.text, ""⟩, disk)
  | .wrong => (⟨2, "", ""⟩, disk)

/-- A run in which the library's own language runs the filters. -/
def run : Disk → Bytes → List String → Outcome × Disk := runWith Filter.language

end SchemaByExample.Command
