import SchemaByExample.Command.Run

/-! The program: it looks at the places that a command line names, runs on what it found
there, and writes what the run has changed. -/
namespace SchemaByExample.Program

open Files Command

def pathOf (location : Location) : String := "/" ++ String.intercalate "/" location

/-- What is at a place; of a file, the content is read only on demand. -/
def entryAt (content : Bool) (location : Location) : IO (Option Entry) := do
  let path := (← IO.currentDir) / pathOf location
  if ← path.isDir then return some .directory
  else if ← path.pathExists then
    if content then return some (.file (← IO.FS.readBinFile path).toList)
    else return some (.file [])
  else return none

def record (content : Bool) (disk : Disk) (location : Location) : IO Disk := do
  match ← entryAt content location with
  | some e => return disk.put location e
  | none => return disk

/-- Records the places that names lead through, and the one that they lead to. -/
def recordNames (content : Bool) : Disk → Location → List String → IO (Disk × Location)
  | disk, here, [] => return (disk, here)
  | disk, here, name :: rest => do
    let there :=
      if name = "." then here else if name = ".." then here.dropLast else here ++ [name]
    recordNames content (← record (content && rest.isEmpty) disk there) there rest

def recordPath (content : Bool) (disk : Disk) (path : String) : IO Disk := do
  let start := if isAbsolute path then [] else disk.home
  return (← recordNames content disk start (names path)).1

/-- Records what is below a directory, some levels deep. -/
def recordBelow : Nat → Disk → Location → IO Disk
  | 0, disk, _ => return disk
  | depth + 1, disk, here => do
    let path := (← IO.currentDir) / pathOf here
    if !(← path.isDir) then return disk
    let mut disk := disk
    for entry in ← path.readDir do
      let there := here ++ [entry.fileName]
      disk ← recordBelow depth (← record false disk there) there
    return disk

/-- The deepest place that a path can name. -/
def maxLevels : Nat := 2048

/-- Records the places that a pattern can match. -/
def recordPattern (disk : Disk) (pattern : String) : IO Disk := do
  let parts := names pattern
  let spelled := parts.takeWhile fun p => !isPattern p
  let levels := if parts.contains "**" then maxLevels else parts.length - spelled.length
  let start := if isAbsolute pattern then [] else disk.home
  let (disk, here) ← recordNames false disk start spelled
  recordBelow levels disk here

/-- The disk as far as a request can see it, and the standard input if it asks for that. -/
def look (disk : Disk) (r : Request) : IO (Disk × Bytes) := do
  let mut disk := disk
  if let some out := r.out then disk ← recordPath false disk out
  for input in r.input.inputs do
    if input ≠ "-" && isPattern input then disk ← recordPattern disk input
  let sources := (resolve (glob disk) r.input.inputs).toOption.getD []
  for source in sources do
    if let .path p := source then disk ← recordPath true disk p
  let stdin ←
    if sources.contains .stdin then (·.toList) <$> (← IO.getStdin).readBinToEnd else pure []
  return (disk, stdin)

def store (before after : Disk) : IO Unit := do
  for (location, entry) in after.entries do
    if before.lookup location ≠ some entry then
      match entry with
      | .directory => IO.FS.createDirAll (pathOf location)
      | .file content => IO.FS.writeBinFile (pathOf location) ⟨content.toArray⟩

def run (arguments : List String) : IO UInt32 := do
  let here := (← IO.currentDir).toString
  let home : Location := (names here).filter (· ≠ ".")
  let (empty, _) ← recordNames false ⟨[], home⟩ [] home
  let (before, stdin) ← match parse arguments with
    | .request r => if r.noOp then pure (empty, []) else look empty r
    | _ => pure (empty, [])
  let (outcome, after) := Command.run before stdin arguments
  store before after
  IO.print outcome.stdout
  IO.eprint outcome.stderr
  return outcome.status.toUInt32

end SchemaByExample.Program

def main (arguments : List String) : IO UInt32 := SchemaByExample.Program.run arguments
