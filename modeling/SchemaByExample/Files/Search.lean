import SchemaByExample.Files.Disk
import SchemaByExample.Files.Pattern

/-! The paths that a pattern matches, in order. A pattern is cut at its slashes; names that
it spells out are looked up, and directories are listed only where it does not. -/
namespace SchemaByExample.Files

/-- Whether a path only names the directory that relative paths begin at. -/
def isHere (path : String) : Bool := !isAbsolute path && (names path).all (· = ".")

def join (dir name : String) : String :=
  if isHere dir then name
  else if dir.toList.getLast? = some '/' then dir ++ name
  else dir ++ "/" ++ name

/-- The path of a directory with one of the names `.` and `..` behind it. -/
def joinSpecial (dir name : String) : String :=
  if dir.toList.getLast? = some '/' then dir ++ name else dir ++ "/" ++ name

/-- A pattern for each name of a path, and whether the paths have to be directories. -/
structure Search where
  parts : List (List Token)
  onlyDirectories : Bool

namespace Search

def lastName (path : String) : List Char := (path.toList.reverse.takeWhile (· ≠ '/')).reverse

def isRecursive (part : List Token) : Bool := part.contains .directories

/-- A path that the whole pattern matches. -/
def found (disk : Disk) (s : Search) (path : String) : List String :=
  if s.onlyDirectories && !disk.isDirectory path then [] else [path]

mutual

/-- The matches below a directory, for the parts of the pattern that are left. -/
def inside (disk : Disk) (s : Search) : (fuel : Nat) → List (List Token) → String → List String
  | 0, _, _ => []
  | _, [], _ => []
  | fuel + 1, part :: rest, dir =>
    let goOn (path : String) : List String :=
      match rest with
      | [] => found disk s path
      | _ => inside disk s fuel rest path
    let isDir := disk.isDirectory dir
    match spelled? part with
    | some name =>
      let name := String.ofList name
      let special := name = "." ∨ name = ".."
      let path := join dir name
      if (special ∧ isDir) ∨ (¬special ∧ disk.isThere path) then goOn path else []
    | none =>
      if isDir then
        let specials :=
          if part.head? = some (.char '.') then
            (["..", "."].filter fun n => fits part n.toList).flatMap
              fun n => goOn (joinSpecial dir n)
          else []
        let listed := disk.list dir
        specials ++ listed.flatMap fun name => visit disk s fuel (part :: rest) (join dir name)
      else []

/-- The matches at a listed path and below it. A part for any number of directories matches
a directory, and stays in force below it. -/
def visit (disk : Disk) (s : Search) : (fuel : Nat) → List (List Token) → String → List String
  | 0, _, _ => []
  | _, [], _ => []
  | fuel + 1, part :: rest, path =>
    if isRecursive part then
      let isDir := disk.isDirectory path
      let below := if isDir then inside disk s fuel (part :: rest) path else []
      match rest.dropWhile isRecursive with
      | [] => if isDir then path :: below else []
      | rest => named disk s fuel rest path ++ below
    else named disk s fuel (part :: rest) path

/-- The matches at a path whose last name has to fit, and below it. -/
def named (disk : Disk) (s : Search) : (fuel : Nat) → List (List Token) → String → List String
  | 0, _, _ => []
  | _, [], _ => []
  | fuel + 1, part :: rest, path =>
    if fits part (lastName path) then
      match rest with
      | [] => found disk s path
      | _ => inside disk s fuel rest path
    else []

end

/-- A bound for the steps of a search: each step goes on in the pattern or down a level. -/
def fuel (disk : Disk) (parts : Nat) : Nat :=
  3 * (parts + 1) * ((disk.entries.map fun x => x.1.length).foldl max 0 + 2)

end Search

/-- The paths that a pattern matches. The whole pattern has to be well formed, and so has
each part between its slashes. -/
def search (disk : Disk) (pattern : String) : Except PatternError (List String) := do
  let _ ← parsePattern pattern.toList
  let absolute := isAbsolute pattern
  let rest := if absolute then pattern.toList.drop 1 else pattern.toList
  let pieces := Text.split '/' rest
  let pieces := if pieces.getLast? = some [] then pieces.dropLast else pieces
  let parts ← pieces.mapM parsePattern
  let s : Search := ⟨parts, pattern.toList.getLast? == some '/'⟩
  return Search.inside disk s (Search.fuel disk parts.length) parts (if absolute then "/" else ".")

/-- A directory that a search comes upon and cannot list. -/
structure Unlisted where
  path : String
  error : OsError
  deriving DecidableEq, Repr

def Unlisted.message (e : Unlisted) : String :=
  "attempting to read `" ++ e.path ++ "` resulted in an error: " ++ e.error.message

/-- What a pattern leads to: paths, and among them the directories that cannot be listed. -/
abbrev Matches := Except PatternError (List (Except Unlisted String))

/-- Each directory of a disk can be listed. -/
def glob (disk : Disk) (pattern : String) : Matches := (search disk pattern).map (·.map .ok)

end SchemaByExample.Files
