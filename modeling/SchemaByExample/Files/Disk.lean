import SchemaByExample.Json.Failure
import SchemaByExample.Text.Split

/-! Files and directories as a value, and the operations on them that a run needs. A place
is the list of names from the root; paths are relative to a home directory unless they
begin with a slash. -/
namespace SchemaByExample.Files

/-- What the system answers when an operation is not possible. -/
inductive OsError where
  | notFound | denied | exists_ | notDirectory | isDirectory | nameTooLong
  deriving DecidableEq, Repr

namespace OsError

def message : OsError → String
  | .notFound => "No such file or directory (os error 2)"
  | .denied => "Permission denied (os error 13)"
  | .exists_ => "File exists (os error 17)"
  | .notDirectory => "Not a directory (os error 20)"
  | .isDirectory => "Is a directory (os error 21)"
  | .nameTooLong => "File name too long (os error 36)"

end OsError

abbrev Location := List String

inductive Entry where
  | file (content : Bytes)
  | directory
  deriving DecidableEq

structure Disk where
  entries : List (Location × Entry)
  home : Location

/-- The names of a path. An empty name before, between or behind slashes counts as the
directory itself. -/
def names (path : String) : List String :=
  (Text.split '/' path.toList).map fun cs => if cs.isEmpty then "." else String.ofList cs

def isAbsolute (path : String) : Bool := path.toList.head? == some '/'

def maxName : Nat := 255

namespace Disk

/-- The entry at a place; the root is always there. -/
def lookup (d : Disk) (at_ : Location) : Option Entry :=
  if at_ = [] then some .directory else (d.entries.find? (·.1 = at_)).map (·.2)

/-- Puts an entry at a place, instead of the one there if there is one. -/
def put (d : Disk) (at_ : Location) (e : Entry) : Disk :=
  if d.entries.any (·.1 = at_) then
    { d with entries := d.entries.map fun x => if x.1 = at_ then (at_, e) else x }
  else { d with entries := d.entries ++ [(at_, e)] }

/-- The place that the names lead to, which need not be there. Each name but the last has
to be a directory. -/
def walk (d : Disk) : Location → List String → Except OsError Location
  | here, [] => .ok here
  | here, name :: rest =>
    match d.lookup here with
    | none => .error .notFound
    | some (.file _) => .error .notDirectory
    | some .directory =>
      if name = "." then d.walk here rest
      else if name = ".." then d.walk here.dropLast rest
      else if maxName < name.utf8ByteSize then .error .nameTooLong
      else d.walk (here ++ [name]) rest

def locate (d : Disk) (path : String) : Except OsError Location :=
  if path.isEmpty then .error .notFound
  else d.walk (if isAbsolute path then [] else d.home) (names path)

def stat (d : Disk) (path : String) : Except OsError Entry := do
  match d.lookup (← d.locate path) with
  | some e => .ok e
  | none => .error .notFound

def isThere (d : Disk) (path : String) : Bool := (d.stat path).isOk

def isDirectory (d : Disk) (path : String) : Bool :=
  match d.stat path with
  | .ok .directory => true
  | _ => false

/-- The names in a directory, in order of their bytes. -/
def list (d : Disk) (path : String) : List String :=
  match d.locate path with
  | .error _ => []
  | .ok here =>
    let inside := d.entries.filterMap fun x =>
      if x.1.dropLast = here ∧ x.1 ≠ [] then x.1.getLast? else none
    inside.mergeSort (fun a b => decide (a ≤ b))

def read (d : Disk) (path : String) : Except OsError Bytes := do
  match ← d.stat path with
  | .file content => .ok content
  | .directory => .error .isDirectory

/-- Writes a whole file, which is made if it is missing. A path that ends in a slash means a
directory, whatever is there. -/
def write (d : Disk) (path : String) (content : Bytes) : Except OsError Disk := do
  if path.toList.getLast? == some '/' then
    let target := String.ofList (path.toList.reverse.dropWhile (· == '/')).reverse
    let _ ← d.walk (if isAbsolute path then [] else d.home) ((names target).dropLast ++ ["."])
    .error .isDirectory
  else
    let here ← d.locate path
    match d.lookup here with
    | some .directory => .error .isDirectory
    | _ => .ok (d.put here (.file content))

def makeDirectory (d : Disk) (path : String) : Except OsError Disk := do
  let here ← d.locate path
  match d.lookup here with
  | some _ => .error .exists_
  | none => .ok (d.put here .directory)

end Disk

/-- Drops slashes and names `.` from the end of a path, but for its first character. -/
def trimPath : Nat → List Char → List Char
  | 0, reversed => reversed
  | fuel + 1, reversed =>
    match reversed with
    | '/' :: c :: rest => trimPath fuel (c :: rest)
    | '.' :: '/' :: rest => trimPath fuel ('/' :: rest)
    | _ => reversed

/-- The path without its last name; the root and the empty path have none to drop. -/
def parent? (path : String) : Option String :=
  let reversed := trimPath path.length path.toList.reverse
  match reversed with
  | [] => none
  | ['/'] => none
  | _ =>
    let rest := reversed.dropWhile (· ≠ '/')
    some (String.ofList (trimPath path.length rest).reverse)

/-- Makes a directory and those around it that are missing. A failure comes with the disk
as it was left. -/
def makeDirectories : Nat → String → Disk → Except (OsError × Disk) Disk
  | 0, _, d => .ok d
  | fuel + 1, path, d =>
    if path.isEmpty then .ok d
    else
      let settle (d : Disk) (e : OsError) : Except (OsError × Disk) Disk :=
        if d.isDirectory path then .ok d else .error (e, d)
      match d.makeDirectory path with
      | .ok d => .ok d
      | .error .notFound =>
        match parent? path with
        | none => .error (.notFound, d)
        | some p =>
          match makeDirectories fuel p d with
          | .error e => .error e
          | .ok d =>
            match d.makeDirectory path with
            | .ok d => .ok d
            | .error e => settle d e
      | .error e => settle d e

end SchemaByExample.Files
