import SchemaByExample.Files.Search

/-! Searches look at names only. What a pattern leads to is the same on disks that differ in
the contents of their files. -/
namespace SchemaByExample.Files

def Entry.emptied : Entry → Entry
  | .file _ => .file []
  | .directory => .directory

namespace Disk

def emptied (d : Disk) : Disk := { d with entries := d.entries.map fun x => (x.1, x.2.emptied) }

/-- The same files and directories, whatever the files hold. -/
def SameTree (d d' : Disk) : Prop := d.emptied = d'.emptied

theorem lookup_emptied (d : Disk) (l : Location) :
    d.emptied.lookup l = (d.lookup l).map Entry.emptied := by
  rw [lookup, lookup]
  split
  · rfl
  · simp only [emptied, List.find?_map, Option.map_map]
    rfl

theorem walk_emptied (d : Disk) (here : Location) (names : List String) :
    d.emptied.walk here names = d.walk here names := by
  induction names generalizing here with
  | nil => rfl
  | cons name rest ih =>
    rw [walk, walk, lookup_emptied]
    cases h : d.lookup here with
    | none => rfl
    | some e =>
      cases e with
      | file content => rfl
      | directory => simp only [Option.map_some, Entry.emptied, ih]

theorem locate_emptied (d : Disk) (path : String) : d.emptied.locate path = d.locate path := by
  rw [locate, locate, walk_emptied]
  rfl

theorem stat_emptied (d : Disk) (path : String) :
    d.emptied.stat path = (d.stat path).map Entry.emptied := by
  rw [stat, stat, locate_emptied]
  cases d.locate path with
  | error e => rfl
  | ok here =>
    simp only [bind, Except.bind, lookup_emptied]
    cases d.lookup here <;> rfl

theorem isThere_emptied (d : Disk) (path : String) : d.emptied.isThere path = d.isThere path := by
  rw [isThere, isThere, stat_emptied]
  cases d.stat path <;> rfl

theorem isDirectory_emptied (d : Disk) (path : String) :
    d.emptied.isDirectory path = d.isDirectory path := by
  rw [isDirectory, isDirectory, stat_emptied]
  cases d.stat path with
  | error e => rfl
  | ok e => cases e <;> rfl

theorem list_emptied (d : Disk) (path : String) : d.emptied.list path = d.list path := by
  rw [list, list, locate_emptied]
  cases d.locate path with
  | error e => rfl
  | ok here =>
    simp only [emptied, List.filterMap_map]
    rfl

end Disk

namespace Search

variable (d : Disk) (s : Search)

theorem found_emptied (path : String) : found d.emptied s path = found d s path := by
  rw [found, found, Disk.isDirectory_emptied]

/-- The three functions of a search call each other, so one induction serves them. -/
theorem inside_emptied (fuel : Nat) : ∀ parts path,
    inside d.emptied s fuel parts path = inside d s fuel parts path ∧
      visit d.emptied s fuel parts path = visit d s fuel parts path ∧
      named d.emptied s fuel parts path = named d s fuel parts path := by
  induction fuel with
  | zero => intro parts path; simp [inside, visit, named]
  | succ fuel ih =>
    intro parts path
    cases parts with
    | nil => simp [inside, visit, named]
    | cons part rest =>
      have hinside := fun parts path => (ih parts path).1
      have hvisit := fun parts path => (ih parts path).2.1
      have hnamed := fun parts path => (ih parts path).2.2
      refine ⟨?_, ?_, ?_⟩
      · simp only [inside, found_emptied, Disk.isDirectory_emptied, Disk.isThere_emptied,
          Disk.list_emptied, hinside, hvisit]
      · simp only [visit, Disk.isDirectory_emptied, hinside, hnamed]
      · simp only [named, found_emptied, hinside]

theorem fuel_emptied (parts : Nat) : fuel d.emptied parts = fuel d parts := by
  simp only [fuel, Disk.emptied, List.map_map, Function.comp_def]

end Search

theorem search_emptied (d : Disk) (pattern : String) :
    search d.emptied pattern = search d pattern := by
  have hinside (s : Search) (parts : List (List Token)) (path : String) :
      Search.inside d.emptied s (Search.fuel d.emptied parts.length) parts path =
        Search.inside d s (Search.fuel d parts.length) parts path := by
    rw [Search.fuel_emptied]
    exact (Search.inside_emptied d s _ parts path).1
  simp only [search, hinside]

theorem glob_of_sameTree {d d' : Disk} (h : d.SameTree d') : glob d = glob d' := by
  funext pattern
  rw [glob, glob, ← search_emptied d, h, search_emptied]

end SchemaByExample.Files
