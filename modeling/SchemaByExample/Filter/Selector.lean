import SchemaByExample.Filter.Outputs

/-! Steps from a container to its parts, once their keys are known: the parts they lead to
and the container with those parts changed. -/
namespace SchemaByExample.Filter

namespace Value

def asInt (v : Value) : Except Fault Int :=
  match v with
  | .int n => .ok n.toInt
  | v => .error (.notA "integer" v)

def asString (v : Value) : Except Fault String :=
  match v with
  | .string s => .ok s
  | v => .error (.notA "string" v)

def asArray (v : Value) : Except Fault (List Value) :=
  match v with
  | .array items => .ok items
  | v => .error (.notA "array" v)

end Value

/-- The position that an index means; a negative one counts from the end. -/
def position? (n : Int) (length : Nat) : Option Nat :=
  let i := if n < 0 then n + length else n
  if 0 ≤ i ∧ i < length then some i.toNat else none

/-- The bounds of a slice within a length: where it starts and how long it is. -/
def bounds (start stop : Option Int) (length : Nat) : Nat × Nat :=
  let bound (n : Int) : Nat := min (if n < 0 then n + length else n).toNat length
  let first := start.elim 0 bound
  let last := stop.elim length bound
  (first, last - first)

/-- A key, all parts, or the parts between two indices. -/
inductive Selector where
  | key (k : Value)
  | all
  | slice (start stop : Option Value)

namespace Selector

def bound (v : Option Value) : Except Fault (Option Int) := v.mapM Value.asInt

def cut (start stop : Option Value) (v : Value) : Except Fault Value := do
  match v with
  | .array items =>
    let (skip, count) := bounds (← bound start) (← bound stop) items.length
    return .array ((items.drop skip).take count)
  | .string s =>
    let cs := s.toList
    let (skip, count) := bounds (← bound start) (← bound stop) cs.length
    return .string (String.ofList ((cs.drop skip).take count))
  | v => throw (.notA "rangeable (array or string)" v)

/-- The part at a key; a container has `null` where it has no part. -/
def part (v k : Value) : Except Fault Value :=
  match v, k with
  | .array items, .int n =>
    .ok (((position? n.toInt items.length).bind fun i => items[i]?).getD .null)
  | .object ms, .string s => .ok ((Members.find? s ms).getD .null)
  | .array _, _ => .error (.notIndexed v k)
  | .object _, _ => .error (.notIndexed v k)
  | v, _ => .error (.notContainer v)

def parts (s : Selector) (v : Value) : Except Fault (List Value) :=
  match s with
  | .key k => (part v k).map fun x => [x]
  | .all =>
    match v with
    | .array items => .ok items
    | .object ms => .ok (ms.map (·.2))
    | v => .error (.notContainer v)
  | .slice start stop => (cut start stop v).map fun x => [x]

/-- A value that is left as it is where the step is optional, and else a fault. -/
def keep (optional : Bool) (v : Value) (e : Fault) : Except Fault Value :=
  if optional then .ok v else .error e

/-- Removes a member; the last one takes its place. -/
def remove (name : String) (ms : Members Value) : Members Value :=
  match ms.getLast? with
  | none => []
  | some last => ms.dropLast.map fun m => if m.1 = name then last else m

/-- Puts the first output in the place of a member, which is removed if there is none. -/
def updateMember (name : String) (f : Value → Outputs Value) (ms : Members Value) :
    Except Fault (Members Value) := do
  match Members.find? name ms with
  | some old =>
    match ← (f old).first? with
    | some new => return Members.insert name new ms
    | none => return remove name ms
  | none =>
    match ← (f .null).first? with
    | some new => return Members.insert name new ms
    | none => return ms

/-- Puts the first output in the place of an item, which is removed if there is none. -/
def updateItem (i : Nat) (f : Value → Outputs Value) (items : List Value) :
    Except Fault (List Value) := do
  match items[i]? with
  | none => return items
  | some old =>
    match ← (f old).first? with
    | some new => return items.set i new
    | none => return items.eraseIdx i

/-- Puts the items of the first output, which has to be an array, in the place of a slice. -/
def updateSlice (optional : Bool) (start stop : Option Value) (f : Value → Outputs Value)
    (v : Value) : Except Fault Value :=
  match v with
  | .array items =>
    match bound start, bound stop with
    | .ok first, .ok last => do
      let (skip, count) := bounds first last items.length
      let new ← match ← (f (.array ((items.drop skip).take count))).first? with
        | some w => w.asArray
        | none => pure []
      return .array (items.take skip ++ new ++ items.drop (skip + count))
    | .error e, _ => keep optional v e
    | _, .error e => keep optional v e
  | v => keep optional v (.notA "array" v)

def updateMembers (f : Value → Outputs Value) : List (String × Value) →
    Except Fault (List (String × Value))
  | [] => .ok []
  | (k, v) :: rest => do
    match ← (f v).first? with
    | some w => return (k, w) :: (← updateMembers f rest)
    | none => updateMembers f rest

/-- The container with the parts replaced by what a filter makes of them. Of an array's items
all outputs are taken, else the first. -/
def update (optional : Bool) (f : Value → Outputs Value) (s : Selector) (v : Value) :
    Except Fault Value :=
  match s with
  | .all =>
    match v with
    | .array items => ((Outputs.ofList items).andThen f).gather.map .array
    | .object ms => (updateMembers f ms).map .object
    | v => keep optional v (.notContainer v)
  | .slice start stop => updateSlice optional start stop f v
  | .key k =>
    match v with
    | .object ms =>
      match k with
      | .string name => (updateMember name f ms).map .object
      | k => keep optional v (.notIndexed v k)
    | .array items =>
      match k.asInt with
      | .error e => keep optional v e
      | .ok n =>
        match position? n items.length with
        | none => keep optional v (.ofText ("index " ++ k.text ++ " out of bounds"))
        | some i => (updateItem i f items).map .array
    | v => keep optional v (.notContainer v)

end Selector

end SchemaByExample.Filter
