import SchemaByExample.Filter.Fault
import SchemaByExample.Filter.Term
import SchemaByExample.Text.Split

/-! Arithmetic on values. Integers stay integers but for division; a number that is known by
its text is computed with as a double. -/
namespace SchemaByExample.Filter.Value

open Number

def computed (v : Value) : Value :=
  match v with
  | .literal _ => (v.float?).elim v .float
  | v => v

mutual

/-- The members of the second object put into the first; where both have objects, these are
merged. -/
def mergeMembers (l : Members Value) : List (String × Value) → Members Value
  | [] => l
  | (k, v) :: rest => mergeMembers (Members.insert k (mergeValue (Members.find? k l) v) l) rest

def mergeValue (old : Option Value) : Value → Value
  | .object ms =>
    match old with
    | some (.object ls) => .object (mergeMembers ls ms)
    | _ => .object ms
  | v => v

end

/-- The pieces of a text; an empty separator stands between all characters. -/
def splitText (s sep : String) : List String :=
  if s.isEmpty then []
  else if sep.isEmpty then s.toList.map Char.toString
  else (Text.pieces sep.toList s.toList).map String.ofList

/-- Sums, differences and products wrap around where no signed word holds them. -/
def calculateInts (op : Arithmetic) (l r : Int64) : Option Value :=
  match op with
  | .add => some (.int (l + r))
  | .sub => some (.int (l - r))
  | .mul => some (.int (l * r))
  | .div => some (.float ((Extended.ofInt _ l.toInt).div (.ofInt _ r.toInt)))
  | .rem => if r = 0 then none else some (.int (l % r))

def calculateFloats (op : Arithmetic) (l r : Extended .double) : Value :=
  match op with
  | .add => .float (l.add r)
  | .sub => .float (l.sub r)
  | .mul => .float (l.mul r)
  | .div => .float (l.div r)
  | .rem => .float (l.rem r)

def times (s : String) (n : Int) : Value :=
  if n ≤ 0 then .null else .string (String.join (List.replicate n.toNat s))

/-- What an operation makes of two values that are not both numbers. -/
def calculateOthers (op : Arithmetic) (l r : Value) : Option Value :=
  match op, l, r with
  | .add, .string a, .string b => some (.string (a ++ b))
  | .add, .array a, .array b => some (.array (a ++ b))
  | .add, .object a, .object b => some (.object (Members.insertAll a b))
  | .sub, .array a, .array b => some (.array (a.filter fun x => !b.any (equal x)))
  | .mul, .string s, .int n => some (times s n.toInt)
  | .mul, .int n, .string s => some (times s n.toInt)
  | .mul, .object a, .object b => some (.object (mergeMembers a b))
  | .div, .string s, .string sep => some (.array ((splitText s sep).map .string))
  | _, _, _ => none

/-- An operation on two values. Adding `null` changes nothing. -/
def calculate (op : Arithmetic) (l r : Value) : Except Fault Value :=
  match op, l, r with
  | .add, .null, r => .ok r
  | .add, l, .null => .ok l
  | op, l, r =>
    let l := l.computed
    let r := r.computed
    let result := match l, r with
      | .int a, .int b => calculateInts op a b
      | l, r =>
        match l.float?, r.float? with
        | some a, some b => some (calculateFloats op a b)
        | _, _ => calculateOthers op l r
    match result with
    | some v => .ok v
    | none => .error (.notCalculated l op.sign r)

def negated (v : Value) : Except Fault Value :=
  match v.computed with
  | .int n => .ok (.int (-n))
  | .float x => .ok (.float x.neg)
  | _ => .error (.notA "number" v)

end SchemaByExample.Filter.Value
