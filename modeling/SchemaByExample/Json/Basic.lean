import SchemaByExample.Members
import SchemaByExample.Number.Scale
import SchemaByExample.Number.Shortest

/-! JSON documents. Members keep their order; the type does not forbid a repeated name,
`Json.Distinct` does. -/
namespace SchemaByExample

open Number

/-- An integer that a signed or an unsigned word of 64 bits holds. -/
structure Word where
  value : Int
  low : -0x8000000000000000 ≤ value
  high : value < 0x10000000000000000
  deriving DecidableEq

namespace Word

def ofInt? (n : Int) : Option Word :=
  if h : -0x8000000000000000 ≤ n ∧ n < 0x10000000000000000 then some ⟨n, h.1, h.2⟩ else none

theorem ofInt?_value (w : Word) : ofInt? w.value = some w :=
  dif_pos ⟨w.low, w.high⟩

end Word

/-- A number is an integer where a word holds it and else a double. -/
inductive JsonNumber where
  | word (n : Word)
  | double (x : Double)
  deriving DecidableEq

inductive Json where
  | null
  | bool (b : Bool)
  | number (n : JsonNumber)
  | string (s : String)
  | array (items : List Json)
  | object (members : List (String × Json))

namespace Json

instance : Inhabited Json := ⟨.null⟩

def isNull : Json → Bool
  | .null => true
  | _ => false

def isContainer : Json → Bool
  | .array _ => true
  | .object _ => true
  | _ => false

def natural (n : UInt32) : Json :=
  .number (.word ⟨n.toNat, by omega, by have := n.toNat_lt; omega⟩)

mutual

/-- No object in the document repeats a name. -/
def Distinct : Json → Prop
  | .array items => DistinctItems items
  | .object members => (Members.keys members).Nodup ∧ DistinctMembers members
  | _ => True

def DistinctItems : List Json → Prop
  | [] => True
  | v :: rest => Distinct v ∧ DistinctItems rest

def DistinctMembers : List (String × Json) → Prop
  | [] => True
  | (_, v) :: rest => Distinct v ∧ DistinctMembers rest

end

mutual

/-- The number of containers around the innermost value. -/
def depth : Json → Nat
  | .array items => depthItems items + 1
  | .object members => depthMembers members + 1
  | _ => 0

def depthItems : List Json → Nat
  | [] => 0
  | v :: rest => max (depth v) (depthItems rest)

def depthMembers : List (String × Json) → Nat
  | [] => 0
  | (_, v) :: rest => max (depth v) (depthMembers rest)

end

end Json

end SchemaByExample
