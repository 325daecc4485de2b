import SchemaByExample.Json.Printer
import SchemaByExample.Number.DecimalText
import SchemaByExample.Text.Quoted

/-! Values of filters. They are those of documents but for numbers: a filter computes with signed
words and doubles, and a number that it only passes on keeps its text. -/
namespace SchemaByExample.Filter

open Number

inductive Value where
  | null
  | bool (b : Bool)
  | int (n : Int64)
  | float (x : Extended .double)
  | literal (text : String)
  | string (s : String)
  | array (items : List Value)
  | object (members : List (String × Value))

namespace Value

instance : Inhabited Value := ⟨.null⟩

def ofInt (n : Int) : Value := .int (.ofInt n)

def ofNat (n : Nat) : Value := .int (.ofNat n)

def leastInt : Int := -0x8000000000000000

def greatestInt : Int := 0x7FFFFFFFFFFFFFFF

theorem toInt_ofInt {n : Int} (hlow : leastInt ≤ n) (hhigh : n ≤ greatestInt) :
    (Int64.ofInt n).toInt = n := by
  rw [leastInt] at hlow
  rw [greatestInt] at hhigh
  exact Int64.toInt_ofInt_of_le (by omega) (by omega)

/-- An integer computes as such if a signed word holds it. -/
def ofNumber : JsonNumber → Value
  | .word n =>
    if n.value ≤ greatestInt then .ofInt n.value
    else .literal (String.ofList (Json.intChars n.value))
  | .double x => .literal x.text

mutual

def ofJson : Json → Value
  | .null => .null
  | .bool b => .bool b
  | .number n => ofNumber n
  | .string s => .string s
  | .array items => .array (ofItems items)
  | .object members => .object (ofMembers members)

def ofItems : List Json → List Value
  | [] => []
  | v :: rest => ofJson v :: ofItems rest

def ofMembers : List (String × Json) → List (String × Value)
  | [] => []
  | (k, v) :: rest => (k, ofJson v) :: ofMembers rest

end

/-- Computed doubles from 1e-4 up to 1e16 are written positionally. -/
def floatStyle : FloatStyle := ⟨-4, 15, false⟩

/-- JSON text has no word for the values that are not finite. -/
def floatChars : Extended .double → List Char
  | .finite x => (floatStyle.text x.shortest).toList
  | _ => "null".toList

/-- A string is written as in a document, but that no control has a letter of its own besides
line feeds, returns and tabs. -/
def escapeChar (c : Char) : List Char :=
  if c = '\x08' ∨ c = '\x0c' then '\\' :: 'u' :: '0' :: '0' :: Json.hexPair c.toNat
  else Json.escapeChar c

def quote (s : String) : List Char := '"' :: s.toList.flatMap escapeChar ++ ['"']

mutual

def chars : Value → List Char
  | .null => "null".toList
  | .bool true => "true".toList
  | .bool false => "false".toList
  | .int n => Json.intChars n.toInt
  | .float x => floatChars x
  | .literal t => t.toList
  | .string s => quote s
  | .array [] => ['[', ']']
  | .array (v :: rest) => '[' :: chars v ++ itemChars rest ++ [']']
  | .object [] => ['{', '}']
  | .object ((k, v) :: rest) => '{' :: quote k ++ ':' :: chars v ++ memberChars rest ++ ['}']

def itemChars : List Value → List Char
  | [] => []
  | v :: rest => ',' :: chars v ++ itemChars rest

def memberChars : List (String × Value) → List Char
  | [] => []
  | (k, v) :: rest => ',' :: quote k ++ ':' :: chars v ++ memberChars rest

end

def text (v : Value) : String := String.ofList (chars v)

/-- A string as it is, and every other value by its text. -/
def plain : Value → String
  | .string s => s
  | v => v.text

/-- The text of a double that tells apart what is not finite. -/
def shownFloat : Extended .double → String
  | .nan => "NaN"
  | .infinite true => "-inf"
  | .infinite false => "inf"
  | .finite x => floatStyle.text x.shortest

def separated : List String → String := String.intercalate ", "

mutual

/-- The text of a value that names its kind, for messages. -/
def shown : Value → String
  | .null => "Null"
  | .bool b => "Bool(" ++ (if b then "true" else "false") ++ ")"
  | .int n => "Int(" ++ String.ofList (Json.intChars n.toInt) ++ ")"
  | .float x => "Float(" ++ shownFloat x ++ ")"
  | .literal t => "Num(" ++ Quoted.text t ++ ")"
  | .string s => "Str(" ++ Quoted.text s ++ ")"
  | .array items => "Arr([" ++ separated (shownItems items) ++ "])"
  | .object members => "Obj(\x7b" ++ separated (shownMembers members) ++ "\x7d)"

def shownItems : List Value → List String
  | [] => []
  | v :: rest => shown v :: shownItems rest

def shownMembers : List (String × Value) → List String
  | [] => []
  | (k, v) :: rest => (Quoted.text k ++ ": " ++ shown v) :: shownMembers rest

end

/-- All but `null` and `false` count as true. -/
def isTrue : Value → Bool
  | .null => false
  | .bool b => b
  | _ => true

def float? : Value → Option (Extended .double)
  | .int n => some (.ofInt _ n.toInt)
  | .float x => some x
  | .literal t =>
    match DecimalText.decimal? t.toList with
    | some (d, _) => some (d.toExtended _)
    | none => some .nan
  | _ => none

def rank : Value → Nat
  | .null => 0
  | .bool _ => 1
  | .int _ => 2
  | .float _ => 2
  | .literal _ => 2
  | .string _ => 3
  | .array _ => 4
  | .object _ => 5

/-- Doubles in their order, with not-a-number below every value, itself included. -/
def compareFloats (a b : Extended .double) : Ordering :=
  match a, b with
  | .nan, _ => .lt
  | _, .nan => .gt
  | a, b => (Extended.compare? a b).getD .eq

/-- Numbers and kinds; for two values of one kind of container it is undecided. -/
def compareFlat (a b : Value) : Ordering :=
  match a, b with
  | .bool a, .bool b => compare a b
  | .int a, .int b => compare a.toInt b.toInt
  | .string a, .string b => compare a b
  | a, b =>
    match a.float?, b.float? with
    | some x, some y => compareFloats x y
    | _, _ => compare a.rank b.rank

/-- The first difference in the order of the names. -/
def firstDifference (results : List (String × Ordering)) : Ordering :=
  ((results.mergeSort fun a b => decide (a.1 ≤ b.1)).find? (·.2 != .eq)).elim .eq (·.2)

def sortedKeys (members : Members Value) : List String :=
  members.keys.mergeSort fun a b => decide (a ≤ b)

mutual

/-- Arrays compare item by item, objects first by their sorted names and then by the values
in the order of the names. -/
def order : Value → Value → Ordering
  | .array xs, .array ys => orderItems xs ys
  | .object xs, .object ys =>
    (compare (sortedKeys xs) (sortedKeys ys)).then (firstDifference (orderMembers xs ys))
  | a, b => compareFlat a b

def orderItems : List Value → List Value → Ordering
  | [], [] => .eq
  | [], _ :: _ => .lt
  | _ :: _, [] => .gt
  | x :: xs, y :: ys => (order x y).then (orderItems xs ys)

def orderMembers : List (String × Value) → List (String × Value) → List (String × Ordering)
  | [], _ => []
  | (k, v) :: rest, others =>
    match Members.find? k others with
    | some w => (k, order v w) :: orderMembers rest others
    | none => orderMembers rest others

end

def equal (a b : Value) : Bool := order a b == .eq

def atMost (a b : Value) : Bool := order a b != .gt

def kind : Value → String
  | .null => "null"
  | .bool _ => "boolean"
  | .int _ | .float _ | .literal _ => "number"
  | .string _ => "string"
  | .array _ => "array"
  | .object _ => "object"

end Value

end SchemaByExample.Filter
