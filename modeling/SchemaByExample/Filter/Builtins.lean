import SchemaByExample.Filter.Arithmetic
import SchemaByExample.Filter.Format
import SchemaByExample.Filter.JsonText
import SchemaByExample.Text.Base64

/-! The functions that filters can call and that are not defined by filters. -/
namespace SchemaByExample.Filter

open Number

/-- A function of the input and the values of its arguments. -/
abbrev Builtin := Value → List Value → Outputs Value

namespace Builtin

/-- The signed word that is nearest. -/
def clamp (n : Int) : Int64 := .ofInt (max Value.leastInt (min n Value.greatestInt))

/-- A number as a whole one; what is not finite becomes the nearest integer there is. -/
def rounded (w : Extended.Whole) (v : Value) : Except Fault Value :=
  match v.computed with
  | .int n => .ok (.int n)
  | .float (.finite x) => .ok (.int (clamp (w.ofBinary x)))
  | .float (.infinite negative) =>
    .ok (.int (if negative then Int64.minValue else Int64.maxValue))
  | .float .nan => .ok (.int 0)
  | v => .error (.notA "floating-point number" v)

def ofFloat (f : Extended .double → Extended .double) (v : Value) : Except Fault Value :=
  match v.float? with
  | some x => .ok (.float (f x))
  | none => .error (.notA "floating-point number" v)

def length (v : Value) : Except Fault Value :=
  match v.computed with
  | .null => .ok (.int 0)
  | .int n => .ok (.int n.abs)
  | .float x => .ok (.float x.abs)
  | .string s => .ok (.ofNat s.length)
  | .array items => .ok (.ofNat items.length)
  | .object ms => .ok (.ofNat ms.length)
  | v => .error (.ofText (v.text ++ " has no length"))

def keys (v : Value) : Except Fault Value :=
  match v with
  | .array items => .ok (.array ((List.range items.length).map Value.ofNat))
  | .object ms => .ok (.array (ms.map fun m => .string m.1))
  | v => .error (.notContainer v)

def has (v key : Value) : Except Fault Value :=
  match v, key with
  | .array items, .int n =>
    if 0 ≤ n then .ok (.bool (decide (n.toInt < items.length))) else .error (.notIndexed v key)
  | .object ms, .string s => .ok (.bool (Members.find? s ms).isSome)
  | v, key => .error (.notIndexed v key)

mutual

/-- Whether a value occurs in another: as a part of a text, item by item in any place, or
member by member. -/
def contains (l : Value) : Value → Bool
  | .string r =>
    match l with
    | .string l => Text.occurs r.toList l.toList
    | _ => false
  | .array rs =>
    match l with
    | .array ls => containsItems ls rs
    | _ => false
  | .object rs =>
    match l with
    | .object ls => containsMembers ls rs
    | _ => false
  | r => l.equal r

def containsItems (ls : List Value) : List Value → Bool
  | [] => true
  | r :: rest => ls.any (fun l => contains l r) && containsItems ls rest

def containsMembers (ls : Members Value) : List (String × Value) → Bool
  | [] => true
  | (k, r) :: rest =>
    (match Members.find? k ls with
      | some l => contains l r
      | none => false) && containsMembers ls rest

end

def positions {α : Type} (same : α → α → Bool) (part : List α) (whole : List α) : List Nat :=
  if part.isEmpty then []
  else (List.range whole.length).filter fun i =>
    let here := (whole.drop i).take part.length
    here.length == part.length && (here.zip part).all fun x => same x.1 x.2

def indices (v part : Value) : Except Fault Value :=
  let give (ns : List Nat) : Except Fault Value := .ok (.array (ns.map Value.ofNat))
  match v, part with
  | .string s, .string p => give (positions (· == ·) p.toList s.toList)
  | .array xs, .array ps => give (positions Value.equal ps xs)
  | .array xs, p => give (positions Value.equal [p] xs)
  | v, p => .error (.notIndexed v p)

def onText (f : String → String) (v : Value) : Except Fault Value :=
  do return .string (f (← v.asString))

def onTexts (f : String → String → Value) (v w : Value) : Except Fault Value :=
  do return f (← v.asString) (← w.asString)

def withoutStart (s part : String) : Value :=
  let cs := s.toList
  .string (if part.toList.isPrefixOf cs then String.ofList (cs.drop part.length) else s)

def withoutEnd (s part : String) : Value :=
  let cs := s.toList
  .string
    (if part.toList.isSuffixOf cs then String.ofList (cs.take (cs.length - part.length)) else s)

def startsWith (s part : String) : Value := .bool (part.toList.isPrefixOf s.toList)

def endsWith (s part : String) : Value := .bool (part.toList.isSuffixOf s.toList)

def trimStart (s : String) : String := String.ofList (s.toList.dropWhile Text.isWhiteSpace)

def trimEnd (s : String) : String :=
  String.ofList (s.toList.reverse.dropWhile Text.isWhiteSpace).reverse

def mapChars (f : Char → Char) (s : String) : String := String.ofList (s.toList.map f)

def split (v sep : Value) : Except Fault Value :=
  match v, sep with
  | .string s, .string sep => .ok (.array ((Value.splitText s sep).map .string))
  | _, _ => .error (.ofText "split input and separator must be strings")

def explode (v : Value) : Except Fault Value :=
  do return .array ((← v.asString).toList.map fun c => .ofNat c.toNat)

/-- The character with a code; a code is a word of 32 bits. -/
def character (v : Value) : Except Fault Char := do
  let n ← v.asInt
  if n < 0 then throw (.ofText "number too small to fit in target type")
  if 0x100000000 ≤ n then throw (.ofText "number too large to fit in target type")
  match Utf8.char? n.toNat with
  | some c => return c
  | none => throw (.ofText ("cannot use " ++ v.text ++ " as character"))

def implode (v : Value) : Except Fault Value :=
  do return .string (String.ofList (← (← v.asArray).mapM character))

def sort (v : Value) : Except Fault Value :=
  do return .array ((← v.asArray).mergeSort Value.atMost)

def reverse (v : Value) : Except Fault Value := do return .array (← v.asArray).reverse

def utf8Length (v : Value) : Except Fault Value :=
  do return .ofNat (← v.asString).utf8ByteSize

def fromBase64 (s : String) : Except Fault String :=
  match Base64.decode (Utf8.ofString s) with
  | .error e => .error (.ofText e.message)
  | .ok bytes => (Utf8.decodeOr bytes).mapError .ofText

/-- Halves the part of an array in which a value may be, `size` items from `base` on. -/
def narrow (items : Array Value) (x : Value) : Nat → Nat → Nat → Nat
  | 0, base, _ => base
  | fuel + 1, base, size =>
    if size ≤ 1 then base
    else
      let half := size / 2
      let above := (items[base + half]?.map fun y => Value.order y x).getD .gt == .gt
      narrow items x fuel (if above then base else base + half) (size - half)

/-- The position of a value in a sorted array, or one less than the negated position at which
it can be put in. -/
def search (v x : Value) : Except Fault Value := do
  let items := (← v.asArray).toArray
  let base := narrow items x items.size 0 items.size
  return match items[base]?.map fun y => Value.order y x with
    | some .eq => .ofNat base
    | some .lt => .ofInt (-2 - base)
    | _ => .ofInt (-1 - base)

mutual

/-- The parts of a value at every depth, each behind the path that leads to it, which begins
with the steps that are given. -/
def pathValues (path : List Value) : Value → List Value
  | .array items => pathItems path 0 items
  | .object ms => pathMembers path ms
  | _ => []

def pathItems (path : List Value) : Nat → List Value → List Value
  | _, [] => []
  | i, v :: rest =>
    let here := path ++ [.ofNat i]
    .array [.array here, v] :: (pathValues here v ++ pathItems path (i + 1) rest)

def pathMembers (path : List Value) : List (String × Value) → List Value
  | [] => []
  | (k, v) :: rest =>
    let here := path ++ [.string k]
    .array [.array here, v] :: (pathValues here v ++ pathMembers path rest)

end

def constant (v : Value) : Builtin := fun _ _ => .just v

def unary (f : Value → Except Fault Value) : Builtin := fun v _ => .ofExcept (f v)

def binary (f : Value → Value → Except Fault Value) : Builtin
  | v, [w] => .ofExcept (f v w)
  | v, _ => .just v

/-- The functions by name, with the number of their arguments. Regular expressions, dates and the
clock, the mathematical functions beyond rounding and roots, and the functions that look at the
environment, ask for another input or end the program are left out: a filter that uses one has
an undefined name. -/
def table : List ((String × Nat) × Builtin) := [
  (("null", 0), constant .null),
  (("true", 0), constant (.bool true)),
  (("false", 0), constant (.bool false)),
  (("nan", 0), constant (.float .nan)),
  (("infinite", 0), constant (.float (.infinite false))),
  (("error", 0), unary fun v => .error (.value v)),
  (("error", 1), binary fun _ w => .error (.value w)),
  (("length", 0), unary length),
  (("utf8bytelength", 0), unary utf8Length),
  (("keys_unsorted", 0), unary keys),
  (("has", 1), binary has),
  (("contains", 1), binary fun v w => .ok (.bool (contains v w))),
  (("indices", 1), binary indices),
  (("type", 0), unary fun v => .ok (.string v.kind)),
  (("floor", 0), unary (rounded .floor)),
  (("ceil", 0), unary (rounded .ceiling)),
  (("round", 0), unary (rounded .nearest)),
  (("sqrt", 0), unary (ofFloat Extended.sqrt)),
  (("fabs", 0), unary (ofFloat Extended.abs)),
  (("sort", 0), unary sort),
  (("reverse", 0), unary reverse),
  (("split", 1), binary split),
  (("explode", 0), unary explode),
  (("implode", 0), unary implode),
  (("ascii_downcase", 0), unary (onText (mapChars Char.toLower))),
  (("ascii_upcase", 0), unary (onText (mapChars Char.toUpper))),
  (("startswith", 1), binary (onTexts startsWith)),
  (("endswith", 1), binary (onTexts endsWith)),
  (("ltrimstr", 1), binary (onTexts withoutStart)),
  (("rtrimstr", 1), binary (onTexts withoutEnd)),
  (("trim", 0), unary (onText fun s => trimEnd (trimStart s))),
  (("ltrim", 0), unary (onText trimStart)),
  (("rtrim", 0), unary (onText trimEnd)),
  (("tostring", 0), unary fun v => .ok (.string v.plain)),
  (("tojson", 0), unary fun v => .ok (.string v.text)),
  (("fromjson", 0), unary fun v => do JsonText.ofText (← v.asString)),
  (("path_values", 0), fun v _ => .ofList (pathValues [] v)),
  (("bsearch", 1), binary search),
  (("escape_html", 0), unary (onText Format.html)),
  (("escape_csv", 0), unary (onText Format.csv)),
  (("escape_tsv", 0), unary (onText Format.tsv)),
  (("escape_sh", 0), unary (onText Format.shell)),
  (("encode_uri", 0), unary (onText Format.uri)),
  (("encode_base64", 0), unary (onText fun s => Base64.encode (Utf8.ofString s))),
  (("decode_base64", 0), unary fun v => return .string (← fromBase64 (← v.asString)))]

def find? (name : String) (arity : Nat) : Option Builtin := table.lookup (name, arity)

/-- An item that comes first in the order of the keys, the first of several. -/
def least : List (Value × Value) → Option (Value × Value)
  | [] => none
  | x :: rest => some (rest.foldl (fun m y => if Value.order y.1 m.1 == .lt then y else m) x)

/-- An item that comes last in the order of the keys, the last of several. -/
def greatest : List (Value × Value) → Option (Value × Value)
  | [] => none
  | x :: rest => some (rest.foldl (fun m y => if Value.order y.1 m.1 == .lt then m else y) x)

def sortKeyed (xs : List (Value × Value)) : List (Value × Value) :=
  xs.mergeSort fun x y => Value.atMost x.1 y.1

def groups : List (Value × Value) → List (Value × List Value)
  | [] => []
  | (k, v) :: rest =>
    match groups rest with
    | (k', vs) :: more => if k.equal k' then (k, v :: vs) :: more else (k, [v]) :: (k', vs) :: more
    | [] => [(k, [v])]

def keyedTable : List (String × (List (Value × Value) → Value)) := [
  ("sort_by", fun xs => .array ((sortKeyed xs).map (·.2))),
  ("group_by", fun xs => .array ((groups (sortKeyed xs)).map fun g => .array g.2)),
  ("min_by", fun xs => (least xs).elim .null (·.2)),
  ("max_by", fun xs => (greatest xs).elim .null (·.2))]

/-- The functions that run an argument as a filter. -/
def special : List (String × Nat) :=
  [("first", 1), ("last", 1), ("limit", 2)] ++ keyedTable.map fun x => (x.1, 1)

def names : List (String × Nat) := special ++ table.map (·.1)

end Builtin

end SchemaByExample.Filter
