import SchemaByExample.Text.Utf8

/-! Base64: three bytes as four characters of six bits each, filled up at the end. A text is
read only if it is the one that its bytes are written as. -/
namespace SchemaByExample.Base64

def alphabet : List Char :=
  "ABCDEFGHIJKLMNOPQRSTUVWXYZabcdefghijklmnopqrstuvwxyz0123456789+/".toList

def char (n : Nat) : Char := alphabet.getD (n % 64) '='

def chars : List UInt8 → List Char
  | a :: b :: c :: rest =>
    let n := (a.toNat * 256 + b.toNat) * 256 + c.toNat
    char (n / 262144) :: char (n / 4096) :: char (n / 64) :: char n :: chars rest
  | [a, b] =>
    let n := (a.toNat * 256 + b.toNat) * 256
    [char (n / 262144), char (n / 4096), char (n / 64), '=']
  | [a] =>
    let n := a.toNat * 65536
    [char (n / 262144), char (n / 4096), '=', '=']
  | [] => []

def encode (bytes : List UInt8) : String := String.ofList (chars bytes)

inductive Refusal where
  | symbol (byte : UInt8) (index : Nat)
  | lastSymbol (byte : UInt8) (index : Nat)
  | length (n : Nat)
  | padding

namespace Refusal

def message : Refusal → String
  | .symbol b i => "Invalid symbol " ++ toString b.toNat ++ ", offset " ++ toString i ++ "."
  | .lastSymbol b i =>
    "Invalid last symbol " ++ toString b.toNat ++ ", offset " ++ toString i ++ "."
  | .length n => "Invalid input length: " ++ toString n
  | .padding => "Invalid padding"

end Refusal

def sextet? (b : UInt8) : Option Nat := alphabet.idxOf? (Char.ofNat b.toNat)

def isFill (b : UInt8) : Bool := b.toNat == '='.toNat

/-- The sextets of bytes that all have one; `i` is the index of the first byte. -/
def sextets : Nat → List UInt8 → Except Refusal (List Nat)
  | _, [] => .ok []
  | i, b :: rest =>
    match sextet? b with
    | none => .error (.symbol b i)
    | some n => (sextets (i + 1) rest).map (n :: ·)

/-- The sextets of the last group, which starts at `start`, each with its byte, and the number
of bytes that fill it up. Those stand behind two sextets at least, and no sextet behind
them. -/
def lastGroup (start : Nat) : Nat → Nat → List UInt8 →
    Except Refusal (List (Nat × UInt8) × Nat)
  | _, fills, [] => .ok ([], fills)
  | i, fills, b :: rest =>
    if isFill b then
      if i < 2 then .error (.symbol b (start + i)) else lastGroup start (i + 1) (fills + 1) rest
    else if 0 < fills then .error (.symbol '='.toNat.toUInt8 (start + i - fills))
    else
      match sextet? b with
      | none => .error (.symbol b (start + i))
      | some n => (lastGroup start (i + 1) fills rest).map fun r => ((n, b) :: r.1, r.2)

/-- The bytes of groups of six bits; those of an incomplete byte are dropped. -/
def bytes : List Nat → List UInt8
  | a :: b :: c :: d :: rest =>
    let n := ((a * 64 + b) * 64 + c) * 64 + d
    (n / 65536).toUInt8 :: (n / 256).toUInt8 :: n.toUInt8 :: bytes rest
  | [a, b, c] =>
    let n := ((a * 64 + b) * 64 + c) * 64
    [(n / 65536).toUInt8, (n / 256).toUInt8]
  | [a, b] => [((a * 64 + b) / 16).toUInt8]
  | _ => []

/-- What the last sextet of an incomplete group must be a multiple of. -/
def unit (count : Nat) : Nat := if count = 2 then 16 else if count = 3 then 4 else 1

/-- A last byte without meaning is found before all else, if it stands alone in its group. -/
def loneByte? (text : List UInt8) : Option UInt8 :=
  if text.length % 4 = 1 then
    text.getLast?.filter fun b => !isFill b && (sextet? b).isNone
  else none

def decode (text : List UInt8) : Except Refusal (List UInt8) := do
  if let some b := loneByte? text then throw (.symbol b (text.length - 1))
  let start := (text.length - 1) / 4 * 4
  let front ← sextets 0 (text.take start)
  let (back, fills) ← lastGroup start 0 0 (text.drop start)
  if !text.isEmpty && back.length < 2 then throw (.length (start + back.length))
  if (back.length + fills) % 4 ≠ 0 then throw .padding
  if let some (n, b) := back.getLast? then
    if n % unit back.length ≠ 0 then throw (.lastSymbol b (start + back.length - 1))
  return bytes (front ++ back.map (·.1))

end SchemaByExample.Base64
