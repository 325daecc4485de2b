import SchemaByExample.Json.Failure
import SchemaByExample.Text.Utf8

/-! Reading string and number literals. Each reader takes the bytes that are left and gives
its result with those behind it; a failure names the byte at which it shows. -/
namespace SchemaByExample.Literal

open Number Read

def byte (c : Char) : UInt8 := c.val.toUInt8

def hexDigit? (b : UInt8) : Option Nat :=
  if 48 ≤ b.toNat ∧ b.toNat < 58 then some (b.toNat - 48)
  else if 65 ≤ b.toNat ∧ b.toNat < 71 then some (b.toNat - 55)
  else if 97 ≤ b.toNat ∧ b.toNat < 103 then some (b.toNat - 87)
  else none

def hexEscape : Bytes → Except Failure (Nat × Bytes)
  | a :: b :: c :: d :: rest =>
    match hexDigit? a, hexDigit? b, hexDigit? c, hexDigit? d with
    | some a, some b, some c, some d => .ok (ofDigits 16 [a, b, c, d], rest)
    | _, _, _, _ => fail .invalidEscape rest
  | _ => fail .eofInString []

/-- Reads one given byte of a surrogate pair's second half. -/
def expectInPair (c : Char) : Bytes → Except Failure (Unit × Bytes)
  | [] => fail .eofInString []
  | b :: rest => if b = byte c then .ok ((), rest) else fail .unexpectedHexEnd rest

/-- The character of a `\u` escape, of two for a surrogate pair. -/
def unicodeEscape (bytes : Bytes) : Except Failure (Char × Bytes) := do
  let (n, rest) ← hexEscape bytes
  if 0xDC00 ≤ n ∧ n ≤ 0xDFFF then fail .loneSurrogate rest
  else if 0xD800 ≤ n ∧ n ≤ 0xDBFF then
    let ((), rest) ← expectInPair '\\' rest
    let ((), rest) ← expectInPair 'u' rest
    let (low, rest) ← hexEscape rest
    if 0xDC00 ≤ low ∧ low ≤ 0xDFFF then
      .ok (Char.ofNat ((n - 0xD800) * 0x400 + (low - 0xDC00) + 0x10000), rest)
    else fail .loneSurrogate rest
  else .ok (Char.ofNat n, rest)

/-- The character of an escape, behind its backslash. -/
def escape : Bytes → Except Failure (Char × Bytes)
  | [] => fail .eofInString []
  | b :: rest =>
    if b = byte '"' then .ok ('"', rest)
    else if b = byte '\\' then .ok ('\\', rest)
    else if b = byte '/' then .ok ('/', rest)
    else if b = byte 'b' then .ok ('\x08', rest)
    else if b = byte 'f' then .ok ('\x0c', rest)
    else if b = byte 'n' then .ok ('\n', rest)
    else if b = byte 'r' then .ok ('\r', rest)
    else if b = byte 't' then .ok ('\t', rest)
    else if b = byte 'u' then unicodeEscape rest
    else fail .invalidEscape rest

/-- The bytes that a literal up to its closing quote stands for: those of an escaped
character, and every other byte as it is. -/
def content : Nat → Bytes → Except Failure (Bytes × Bytes)
  | 0, rest => fail .eofInString rest
  | _ + 1, [] => fail .eofInString []
  | fuel + 1, b :: rest =>
    if b = byte '"' then .ok ([], rest)
    else if b = byte '\\' then do
      let (c, rest) ← escape rest
      let (bs, rest) ← content fuel rest
      .ok (Utf8.encode [c] ++ bs, rest)
    else if b < 32 then fail .controlCharacter rest
    else do
      let (bs, rest) ← content fuel rest
      .ok (b :: bs, rest)

/-- A string literal behind its opening quote. Its content is decoded once the whole literal
is read. The place of a fault lies as many bytes before the end of the literal as the content
has from the fault on, and so it is further right when escapes follow. -/
def string (bytes : Bytes) : Except Failure (String × Bytes) := do
  let (bs, rest) ← content (bytes.length + 1) bytes
  match Utf8.decode bs with
  | some s => .ok (s, rest)
  | none => .error ⟨.invalidCodePoint, [], (Utf8.undecoded bs).length + rest.length⟩

def isDigit (b : UInt8) : Bool := 48 ≤ b.toNat && b.toNat < 58

/-- The digits at the front, as values, and what is behind them. -/
def digits (bytes : Bytes) : List Nat × Bytes :=
  ((bytes.takeWhile isDigit).map (fun b => b.toNat - 48), bytes.dropWhile isDigit)

/-- A number literal before its exponent: the number is `±significand * 10 ^ exponent`, but
for the digits that no longer fit a word. -/
structure Mantissa where
  negative : Bool
  significand : Nat
  exponent : Int

namespace Mantissa

/-- Appends digits to a significand as long as a word holds it, and counts those that it
takes. -/
def append : Nat → List Nat → Nat × Nat
  | n, [] => (n, 0)
  | n, d :: ds =>
    if 10 * n + d < 0x10000000000000000 then
      let (m, taken) := append (10 * n + d) ds
      (m, taken + 1)
    else (n, 0)

/-- The digits before the point; those that are left out count as zeros. -/
def ofWhole (negative : Bool) (whole : List Nat) : Mantissa :=
  let (n, taken) := append 0 whole
  ⟨negative, n, whole.length - taken⟩

/-- The digits behind the point; those that are left out count for nothing. -/
def withFraction (m : Mantissa) (fraction : List Nat) : Mantissa :=
  let (n, taken) := append m.significand fraction
  ⟨m.negative, n, m.exponent - taken⟩

/-- The number with one more exponent. -/
def scaled (m : Mantissa) (exponent : Int) (rest : Bytes) : Except Failure (JsonNumber × Bytes) :=
  match scaleByTen m.negative m.significand (m.exponent + exponent) with
  | some x => .ok (.double x, rest)
  | none => fail .numberOutOfRange rest

end Mantissa

def maxExponent : Nat := 0x7FFFFFFF

/-- The number of digits up to the first that takes the value beyond `maxExponent`. -/
def digitsToOverflow : Nat → List Nat → Nat
  | _, [] => 0
  | n, d :: ds => if 10 * n + d > maxExponent then 1 else digitsToOverflow (10 * n + d) ds + 1

/-- An exponent behind its `e`. One too large for a word of 32 bits is out of range at the
digit that shows it, unless the number is zero or the exponent negative. -/
def exponent (m : Mantissa) (bytes : Bytes) : Except Failure (JsonNumber × Bytes) :=
  let (negative, bytes) := match bytes with
    | b :: rest =>
      if b = byte '+' then (false, rest) else if b = byte '-' then (true, rest) else (false, bytes)
    | [] => (false, [])
  match bytes with
  | [] => fail .eofInValue []
  | b :: rest =>
    if isDigit b then
      let (es, after) := digits bytes
      let n := ofDigits 10 es
      if n > maxExponent && m.significand != 0 && !negative then
        fail .numberOutOfRange (bytes.drop (digitsToOverflow 0 es))
      else m.scaled (if negative then -(n : Int) else n) after
    else fail .invalidNumber rest

/-- What may stand behind the digits: an exponent or nothing. -/
def afterDigits (m : Mantissa) (bytes : Bytes) : Except Failure (JsonNumber × Bytes) :=
  match bytes with
  | b :: rest =>
    if b = byte 'e' ∨ b = byte 'E' then exponent m rest else m.scaled 0 bytes
  | [] => m.scaled 0 []

/-- A literal without fraction and exponent. It is an integer if a word holds it, except
that zero with a sign is none. -/
def integer (m : Mantissa) (bytes : Bytes) : Except Failure (JsonNumber × Bytes) :=
  let value : Int := if m.negative then -(m.significand : Int) else m.significand
  if m.exponent = 0 ∧ ¬(m.negative ∧ m.significand = 0) then
    match Word.ofInt? value with
    | some w => .ok (.word w, bytes)
    | none => m.scaled 0 bytes
  else m.scaled 0 bytes

def afterWhole (m : Mantissa) (bytes : Bytes) : Except Failure (JsonNumber × Bytes) :=
  match bytes with
  | [] => integer m []
  | b :: rest =>
    if b = byte '.' then
      match digits rest with
      | ([], []) => fail .eofInValue []
      | ([], after) => failPast .invalidNumber after
      | (fraction, after) => afterDigits (m.withFraction fraction) after
    else if b = byte 'e' ∨ b = byte 'E' then exponent m rest
    else integer m (b :: rest)

def number (negative : Bool) : Bytes → Except Failure (JsonNumber × Bytes)
  | [] => fail .eofInValue []
  | b :: rest =>
    if b = byte '0' then
      match rest with
      | c :: _ =>
        if isDigit c then failPast .invalidNumber rest else afterWhole (.ofWhole negative [0]) rest
      | [] => afterWhole (.ofWhole negative [0]) []
    else if isDigit b then
      let (whole, after) := digits (b :: rest)
      afterWhole (.ofWhole negative whole) after
    else fail .invalidNumber rest

/-- The rest of a word such as `null` behind its first letter. -/
def ident : List Char → Bytes → Except Failure (Unit × Bytes)
  | [], rest => .ok ((), rest)
  | _ :: _, [] => fail .eofInValue []
  | c :: cs, b :: rest => if b = byte c then ident cs rest else fail .expectedIdent rest

end SchemaByExample.Literal
