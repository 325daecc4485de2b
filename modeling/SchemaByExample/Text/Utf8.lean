/-! UTF-8, one character at a time. -/
namespace SchemaByExample.Utf8

def encode (cs : List Char) : List UInt8 := cs.flatMap String.utf8EncodeChar

/-- The character with a code, if there is one: surrogates and codes beyond U+10FFFF are
none. -/
def char? (n : Nat) : Option Char := if h : n.isValidChar then some (Char.ofNatAux n h) else none

/-- The six bits of a continuation byte. -/
def tail? (b : UInt8) : Option Nat :=
  if 0x80 ≤ b.toNat ∧ b.toNat < 0xC0 then some (b.toNat - 0x80) else none

/-- The character at the front and the bytes behind it. Each character has one encoding:
the longer ones are refused, and so are surrogates. -/
def decodeChar : List UInt8 → Option (Char × List UInt8)
  | [] => none
  | a :: rest =>
    let a := a.toNat
    if a < 0x80 then (char? a).map (·, rest)
    else if 0xC2 ≤ a ∧ a < 0xE0 then
      match rest with
      | b :: rest => do
        let n := (a - 0xC0) * 64 + (← tail? b)
        (char? n).map (·, rest)
      | _ => none
    else if 0xE0 ≤ a ∧ a < 0xF0 then
      match rest with
      | b :: c :: rest => do
        let n := ((a - 0xE0) * 64 + (← tail? b)) * 64 + (← tail? c)
        if 0x800 ≤ n then (char? n).map (·, rest) else none
      | _ => none
    else if 0xF0 ≤ a ∧ a < 0xF5 then
      match rest with
      | b :: c :: d :: rest => do
        let n := (((a - 0xF0) * 64 + (← tail? b)) * 64 + (← tail? c)) * 64 + (← tail? d)
        if 0x10000 ≤ n then (char? n).map (·, rest) else none
      | _ => none
    else none

def decodeAll : Nat → List UInt8 → Option (List Char)
  | _, [] => some []
  | 0, _ :: _ => none
  | fuel + 1, bytes => do
    let (c, rest) ← decodeChar bytes
    return c :: (← decodeAll fuel rest)

/-- The text that the bytes encode, if they are UTF-8. -/
def decode (bytes : List UInt8) : Option String :=
  (decodeAll bytes.length bytes).map String.ofList

/-- The numbers that the byte behind a first byte may have: those that would make a longer
encoding than needed, a surrogate or a code that is too large are left out. -/
def secondRange (first : Nat) : Nat × Nat :=
  if first = 0xE0 then (0xA0, 0xC0)
  else if first = 0xED then (0x80, 0xA0)
  else if first = 0xF0 then (0x90, 0xC0)
  else if first = 0xF4 then (0x80, 0x90)
  else (0x80, 0xC0)

/-- How many bytes a first byte begins, of those that are not one character by themselves. -/
def width (first : Nat) : Nat :=
  if 0xC2 ≤ first ∧ first < 0xE0 then 2
  else if 0xE0 ≤ first ∧ first < 0xF0 then 3
  else if 0xF0 ≤ first ∧ first < 0xF5 then 4
  else 1

/-- The number of bytes at the front, where no character stands, that do not go with what
follows; `none` if more bytes could still make a character. -/
def strayBytes : List UInt8 → Option Nat
  | [] => none
  | a :: rest =>
    let a := a.toNat
    match width a, rest with
    | 0, _ | 1, _ => some 1
    | _, [] => none
    | n, b :: more =>
      let (low, high) := secondRange a
      if b.toNat < low ∨ high ≤ b.toNat then some 1
      else
        let tails := (more.take (n - 2)).takeWhile fun b => (tail? b).isSome
        if tails.length < min (n - 2) more.length then some (2 + tails.length) else none

def undecodedIn : Nat → List UInt8 → List UInt8
  | 0, bytes => bytes
  | fuel + 1, bytes =>
    match decodeChar bytes with
    | some (_, rest) => undecodedIn fuel rest
    | none => bytes

/-- The bytes from the first on at which no character stands. -/
def undecoded (bytes : List UInt8) : List UInt8 := undecodedIn bytes.length bytes

/-- Where the bytes stop being UTF-8: the index, and the number of stray bytes there. -/
def fault? (bytes : List UInt8) : Option (Nat × Option Nat) :=
  match undecoded bytes with
  | [] => none
  | rest => some (bytes.length - rest.length, strayBytes rest)

def faultText (index : Nat) : Option Nat → String
  | some n =>
    "invalid utf-8 sequence of " ++ toString n ++ " bytes from index " ++ toString index
  | none => "incomplete utf-8 byte sequence from index " ++ toString index

/-- The text that the bytes encode, or what is wrong with them. -/
def decodeOr (bytes : List UInt8) : Except String String :=
  match fault? bytes, decode bytes with
  | none, some s => .ok s
  | some (i, n), _ => .error (faultText i n)
  | none, none => .error (faultText 0 none)

def ofString (s : String) : List UInt8 := encode s.toList

end SchemaByExample.Utf8
