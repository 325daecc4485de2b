import SchemaByExample.Json.Literal

/-! Reading documents. The loops over the items of an array and the members of an object
are shared by every reader of JSON text, whatever it makes of the values. -/
namespace SchemaByExample

open Read Literal

def isBlank (b : UInt8) : Bool := b == 32 || b == 10 || b == 9 || b == 13

def skipBlanks (bytes : Bytes) : Bytes := bytes.dropWhile isBlank

/-- The number of containers that a text may nest. -/
def maxDepth : Nat := 127

namespace Read

variable {α : Type}

/-- Whether another item of an array follows, at its first byte, or the end, at the closing
bracket. -/
def nextItem (first : Bool) (bytes : Bytes) : Except Failure (Bool × Bytes) :=
  match skipBlanks bytes with
  | [] => fail .eofInList []
  | b :: rest =>
    if b = byte ']' then .ok (false, b :: rest)
    else if first then .ok (true, b :: rest)
    else if b = byte ',' then
      match skipBlanks rest with
      | [] => fail .eofInValue []
      | c :: rest =>
        if c = byte ']' then failPast .trailingComma (c :: rest) else .ok (true, c :: rest)
    else failPast .expectedListEnd (b :: rest)

/-- Whether another member of an object follows, at its opening quote, or the end, at the
closing brace. -/
def nextMember (first : Bool) (bytes : Bytes) : Except Failure (Bool × Bytes) :=
  match skipBlanks bytes with
  | [] => fail .eofInObject []
  | b :: rest =>
    if b = byte '\x7d' then .ok (false, b :: rest)
    else if first then
      if b = byte '"' then .ok (true, b :: rest) else failPast .keyNotString (b :: rest)
    else if b = byte ',' then
      match skipBlanks rest with
      | [] => fail .eofInValue []
      | c :: rest =>
        if c = byte '"' then .ok (true, c :: rest)
        else if c = byte '\x7d' then failPast .trailingComma (c :: rest)
        else failPast .keyNotString (c :: rest)
    else failPast .expectedObjectEnd (b :: rest)

/-- The items of an array up to its closing bracket. -/
def items (item : Bytes → Except Failure (α × Bytes)) :
    Nat → Nat → Bool → Bytes → Except Failure (List α × Bytes)
  | 0, _, _, bytes => .ok ([], bytes)
  | fuel + 1, i, first, bytes => do
    let (more, rest) ← nextItem first bytes
    if more then
      let (v, rest) ← inside (.index i) (item rest)
      let (vs, rest) ← items item fuel (i + 1) false rest
      .ok (v :: vs, rest)
    else .ok ([], rest)

def colon (bytes : Bytes) : Except Failure (Unit × Bytes) :=
  match skipBlanks bytes with
  | [] => fail .eofInObject []
  | b :: rest => if b = byte ':' then .ok ((), rest) else failPast .expectedColon (b :: rest)

def nextKey (first : Bool) (bytes : Bytes) : Except Failure (Option String × Bytes) :=
  inside .unknown do
    let (more, rest) ← nextMember first bytes
    if more then
      let (k, rest) ← string (rest.drop 1)
      .ok (some k, rest)
    else .ok (none, rest)

/-- The members of an object up to its closing brace, as they stand. -/
def members (value : Bytes → Except Failure (α × Bytes)) :
    Nat → Bool → Bytes → Except Failure (List (String × α) × Bytes)
  | 0, _, bytes => .ok ([], bytes)
  | fuel + 1, first, bytes => do
    match ← nextKey first bytes with
    | (none, rest) => .ok ([], rest)
    | (some k, rest) =>
      let ((), rest) ← colon rest
      let (v, rest) ← inside (.key k) (value rest)
      let (vs, rest) ← members value fuel false rest
      .ok ((k, v) :: vs, rest)

/-- The closing bracket of an array whose items are read; more of them are too many. -/
def endArray (bytes : Bytes) : Except Failure (Unit × Bytes) :=
  match skipBlanks bytes with
  | [] => fail .eofInList []
  | b :: rest =>
    if b = byte ']' then .ok ((), rest)
    else if b = byte ',' then
      match skipBlanks rest with
      | [] => fail .trailingCharacters []
      | c :: rest =>
        if c = byte ']' then failPast .trailingComma (c :: rest)
        else failPast .trailingCharacters (c :: rest)
    else failPast .trailingCharacters (b :: rest)

/-- The items of an array behind its opening bracket, and the closing one. -/
def array (item : Bytes → Except Failure (α × Bytes)) (bytes : Bytes) :
    Except Failure (List α × Bytes) := do
  let (vs, rest) ← items item (bytes.length + 1) 0 true bytes
  let ((), rest) ← endArray rest
  .ok (vs, rest)

/-- The members of an object behind its opening brace, and the closing one. -/
def object (value : Bytes → Except Failure (α × Bytes)) (bytes : Bytes) :
    Except Failure (Members α × Bytes) := do
  let (vs, rest) ← members value (bytes.length + 1) true bytes
  .ok (Members.ofPairs vs, rest.drop 1)

end Read

namespace Json

/-- Reads a value that may nest `budget` more containers. -/
def read : (budget : Nat) → Bytes → Except Failure (Json × Bytes)
  | budget, bytes =>
    match skipBlanks bytes with
    | [] => fail .eofInValue []
    | b :: rest =>
      if b = byte 'n' then do
        let ((), rest) ← ident ['u', 'l', 'l'] rest
        .ok (.null, rest)
      else if b = byte 't' then do
        let ((), rest) ← ident ['r', 'u', 'e'] rest
        .ok (.bool true, rest)
      else if b = byte 'f' then do
        let ((), rest) ← ident ['a', 'l', 's', 'e'] rest
        .ok (.bool false, rest)
      else if b = byte '-' then do
        let (n, rest) ← Literal.number true rest
        .ok (.number n, rest)
      else if isDigit b then do
        let (n, rest) ← Literal.number false (b :: rest)
        .ok (.number n, rest)
      else if b = byte '"' then do
        let (s, rest) ← Literal.string rest
        .ok (.string s, rest)
      else if b = byte '[' then
        match budget with
        | 0 => failPast .recursionLimit (b :: rest)
        | budget + 1 => do
          let (vs, rest) ← Read.array (read budget) rest
          .ok (.array vs, rest)
      else if b = byte '\x7b' then
        match budget with
        | 0 => failPast .recursionLimit (b :: rest)
        | budget + 1 => do
          let (vs, rest) ← Read.object (read budget) rest
          .ok (.object vs, rest)
      else failPast .expectedValue (b :: rest)

end Json

/-- Reads a whole text: a value, and only blanks around it. -/
def readWhole {α : Type} (value : Bytes → Except Failure (α × Bytes)) (bytes : Bytes) :
    Except ReadError α :=
  let place (left : Nat) := Place.ofPrefix (bytes.take (bytes.length - left))
  match value bytes with
  | .error f => .error ⟨f.cause, some f.path, place f.left⟩
  | .ok (v, rest) =>
    match skipBlanks rest with
    | [] => .ok v
    | _ :: left => .error ⟨.trailingCharacters, none, place left.length⟩

def Json.ofBytes (bytes : Bytes) : Except ReadError Json := readWhole (Json.read maxDepth) bytes

def Json.ofText (text : String) : Except ReadError Json := Json.ofBytes (Utf8.ofString text)

end SchemaByExample
