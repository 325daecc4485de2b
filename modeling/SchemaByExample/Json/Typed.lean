import SchemaByExample.Json.Reader

/-! Readers of values of one type, for records that a text has to match. -/
namespace SchemaByExample.Typed

open Read Literal

variable {α : Type}

/-- Refuses the value at the front. A scalar is read first, so that its own faults show and
the message can say what it is. -/
def refuse (expected : String) (bytes : Bytes) : Except Failure α :=
  match skipBlanks bytes with
  | [] => fail .eofInValue []
  | b :: rest =>
    let wrong (found : Found) (rest : Bytes) : Except Failure α :=
      fail (.invalidType found expected) rest
    let wrongNumber (n : JsonNumber) (rest : Bytes) : Except Failure α :=
      match n with
      | .word n => wrong (.integer n.value) rest
      | .double x => wrong (.float x) rest
    if b = byte 'n' then do
      let ((), rest) ← ident ['u', 'l', 'l'] rest
      wrong .null rest
    else if b = byte 't' then do
      let ((), rest) ← ident ['r', 'u', 'e'] rest
      wrong (.bool true) rest
    else if b = byte 'f' then do
      let ((), rest) ← ident ['a', 'l', 's', 'e'] rest
      wrong (.bool false) rest
    else if b = byte '-' then do
      let (n, rest) ← Literal.number true rest
      wrongNumber n rest
    else if isDigit b then do
      let (n, rest) ← Literal.number false (b :: rest)
      wrongNumber n rest
    else if b = byte '"' then do
      let (s, rest) ← Literal.string rest
      wrong (.string s) rest
    else if b = byte '[' then wrong .sequence (b :: rest)
    else if b = byte '\x7b' then wrong .map (b :: rest)
    else failPast .expectedValue (b :: rest)

/-- Null stands for an absent value. -/
def optional (value : Bytes → Except Failure (α × Bytes)) (bytes : Bytes) :
    Except Failure (Option α × Bytes) :=
  match skipBlanks bytes with
  | b :: rest =>
    if b = byte 'n' then do
      let ((), rest) ← ident ['u', 'l', 'l'] rest
      .ok (none, rest)
    else do
      let (v, rest) ← value (b :: rest)
      .ok (some v, rest)
  | [] => fail .eofInValue []

def null (bytes : Bytes) : Except Failure (Unit × Bytes) :=
  match skipBlanks bytes with
  | b :: rest => if b = byte 'n' then ident ['u', 'l', 'l'] rest else refuse "unit" (b :: rest)
  | [] => fail .eofInValue []

def string (expected : String) (bytes : Bytes) : Except Failure (String × Bytes) :=
  match skipBlanks bytes with
  | b :: rest => if b = byte '"' then Literal.string rest else refuse expected (b :: rest)
  | [] => fail .eofInValue []

def bool (bytes : Bytes) : Except Failure (Bool × Bytes) :=
  match skipBlanks bytes with
  | b :: rest =>
    if b = byte 't' then do
      let ((), rest) ← ident ['r', 'u', 'e'] rest
      .ok (true, rest)
    else if b = byte 'f' then do
      let ((), rest) ← ident ['a', 'l', 's', 'e'] rest
      .ok (false, rest)
    else refuse "a boolean" (b :: rest)
  | [] => fail .eofInValue []

/-- A number has to be an integer, and one of 32 bits. -/
def checkNatural (n : JsonNumber) (rest : Bytes) : Except Failure (UInt32 × Bytes) :=
  match n with
  | .word n =>
    if 0 ≤ n.value ∧ n.value < 0x100000000 then .ok (n.value.toNat.toUInt32, rest)
    else fail (.invalidValue n.value "u32") rest
  | .double x => fail (.invalidType (.float x) "u32") rest

def natural (bytes : Bytes) : Except Failure (UInt32 × Bytes) :=
  match skipBlanks bytes with
  | b :: rest =>
    if b = byte '-' then do
      let (n, rest) ← Literal.number true rest
      checkNatural n rest
    else if isDigit b then do
      let (n, rest) ← Literal.number false (b :: rest)
      checkNatural n rest
    else refuse "u32" (b :: rest)
  | [] => fail .eofInValue []

/-- Enters a container that opens with the given bracket, if the budget allows it. -/
def enter (bracket : Char) (expected : String) (budget : Nat) (bytes : Bytes)
    (inner : Nat → Bytes → Except Failure (α × Bytes)) : Except Failure (α × Bytes) :=
  match skipBlanks bytes with
  | b :: rest =>
    if b = byte bracket then
      match budget with
      | 0 => failPast .recursionLimit (b :: rest)
      | budget + 1 => inner budget rest
    else refuse expected (b :: rest)
  | [] => fail .eofInValue []

end SchemaByExample.Typed
