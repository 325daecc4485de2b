import SchemaByExample.Filter.Selector
import SchemaByExample.Text.Escape
import SchemaByExample.Text.Utf8

/-! Reading JSON text inside a filter. Numbers keep their text unless they are integers that a
signed word holds, and containers may nest as deep as the text goes. -/
namespace SchemaByExample.Filter.JsonText

inductive Lack where
  | value
  | valueOrEnd
  | commaOrEnd
  | string
  | colon
  | endOfText
  | digit
  | closingQuote
  | noControl
  | escape
  | escapeEnd
  | hexadecimal
  | lowSurrogate
  | character (code : Nat)
  deriving DecidableEq

namespace Lack

def message : Lack → String
  | .value => "value expected"
  | .valueOrEnd => "value or end of sequence expected"
  | .commaOrEnd => "comma or end of sequence expected"
  | .string => "string expected"
  | .colon => "colon expected"
  | .endOfText => "end of file expected"
  | .digit => "expected digit"
  | .closingQuote => "unterminated string"
  | .noControl => "invalid string control character"
  | .escape => "unknown escape sequence type"
  | .escapeEnd => "unterminated escape sequence"
  | .hexadecimal => "invalid hexadecimal sequence"
  | .lowSurrogate => "expected low surrogate"
  | .character code => "invalid character with index " ++ toString code

end Lack

def isBlank (c : Char) : Bool := c == ' ' || c == '\t' || c == '\n' || c == '\r'

def skipBlanks (cs : List Char) : List Char := cs.dropWhile isBlank

/-- The digits at the front, of which there has to be one. -/
def digits (cs : List Char) : Except Lack (List Char × List Char) :=
  match cs.takeWhile Char.isDigit with
  | [] => .error .digit
  | ds => .ok (ds, cs.dropWhile Char.isDigit)

/-- The digits before the point; behind a zero there is none. -/
def whole : List Char → Except Lack (List Char × List Char)
  | '0' :: rest => .ok (['0'], rest)
  | cs => digits cs

def fraction : List Char → Except Lack (List Char × List Char)
  | '.' :: rest => (digits rest).map fun r => ('.' :: r.1, r.2)
  | cs => .ok ([], cs)

def exponent (cs : List Char) : Except Lack (List Char × List Char) :=
  match cs with
  | e :: rest =>
    if e = 'e' ∨ e = 'E' then
      match rest with
      | '+' :: rest => (digits rest).map fun r => (e :: '+' :: r.1, r.2)
      | '-' :: rest => (digits rest).map fun r => (e :: '-' :: r.1, r.2)
      | _ => (digits rest).map fun r => (e :: r.1, r.2)
    else .ok ([], cs)
  | [] => .ok ([], [])

/-- The number that digits write: an integer if a signed word holds it. -/
def ofDigits (negative : Bool) (digits : String) : Value :=
  let n : Int := digits.toNat?.getD 0
  let n := if negative then -n else n
  if Value.leastInt ≤ n ∧ n ≤ Value.greatestInt then .ofInt n
  else .literal (if negative then "-" ++ digits else digits)

def number (negative : Bool) (cs : List Char) : Except Lack (Value × List Char) := do
  let (w, rest) ← whole cs
  let (f, rest) ← fraction rest
  let (e, rest) ← exponent rest
  if f.isEmpty && e.isEmpty then return (ofDigits negative (String.ofList w), rest)
  else
    let text := String.ofList (w ++ f ++ e)
    return (.literal (if negative then "-" ++ text else text), rest)

def hexCode : Nat → Nat → List Char → Except Lack (Nat × List Char)
  | 0, n, cs => .ok (n, cs)
  | _ + 1, _, [] => .error .escapeEnd
  | k + 1, n, c :: cs =>
    match Text.hexDigit? c with
    | some d => hexCode k (16 * n + d) cs
    | none => .error .hexadecimal

/-- The character of a `\u` escape, of two for a surrogate pair. -/
def unicodeEscape (cs : List Char) : Except Lack (Char × List Char) := do
  let (n, rest) ← hexCode 4 0 cs
  if Text.isHighSurrogate n then
    match rest with
    | '\\' :: 'u' :: rest =>
      let (low, rest) ← hexCode 4 0 rest
      if Text.isLowSurrogate low then return (Char.ofNat (Text.surrogatePair n low), rest)
      else throw .lowSurrogate
    | _ => throw .lowSurrogate
  else
    match Utf8.char? n with
    | some c => return (c, rest)
    | none => throw (.character n)

def escape : List Char → Except Lack (Char × List Char)
  | [] => .error .escapeEnd
  | 'u' :: rest => unicodeEscape rest
  | e :: rest =>
    match Text.escaped? e with
    | some c => .ok (c, rest)
    | none => .error .escape

/-- The characters of a string literal behind its opening quote. -/
def characters : Nat → List Char → Except Lack (List Char × List Char)
  | 0, _ => .error .closingQuote
  | _ + 1, [] => .error .closingQuote
  | fuel + 1, c :: rest =>
    if c = '"' then .ok ([], rest)
    else if c = '\\' then do
      let (x, rest) ← escape rest
      let (xs, rest) ← characters fuel rest
      return (x :: xs, rest)
    else if c.toNat < 32 then .error .noControl
    else (characters fuel rest).map fun r => (c :: r.1, r.2)

def string (cs : List Char) : Except Lack (String × List Char) :=
  (characters (cs.length + 1) cs).map fun r => (String.ofList r.1, r.2)

/-- What follows a word that stands at the front. -/
def word (rest : List Char) (cs : List Char) (v : Value) : Except Lack (Value × List Char) :=
  if rest.isPrefixOf cs then .ok (v, cs.drop rest.length) else .error .value

mutual

/-- A value, with no blanks before it. -/
def value : Nat → List Char → Except Lack (Value × List Char)
  | 0, _ => .error .value
  | _ + 1, [] => .error .value
  | fuel + 1, c :: rest =>
    if c = 'n' then word ['u', 'l', 'l'] rest .null
    else if c = 't' then word ['r', 'u', 'e'] rest (.bool true)
    else if c = 'f' then word ['a', 'l', 's', 'e'] rest (.bool false)
    else if c = '-' then number true rest
    else if c.isDigit then number false (c :: rest)
    else if c = '"' then (string rest).map fun r => (.string r.1, r.2)
    else if c = '[' then
      match skipBlanks rest with
      | [] => .error .valueOrEnd
      | ']' :: rest => .ok (.array [], rest)
      | cs => (items fuel cs).map fun r => (.array r.1, r.2)
    else if c = '\x7b' then
      match skipBlanks rest with
      | [] => .error .valueOrEnd
      | '\x7d' :: rest => .ok (.object [], rest)
      | cs => (members fuel [] cs).map fun r => (.object r.1, r.2)
    else .error .value

def items : Nat → List Char → Except Lack (List Value × List Char)
  | 0, _ => .error .value
  | fuel + 1, cs => do
    let (v, rest) ← value fuel cs
    match skipBlanks rest with
    | ']' :: rest => return ([v], rest)
    | ',' :: rest =>
      let (vs, rest) ← items fuel (skipBlanks rest)
      return (v :: vs, rest)
    | _ => throw .commaOrEnd

/-- The members of an object up to its closing bracket, put into those before them. -/
def members : Nat → Members Value → List Char → Except Lack (Members Value × List Char)
  | 0, _, _ => .error .value
  | _ + 1, _, [] => .error .value
  | fuel + 1, before, c :: rest => do
    if c ≠ '"' then throw .string
    let (k, rest) ← string rest
    match skipBlanks rest with
    | ':' :: rest =>
      let (v, rest) ← value fuel (skipBlanks rest)
      let sofar := Members.insert k v before
      match skipBlanks rest with
      | '\x7d' :: rest => return (sofar, rest)
      | ',' :: rest => members fuel sofar (skipBlanks rest)
      | _ => throw .commaOrEnd
    | _ => throw .colon

end

def read (cs : List Char) : Except Lack Value := do
  let (v, rest) ← value (2 * cs.length + 1) (skipBlanks cs)
  match skipBlanks rest with
  | [] => return v
  | _ => throw .endOfText

def ofText (s : String) : Except Fault Value :=
  (read s.toList).mapError fun lack =>
    .ofText ("cannot parse " ++ s ++ " as JSON: " ++ lack.message)

end SchemaByExample.Filter.JsonText
