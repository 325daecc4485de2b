import SchemaByExample.Text.Escape
import SchemaByExample.Text.Quoted
import SchemaByExample.Text.Split
import SchemaByExample.Text.Utf8

/-! Cutting the text of a filter into tokens. A bracketed part is one token that holds the
tokens inside it, the closing bracket last; so brackets are known to match before anything
else is read. Cutting goes on after an error, and all errors are kept. -/
namespace SchemaByExample.Filter

mutual

inductive Token where
  | word (text : String)
  | binding (text : String)
  | format (text : String)
  | number (text : String)
  | string (text : String) (pieces : List Piece)
  | symbol (text : String)
  | block (text : String) (inner : List Token)

/-- A piece of a string is text or the tokens of a term in parentheses. -/
inductive Piece where
  | text (s : String)
  | term (inner : List Token)

end

namespace Token

def text : Token → String
  | .word t => t
  | .binding t => t
  | .format t => t
  | .number t => t
  | .string t _ => t
  | .symbol t => t
  | .block t _ => t

/-- The name of the module before the two colons of a name, if it has them. -/
def module? : List Char → Option (List Char)
  | ':' :: ':' :: _ => some []
  | c :: cs => (module? cs).map (c :: ·)
  | [] => none

/-- Whether a name stands in no module. -/
def isPlain (name : String) : Bool := (module? name.toList).isNone

/-- What the text lacks where an error shows. -/
inductive Lack where
  | digit
  | name
  | closing (opening : Char)
  | escape
  | unicode
  | token

namespace Lack

def shown : Lack → String
  | .digit => "Digit"
  | .name => "Ident"
  | .closing opening => "Delim(" ++ Quoted.text opening.toString ++ ")"
  | .escape => "Escape"
  | .unicode => "Unicode"
  | .token => "Token"

end Lack

structure Error where
  lack : Lack
  left : List Char

/-- What is read from the front of a text, with the errors in it and what is left. -/
structure Cut (α : Type) where
  result : α
  errors : List Error
  left : List Char

namespace Cut

variable {α β : Type}

def map (f : α → β) (c : Cut α) : Cut β := ⟨f c.result, c.errors, c.left⟩

end Cut

def isNameStart (c : Char) : Bool := c.isAlpha || c == '_'

def isNamePart (c : Char) : Bool := c.isAlphanum || c == '_'

def isOperator (c : Char) : Bool := "|=!<>+-*/%".toList.contains c

/-- Skips a comment, up to the end of its line; a backslash that stands there, and is not
itself behind another, continues the comment on the next line. -/
def skipComment : List Char → List Char
  | '\\' :: '\r' :: '\n' :: rest => skipComment rest
  | '\\' :: _ :: rest => skipComment rest
  | '\n' :: rest => rest
  | _ :: rest => skipComment rest
  | [] => []

def skip : Nat → List Char → List Char
  | 0, cs => cs
  | fuel + 1, cs =>
    match cs.dropWhile Text.isWhiteSpace with
    | '#' :: rest => skip fuel (skipComment rest)
    | rest => rest

def skipBlank (cs : List Char) : List Char := skip cs.length cs

/-- The text between two ends of one text. -/
def between (start left : List Char) : String :=
  String.ofList (start.take (start.length - left.length))

/-- Skips one or more characters of a class, or notes what is lacking. -/
def need (lack : Lack) (isFirst isNext : Char → Bool) (cs : List Char) : Cut Unit :=
  match cs with
  | c :: rest =>
    if isFirst c then ⟨(), [], rest.dropWhile isNext⟩ else ⟨(), [⟨lack, c :: rest⟩], c :: rest⟩
  | [] => ⟨(), [⟨lack, []⟩], []⟩

def name (cs : List Char) : Cut Unit := need .name isNameStart isNamePart cs

/-- A name, that may stand in a module and then be that of a binding or a format. -/
def qualifiedName (cs : List Char) : Cut Unit :=
  let first := name cs
  match first.left with
  | ':' :: ':' :: rest =>
    let second := match rest with
      | '$' :: rest => name rest
      | '@' :: rest => name rest
      | _ => name rest
    ⟨(), first.errors ++ second.errors, second.left⟩
  | _ => first

/-- What follows an operator, behind its first character. A minus sign stands for itself
behind other signs. -/
def operatorTail (cs : List Char) : List Char := cs.dropWhile fun c => isOperator c && c != '-'

def digits (cs : List Char) : Cut Unit := need .digit Char.isDigit Char.isDigit cs

def exponent (cs : List Char) : Cut Unit :=
  match cs with
  | 'e' :: rest | 'E' :: rest =>
    match rest with
    | '+' :: rest | '-' :: rest => digits rest
    | _ => digits rest
  | _ => ⟨(), [], cs⟩

def numberTail (cs : List Char) : Cut Unit :=
  let cs := cs.dropWhile Char.isDigit
  let fraction := match cs with
    | '.' :: rest => digits rest
    | _ => ⟨(), [], cs⟩
  let e := exponent fraction.left
  ⟨(), fraction.errors ++ e.errors, e.left⟩

/-- Two dots, a dot with a name, or a dot, behind its first dot. -/
def dotTail : List Char → List Char
  | '.' :: rest => rest
  | c :: rest => if isNameStart c then rest.dropWhile isNamePart else c :: rest
  | [] => []

/-- The value of four hexadecimal digits, or what is left where one is missing. -/
def fourDigits : Nat → Nat → List Char → Except (List Char) (Nat × List Char)
  | 0, n, cs => .ok (n, cs)
  | _ + 1, _, [] => .error []
  | k + 1, n, c :: cs =>
    match Text.hexDigit? c with
    | some d => fourDigits k (16 * n + d) cs
    | none => .error (c :: cs)

/-- The character of a `\u` escape, which is no surrogate. -/
def unicodeEscape (cs : List Char) : Cut (Option Char) :=
  match fourDigits 4 0 cs with
  | .error left => ⟨none, [⟨.unicode, left⟩], left⟩
  | .ok (n, rest) =>
    match Utf8.char? n with
    | some c => ⟨some c, [], rest⟩
    | none => ⟨none, [⟨.unicode, cs⟩], cs⟩

/-- Adds a character to the text at the front of the pieces. -/
def addChar (c : Char) : List Piece → List Piece
  | .text s :: rest => .text (c.toString ++ s) :: rest
  | rest => .text c.toString :: rest

def addChar? (c : Option Char) (pieces : List Piece) : List Piece :=
  match c with
  | some c => addChar c pieces
  | none => pieces

def closingOf (opening : Char) : Char :=
  if opening = '(' then ')' else if opening = '[' then ']' else '\x7d'

mutual

/-- The tokens at the front, up to something that is none. -/
def cutAll : Nat → List Char → Cut (List Token)
  | 0, cs => ⟨[], [], cs⟩
  | fuel + 1, cs =>
    match cut? fuel (skipBlank cs) with
    | none => ⟨[], [], cs⟩
    | some t =>
      let more := cutAll fuel t.left
      ⟨t.result :: more.result, t.errors ++ more.errors, more.left⟩

def cut? : Nat → List Char → Option (Cut Token)
  | 0, _ => none
  | _ + 1, [] => none
  | fuel + 1, c :: rest =>
    let start := c :: rest
    let made (make : String → Token) (tail : Cut Unit) : Option (Cut Token) :=
      some (tail.map fun _ => make (between start tail.left))
    if isNameStart c then made .word (qualifiedName start)
    else if c = '$' then made .binding (name rest)
    else if c = '@' then made .format (name rest)
    else if c.isDigit then made .number (numberTail rest)
    else if isOperator c then made .symbol ⟨(), [], operatorTail rest⟩
    else if c = '.' then made .symbol ⟨(), [], dotTail rest⟩
    else if c = ':' ∨ c = ';' ∨ c = ',' ∨ c = '?' then made .symbol ⟨(), [], rest⟩
    else if c = '"' then
      let pieces := cutString fuel rest
      some (pieces.map fun ps => .string (between start pieces.left) ps)
    else if c = '(' ∨ c = '[' ∨ c = '\x7b' then
      let inner := cutBlock fuel c rest
      some (inner.map fun ts => .block (between start inner.left) ts)
    else none

/-- The tokens of a bracketed part, behind its opening bracket. -/
def cutBlock : Nat → Char → List Char → Cut (List Token)
  | 0, _, cs => ⟨[], [], cs⟩
  | fuel + 1, opening, cs =>
    let inner := cutAll fuel cs
    match skipBlank inner.left with
    | c :: rest =>
      if c = closingOf opening then
        ⟨inner.result ++ [.symbol c.toString], inner.errors, rest⟩
      else ⟨inner.result, inner.errors ++ [⟨.closing opening, c :: rest⟩], c :: rest⟩
    | [] => ⟨inner.result, inner.errors ++ [⟨.closing opening, []⟩], []⟩

/-- The pieces of a string, behind its opening quote. -/
def cutString : Nat → List Char → Cut (List Piece)
  | 0, cs => ⟨[], [], cs⟩
  | _ + 1, [] => ⟨[], [⟨.closing '"', []⟩], []⟩
  | fuel + 1, c :: rest =>
    if c = '"' then ⟨[], [], rest⟩
    else if c = '\\' then
      match rest with
      | '(' :: rest =>
        let inner := cutBlock fuel '(' rest
        let more := cutString fuel inner.left
        ⟨.term inner.result :: more.result, inner.errors ++ more.errors, more.left⟩
      | 'u' :: rest =>
        let escaped := unicodeEscape rest
        let more := cutString fuel escaped.left
        ⟨addChar? escaped.result more.result, escaped.errors ++ more.errors, more.left⟩
      | e :: rest =>
        match Text.escaped? e with
        | some x => (cutString fuel rest).map (addChar x)
        | none =>
          let more := cutString fuel (e :: rest)
          ⟨more.result, ⟨.escape, e :: rest⟩ :: more.errors, more.left⟩
      | [] =>
        let more := cutString fuel []
        ⟨more.result, ⟨.escape, []⟩ :: more.errors, more.left⟩
    else (cutString fuel rest).map (addChar c)

end

/-- The tokens of a whole text. A step of the four functions that are cut from one another
takes a character every third time. -/
def ofText (source : String) : Except (List Error) (List Token) :=
  let cs := source.toList
  let all := cutAll (4 * cs.length + 4) cs
  let errors := match skipBlank all.left with
    | [] => all.errors
    | left => all.errors ++ [⟨.token, left⟩]
  if errors.isEmpty then .ok all.result else .error errors

namespace Error

def shown (e : Error) : String :=
  "(" ++ e.lack.shown ++ ", " ++ Quoted.text (String.ofList e.left) ++ ")"

end Error

end Token

end SchemaByExample.Filter
