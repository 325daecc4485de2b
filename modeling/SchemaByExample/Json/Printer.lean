import SchemaByExample.Json.Basic

/-! JSON text. One printer serves every layout: a layout says what stands at the start of
a line at each depth, and what separates a name from its value. -/
namespace SchemaByExample

open Number

namespace Json

def hexPair (n : Nat) : List Char := [Nat.digitChar (n / 16), Nat.digitChar (n % 16)]

/-- A quote, a backslash and the control characters are escaped, all else stands for
itself. -/
def escapeChar (c : Char) : List Char :=
  if c = '"' then ['\\', '"']
  else if c = '\\' then ['\\', '\\']
  else if c = '\n' then ['\\', 'n']
  else if c = '\t' then ['\\', 't']
  else if c = '\r' then ['\\', 'r']
  else if c = '\x08' then ['\\', 'b']
  else if c = '\x0c' then ['\\', 'f']
  else if c.toNat < 32 then '\\' :: 'u' :: '0' :: '0' :: hexPair c.toNat
  else [c]

def quote (s : String) : List Char := '"' :: s.toList.flatMap escapeChar ++ ['"']

def intChars (n : Int) : List Char :=
  if n < 0 then '-' :: Nat.toDigits 10 n.natAbs else Nat.toDigits 10 n.natAbs

def numberChars : JsonNumber → List Char
  | .word n => intChars n.value
  | .double x => x.text.toList

structure Spacing where
  line : Nat → List Char
  colon : List Char

namespace Spacing

def compact : Spacing := ⟨fun _ => [], [':']⟩

/-- Two blanks for each container around the line. -/
def pretty : Spacing := ⟨fun d => '\n' :: List.replicate (2 * d) ' ', [':', ' ']⟩

end Spacing

mutual

def render (sp : Spacing) (d : Nat) : Json → List Char
  | .null => "null".toList
  | .bool true => "true".toList
  | .bool false => "false".toList
  | .number n => numberChars n
  | .string s => quote s
  | .array [] => ['[', ']']
  | .array (v :: rest) =>
    '[' :: sp.line (d + 1) ++ render sp (d + 1) v ++ renderItems sp d rest ++ sp.line d ++ [']']
  | .object [] => ['{', '}']
  | .object ((k, v) :: rest) =>
    '{' :: sp.line (d + 1) ++ quote k ++ sp.colon ++ render sp (d + 1) v ++
      renderMembers sp d rest ++ sp.line d ++ ['}']

/-- The items after the first, each behind a comma. -/
def renderItems (sp : Spacing) (d : Nat) : List Json → List Char
  | [] => []
  | v :: rest => ',' :: sp.line (d + 1) ++ render sp (d + 1) v ++ renderItems sp d rest

def renderMembers (sp : Spacing) (d : Nat) : List (String × Json) → List Char
  | [] => []
  | (k, v) :: rest =>
    ',' :: sp.line (d + 1) ++ quote k ++ sp.colon ++ render sp (d + 1) v ++
      renderMembers sp d rest

end

def compact (v : Json) : String := String.ofList (render .compact 0 v)

def pretty (v : Json) : String := String.ofList (render .pretty 0 v)

end Json

end SchemaByExample
