import SchemaByExample.Json.Basic
import SchemaByExample.Text.Split

/-! Pointers to a part of a document: names and places behind slashes. In a name `~1` stands
for a slash and `~0` for a tilde. -/
namespace SchemaByExample.Pointer

/-- Replaces each `~` that a given character follows. -/
def unescapeOne (mark value : Char) : List Char → List Char
  | '~' :: c :: rest =>
    if c = mark then value :: unescapeOne mark value rest
    else '~' :: unescapeOne mark value (c :: rest)
  | c :: rest => c :: unescapeOne mark value rest
  | [] => []

def unescape (token : List Char) : List Char := unescapeOne '0' '~' (unescapeOne '1' '/' token)

/-- A place is written in digits, without a sign and without zeros in front. -/
def place? (token : List Char) : Option Nat :=
  match token with
  | [] => none
  | ['0'] => some 0
  | c :: rest =>
    if c ≠ '0' ∧ (c :: rest).all Char.isDigit then
      some (Number.ofDigits 10 ((c :: rest).map fun d => d.toNat - 48))
    else none

def follow : List (List Char) → Json → Option Json
  | [], v => some v
  | token :: rest, .object members => do
    let v ← Members.find? (String.ofList (unescape token)) members
    follow rest v
  | token :: rest, .array items => do
    let v ← items[← place? (unescape token)]?
    follow rest v
  | _ :: _, _ => none

/-- The part of a document that a pointer names; the empty pointer names the whole. -/
def resolve (pointer : String) (v : Json) : Option Json :=
  match pointer.toList with
  | [] => some v
  | '/' :: tokens => follow (Text.split '/' tokens) v
  | _ => none

end SchemaByExample.Pointer
