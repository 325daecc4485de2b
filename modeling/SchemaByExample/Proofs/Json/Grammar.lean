import SchemaByExample.Proofs.Json.IntegerLiteral

/-! The texts of JSON, character by character, and what they denote. -/
namespace SchemaByExample.Json

open Number Literal

/-! Number literals. -/

structure Digits where
  chars : List Char
  ne_nil : chars ≠ []
  digit : ∀ c ∈ chars, c.isDigit = true

namespace Digits

def values (ds : Digits) : List Nat := ds.chars.map digitValue

def number (ds : Digits) : Nat := ofDigits 10 ds.values

end Digits

inductive Sign where
  | absent | plus | minus
  deriving DecidableEq

def Sign.chars : Sign → List Char
  | .absent => []
  | .plus => ['+']
  | .minus => ['-']

structure ExponentPart where
  capital : Bool
  sign : Sign
  digits : Digits

namespace ExponentPart

def mark (e : ExponentPart) : Char := if e.capital then 'E' else 'e'

def chars (e : ExponentPart) : List Char := e.mark :: (e.sign.chars ++ e.digits.chars)

def value (e : ExponentPart) : Int :=
  if e.sign = .minus then -(e.digits.number : Int) else e.digits.number

end ExponentPart

def fractionChars : Option Digits → List Char
  | none => []
  | some ds => '.' :: ds.chars

def exponentChars : Option ExponentPart → List Char
  | none => []
  | some e => e.chars

def exponentValue : Option ExponentPart → Int
  | none => 0
  | some e => e.value

/-- A number literal. The digits before the point do not begin with a zero, unless that is
all there is. -/
structure NumberLiteral where
  negative : Bool
  whole : Digits
  fraction : Option Digits
  exponent : Option ExponentPart
  leading : whole.chars.head? = some '0' → whole.chars = ['0']

namespace NumberLiteral

variable (l : NumberLiteral)

def unsigned : List Char :=
  l.whole.chars ++ (fractionChars l.fraction ++ exponentChars l.exponent)

def chars : List Char := if l.negative then '-' :: l.unsigned else l.unsigned

def decimal : Decimal :=
  .ofParts l.negative l.whole.values (l.fraction.elim [] Digits.values)
    (exponentValue l.exponent)

/-- The leading digits that fit a word, with the decimal exponent of the last of them. -/
def mantissa : Mantissa :=
  match l.fraction with
  | none => .ofWhole l.negative l.whole.values
  | some ds => (Mantissa.ofWhole l.negative l.whole.values).withFraction ds.values

/-- The double for the leading digits, rounded, times or over the rounded power of ten. It is
the nearest double to the number or close to it; nothing if it is beyond all doubles. An
exponent that a word of 32 bits does not hold puts all numbers but zero beyond them. -/
def double? : Option JsonNumber :=
  if maxExponent < exponentValue l.exponent ∧ l.mantissa.significand ≠ 0 then none
  else
    (scaleByTen l.negative l.mantissa.significand
      (l.mantissa.exponent + exponentValue l.exponent)).map .double

def integer : Int := if l.negative then -(l.whole.number : Int) else l.whole.number

/-- What a literal denotes: the integer, if it is written as one and a word holds it, else a
double. Zero with a sign is no integer. -/
def value? : Option JsonNumber :=
  if l.fraction.isNone ∧ l.exponent.isNone ∧ ¬(l.negative = true ∧ l.whole.number = 0) then
    match Word.ofInt? l.integer with
    | some w => some (.word w)
    | none => l.double?
  else l.double?

end NumberLiteral

/-! String literals. -/

def letterEscapes : List (Char × Char) :=
  [('"', '"'), ('\\', '\\'), ('/', '/'), ('b', '\x08'), ('f', '\x0c'), ('n', '\n'), ('r', '\r'),
    ('t', '\t')]

def hexValue? (c : Char) : Option Nat :=
  if 48 ≤ c.toNat ∧ c.toNat < 58 then some (c.toNat - 48)
  else if 65 ≤ c.toNat ∧ c.toNat < 71 then some (c.toNat - 55)
  else if 97 ≤ c.toNat ∧ c.toNat < 103 then some (c.toNat - 87)
  else none

inductive FourHex : List Char → Nat → Prop
  | mk {a b c d : Char} {i j k m : Nat} : hexValue? a = some i → hexValue? b = some j →
      hexValue? c = some k → hexValue? d = some m →
        FourHex [a, b, c, d] (ofDigits 16 [i, j, k, m])

def HighSurrogate (n : Nat) : Prop := 0xD800 ≤ n ∧ n ≤ 0xDBFF

def LowSurrogate (n : Nat) : Prop := 0xDC00 ≤ n ∧ n ≤ 0xDFFF

/-- The character of a pair of surrogates. -/
def joined (high low : Nat) : Char :=
  Char.ofNat ((high - 0xD800) * 0x400 + (low - 0xDC00) + 0x10000)

/-- What stands behind a backslash, and its character. Surrogates stand in pairs only. -/
inductive Escape : List Char → Char → Prop
  | letter {k c : Char} : (k, c) ∈ letterEscapes → Escape [k] c
  | code {ds : List Char} {n : Nat} : FourHex ds n → ¬HighSurrogate n → ¬LowSurrogate n →
      Escape ('u' :: ds) (Char.ofNat n)
  | pair {ds es : List Char} {high low : Nat} : FourHex ds high → FourHex es low →
      HighSurrogate high → LowSurrogate low →
        Escape ('u' :: (ds ++ '\\' :: 'u' :: es)) (joined high low)

inductive Content : List Char → List Char → Prop
  | nil : Content [] []
  | plain {c : Char} {cs text : List Char} : 0x20 ≤ c.toNat → c ≠ '"' → c ≠ '\\' →
      Content cs text → Content (c :: cs) (c :: text)
  | escape {es cs text : List Char} {c : Char} : Escape es c → Content cs text →
      Content ('\\' :: (es ++ cs)) (c :: text)

/-! Values. -/

def Space (cs : List Char) : Prop := ∀ c ∈ cs, c ∈ [' ', '\n', '\t', '\r']

/-- What stands before an item or a member: blanks, and a comma unless it is the first. -/
inductive Separator : Bool → List Char → Prop
  | first {bl : List Char} : Space bl → Separator true bl
  | next {bl bl' : List Char} : Space bl → Space bl' → Separator false (bl ++ ',' :: bl')

mutual

/-- A text from its first token to its last, and the value it denotes. -/
inductive Denotes : List Char → Json → Prop
  | null : Denotes "null".toList .null
  | true : Denotes "true".toList (.bool true)
  | false : Denotes "false".toList (.bool false)
  | number (l : NumberLiteral) {n : JsonNumber} : l.value? = some n → Denotes l.chars (.number n)
  | string {body text : List Char} : Content body text →
      Denotes ('"' :: (body ++ ['"'])) (.string (String.ofList text))
  | array {text : List Char} {items : List Json} : DenotesItems true text items →
      Denotes ('[' :: text) (.array items)
  | object {text : List Char} {pairs : List (String × Json)} : DenotesMembers true text pairs →
      Denotes ('\x7b' :: text) (.object (Members.ofPairs pairs))

/-- Items up to the closing bracket; the flag tells that no item stands before. -/
inductive DenotesItems : Bool → List Char → List Json → Prop
  | nil {first : Bool} {bl : List Char} : Space bl → DenotesItems first (bl ++ [']']) []
  | cons {first : Bool} {front text more : List Char} {v : Json} {items : List Json} :
      Separator first front → Denotes text v → DenotesItems false more items →
        DenotesItems first (front ++ (text ++ more)) (v :: items)

/-- Members up to the closing brace, as they stand: names may repeat. -/
inductive DenotesMembers : Bool → List Char → List (String × Json) → Prop
  | nil {first : Bool} {bl : List Char} : Space bl → DenotesMembers first (bl ++ ['\x7d']) []
  | cons {first : Bool} {front body name bl bl' text more : List Char} {v : Json}
      {pairs : List (String × Json)} :
      Separator first front → Content body name → Space bl → Space bl' → Denotes text v →
        DenotesMembers false more pairs →
          DenotesMembers first
            (front ++ ('"' :: (body ++ '"' :: (bl ++ ':' :: (bl' ++ (text ++ more))))))
            ((String.ofList name, v) :: pairs)

end

end SchemaByExample.Json
