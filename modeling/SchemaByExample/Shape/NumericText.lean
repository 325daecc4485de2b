import SchemaByExample.Number.DecimalText

/-! Text that counts as a number. A text is read in two ways, as a whole and by its longest
numeric beginning, and is numeric when the two values are close enough; values that are not
numbers, or are infinite on both sides, never are. -/
namespace SchemaByExample.NumericText

open Number DecimalText

abbrev Real := Extended Format.double

/-- White space and line terminators around a number. U+0085 is not among them. -/
def isBlank (c : Char) : Bool :=
  let n := c.toNat
  n == 9 || n == 10 || n == 11 || n == 12 || n == 13 || n == 32 || n == 0xA0 || n == 0x1680 ||
    (0x2000 ≤ n && n ≤ 0x200A) || n == 0x2028 || n == 0x2029 || n == 0x202F || n == 0x205F ||
    n == 0x3000 || n == 0xFEFF

def trimStart (cs : List Char) : List Char := cs.dropWhile isBlank

def trim (cs : List Char) : List Char := ((trimStart cs).reverse.dropWhile isBlank).reverse

/-- The value of a digit in a radix of at most sixteen. -/
def digit? (radix : Nat) (c : Char) : Option Nat :=
  let n := c.toNat
  let d :=
    if 48 ≤ n ∧ n < 58 then n - 48
    else if 97 ≤ n ∧ n < 103 then n - 87
    else if 65 ≤ n ∧ n < 71 then n - 55
    else radix
  if d < radix then some d else none

/-- The word for an infinity at the front, and what follows it. -/
def infinity? (cs : List Char) : Option (Bool × List Char) :=
  let (negative, cs) := sign cs
  let word := "Infinity".toList
  if word.isPrefixOf cs then some (negative, cs.drop word.length) else none

/-- The value of the longest number at the front of a text, after blanks. -/
def ofPrefix (cs : List Char) : Real :=
  let cs := trimStart cs
  match infinity? cs with
  | some (negative, _) => .infinite negative
  | none =>
    match decimal? cs with
    | some (d, _) => d.toExtended Format.double
    | none => .nan

/-- The radix that a number's first two characters announce. -/
def radix? : List Char → Option (Nat × List Char)
  | '0' :: c :: cs =>
    if c = 'x' ∨ c = 'X' then some (16, cs)
    else if c = 'o' ∨ c = 'O' then some (8, cs)
    else if c = 'b' ∨ c = 'B' then some (2, cs)
    else none
  | _ => none

/-- The value of digits in a radix, rounded after each digit; not a number without digits
or with other characters. -/
def ofRadix (radix : Nat) (cs : List Char) : Real :=
  if cs.isEmpty then .nan
  else
    let base : Real := .ofInt _ radix
    match cs.mapM (digit? radix) with
    | some ds =>
      ds.foldl (fun (acc : Real) (d : Nat) => (acc.mul base).add (.ofInt _ d)) (.ofInt _ 0)
    | none => .nan

/-- The value of a whole text, with blanks around it; the empty text is zero. -/
def ofWhole (cs : List Char) : Real :=
  let cs := trim cs
  if cs.isEmpty then .ofInt _ 0
  else match infinity? cs with
    | some (negative, []) => .infinite negative
    | _ =>
      match radix? cs with
      | some (radix, rest) => ofRadix radix rest
      | none =>
        match decimal? cs with
        | some (d, []) => d.toExtended Format.double
        | _ => .nan

/-- Whether the whole is not below the beginning by more than one. -/
def isNumeric (s : String) : Bool :=
  let cs := s.toList
  Extended.le (.ofInt _ 0) (((ofWhole cs).sub (ofPrefix cs)).add (.ofInt _ 1))

end SchemaByExample.NumericText
