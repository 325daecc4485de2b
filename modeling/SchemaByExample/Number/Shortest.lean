import SchemaByExample.Number.Decimal

/-! The shortest decimal that reads back as a given binary value, and its text. -/
namespace SchemaByExample.Number

namespace Binary

variable {F : Format}

def ratio (x : Binary F) : Nat × Nat :=
  if F.lowest ≤ x.scale then (x.significand * twoTo (x.scale - F.lowest), 1)
  else (x.significand, twoTo (F.lowest - x.scale))

/-- The decimal exponent `e` of a positive ratio, `10 ^ e ≤ num / den < 10 ^ (e + 1)`. -/
def decimalExponent (num den : Nat) : Int :=
  if den ≤ num then decimalLength (num / den) - 1
  else -(decimalLength ((den - 1) / num) : Int)

/-- Of the two neighbours of a value on the grid of `k` digits, those that read back, and
of two the nearer. -/
def onGrid? (x : Binary F) (k : Nat) : Option Decimal :=
  let (num, den) := x.ratio
  let g : Int := decimalExponent num den + 1 - k
  let (n, d) := if 0 ≤ g then (num, den * tenTo g.toNat) else (num * tenTo (-g).toNat, den)
  let low : Decimal := ⟨x.negative, n / d, g⟩
  let high : Decimal := ⟨x.negative, n / d + 1, g⟩
  match low.toBinary F == some x, high.toBinary F == some x with
  | true, true => if roundHalfEven n d = n / d then some low else some high
  | true, false => some low
  | false, true => some high
  | false, false => none

/-- The exact value as a decimal, for a value that no shorter one reads back as. -/
def exact (x : Binary F) : Decimal :=
  let (num, den) := x.ratio
  if den = 1 then ⟨x.negative, num, 0⟩
  else ⟨x.negative, num * Nat.pow 5 (F.lowest - x.scale), -((F.lowest - x.scale : Nat) : Int)⟩

/-- Seventeen digits tell two binary values of double precision apart. -/
def maxDigits : Nat := 17

/-- A decimal with the fewest digits that reads back, the nearest of those. -/
def shortest (x : Binary F) : Decimal :=
  if x.isZero then ⟨x.negative, 0, 0⟩
  else ((List.range maxDigits).findSome? (fun k => x.onGrid? (k + 1))).getD x.exact

end Binary

/-- How a decimal is written: positional where the exponent of its first digit lies between
two bounds, else with an exponent. -/
structure FloatStyle where
  lowest : Int
  highest : Int
  plus : Bool

namespace FloatStyle

/-- Drops the zeros at the end of a digit list, but for its first digit. -/
def trimZeros : List Char → List Char
  | [] => []
  | c :: cs => c :: (cs.reverse.dropWhile (· == '0')).reverse

def zeros (n : Nat) : List Char := List.replicate n '0'

/-- The text of a magnitude whose first digit has exponent `e`. -/
def magnitude (style : FloatStyle) (digits : List Char) (e : Int) : List Char :=
  if style.lowest ≤ e ∧ e ≤ style.highest then
    if e < 0 then '0' :: '.' :: zeros (-e - 1).toNat ++ digits
    else
      let whole := e.toNat + 1
      if digits.length ≤ whole then digits ++ zeros (whole - digits.length) ++ ['.', '0']
      else digits.take whole ++ '.' :: digits.drop whole
  else
    let mantissa := match digits with
      | c :: d :: ds => c :: '.' :: d :: ds
      | ds => ds
    let sign := if e < 0 then ['-'] else if style.plus then ['+'] else []
    mantissa ++ 'e' :: sign ++ Nat.toDigits 10 e.natAbs

/-- The text of a decimal. Zero counts as having exponent zero. -/
def text (style : FloatStyle) (d : Decimal) : String :=
  let digits := Nat.toDigits 10 d.digits
  let e : Int := if d.digits = 0 then 0 else digits.length - 1 + d.exponent
  let body := style.magnitude (trimZeros digits) e
  String.ofList (if d.negative then '-' :: body else body)

end FloatStyle

/-- Documents write magnitudes from 1e-5 up to 1e16 positionally, and other exponents with
their sign. -/
def documentStyle : FloatStyle := ⟨-5, 15, true⟩

def Binary.text {F : Format} (x : Binary F) : String := documentStyle.text x.shortest

end SchemaByExample.Number
