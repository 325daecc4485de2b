import SchemaByExample.Number.Extended

/-! Decimal numbers as they are written, and their nearest binary values. -/
namespace SchemaByExample.Number

/-- The number of decimal digits of a natural number; zero has one. -/
def decimalLength (n : Nat) : Nat := (Nat.toDigits 10 n).length

/-- The number that a list of digit values writes, the first digit highest. -/
def ofDigits (base : Nat) (digits : List Nat) : Nat := digits.foldl (fun n d => base * n + d) 0

/-- The number `±digits * 10 ^ exponent`. -/
structure Decimal where
  negative : Bool
  digits : Nat
  exponent : Int
  deriving DecidableEq, Repr

namespace Decimal

/-- The number with the given digits before and after the point. -/
def ofParts (negative : Bool) (whole fraction : List Nat) (exponent : Int) : Decimal :=
  ⟨negative, ofDigits 10 (whole ++ fraction), exponent - fraction.length⟩

def ratio (d : Decimal) : Nat × Nat :=
  if 0 ≤ d.exponent then (d.digits * tenTo d.exponent.toNat, 1)
  else (d.digits, tenTo (-d.exponent).toNat)

/-- The number of digits before the point, negative for the zeros that follow it. -/
def order (d : Decimal) : Int := decimalLength d.digits + d.exponent

/-- The nearest binary value; nothing when the magnitude is beyond the format. A number
whose order alone is beyond the format is settled without computing the power of ten. -/
def toBinary (F : Format) (d : Decimal) : Option (Binary F) :=
  if d.digits = 0 then Binary.ofRatio F d.negative 0 1
  else if d.order > F.scales + 1 then none
  else if d.order < -F.lowest then Binary.ofRatio F d.negative 0 1
  else Binary.ofRatio F d.negative d.ratio.1 d.ratio.2

/-- The nearest value, an infinity beyond the format. -/
def toExtended (F : Format) (d : Decimal) : Extended F :=
  match d.toBinary F with
  | some x => .finite x
  | none => .infinite d.negative

end Decimal

end SchemaByExample.Number
