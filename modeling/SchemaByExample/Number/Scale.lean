import SchemaByExample.Number.Decimal

/-! Doubles from a word and a decimal exponent, in few roundings: the word is rounded, the
power of ten is rounded, and so is their product or quotient. Up to 2 ^ 53 and for small
exponents this is the nearest double; beyond, it may be a neighbour of it. -/
namespace SchemaByExample.Number

def maxPower : Nat := 308

def powerOfTen (n : Nat) : Extended Format.double := .ofRatio _ false (tenTo n) 1

/-- Divides by powers of ten until the rest of the exponent is one of them. -/
def divideByTen : Nat → Extended Format.double → Nat → Extended Format.double
  | 0, x, _ => x
  | fuel + 1, x, n =>
    if n ≤ maxPower then x.div (powerOfTen n)
    else if x = .ofInt _ 0 then x
    else divideByTen fuel (x.div (powerOfTen maxPower)) (n - maxPower)

/-- The magnitude `n * 10 ^ exponent` with a sign; nothing beyond the format. -/
def scaleByTen (negative : Bool) (n : Nat) (exponent : Int) : Option Double :=
  let x : Extended Format.double := .ofInt _ n
  let y :=
    if exponent < 0 then divideByTen (exponent.natAbs / maxPower + 1) x exponent.natAbs
    else if exponent.toNat ≤ maxPower then x.mul (powerOfTen exponent.toNat)
    else if n = 0 then x
    else .infinite false
  (y.finite?).map fun y => { y with negative := negative }

end SchemaByExample.Number
