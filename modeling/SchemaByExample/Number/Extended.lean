import SchemaByExample.Number.Binary

/-! Arithmetic on binary values extended by infinities and not-a-number. Every
operation is the exact rational result, rounded once. -/
namespace SchemaByExample.Number

inductive Extended (F : Format) where
  | nan
  | infinite (negative : Bool)
  | finite (x : Binary F)
  deriving DecidableEq

namespace Extended

variable {F : Format}

/-- The nearest value to a ratio; beyond the format it is an infinity. -/
def ofRatio (F : Format) (negative : Bool) (num den : Nat) : Extended F :=
  match Binary.ofRatio F negative num den with
  | some x => .finite x
  | none => .infinite negative

def ofInt (F : Format) (n : Int) : Extended F := ofRatio F (n < 0) n.natAbs 1

def finite? : Extended F → Option (Binary F)
  | .finite x => some x
  | _ => none

def neg : Extended F → Extended F
  | .nan => .nan
  | .infinite s => .infinite (!s)
  | .finite x => .finite x.neg

def abs : Extended F → Extended F
  | .nan => .nan
  | .infinite _ => .infinite false
  | .finite x => .finite x.abs

/-- A sum of zeros is negative only if both are. -/
def add : Extended F → Extended F → Extended F
  | .nan, _ => .nan
  | _, .nan => .nan
  | .infinite s, .infinite t => if s = t then .infinite s else .nan
  | .infinite s, .finite _ => .infinite s
  | .finite _, .infinite t => .infinite t
  | .finite x, .finite y =>
    let sum := x.signedUnits + y.signedUnits
    let negative := if sum = 0 then x.negative && y.negative else decide (sum < 0)
    ofRatio F negative sum.natAbs (twoTo F.lowest)

def sub (a b : Extended F) : Extended F := add a (neg b)

def mul : Extended F → Extended F → Extended F
  | .nan, _ => .nan
  | _, .nan => .nan
  | .infinite s, .infinite t => .infinite (s != t)
  | .infinite s, .finite y => if y.isZero then .nan else .infinite (s != y.negative)
  | .finite x, .infinite t => if x.isZero then .nan else .infinite (x.negative != t)
  | .finite x, .finite y =>
    ofRatio F (x.negative != y.negative) (x.units * y.units) (twoTo (2 * F.lowest))

def div : Extended F → Extended F → Extended F
  | .nan, _ => .nan
  | _, .nan => .nan
  | .infinite _, .infinite _ => .nan
  | .infinite s, .finite y => .infinite (s != y.negative)
  | .finite x, .infinite t => ofRatio F (x.negative != t) 0 1
  | .finite x, .finite y =>
    if y.isZero then
      if x.isZero then .nan else .infinite (x.negative != y.negative)
    else ofRatio F (x.negative != y.negative) x.units y.units

/-- The remainder of the division toward zero; it has the sign of the dividend. -/
def rem : Extended F → Extended F → Extended F
  | .finite x, .infinite _ => .finite x
  | .finite x, .finite y =>
    if y.isZero then .nan else ofRatio F x.negative (x.units % y.units) (twoTo F.lowest)
  | _, _ => .nan

/-- Steps from a number not below the square root of `n` down to it. -/
def descendToRoot (n : Nat) : Nat → Nat → Nat
  | 0, x => x
  | fuel + 1, x =>
    let y := (x + n / x) / 2
    if y < x then descendToRoot n fuel y else x

/-- The largest number whose square is at most `n`. -/
def wholeRoot (n : Nat) : Nat := descendToRoot n (n.log2 + 2) (twoTo (n.log2 / 2 + 1))

/-- The square root. In the units of the format its whole part has more bits than a
significand, so that of the rest only whether there is one counts. -/
def sqrt : Extended F → Extended F
  | .finite x =>
    if x.isZero then .finite x
    else if x.negative then .nan
    else
      let square := x.units * twoTo F.lowest
      let root := wholeRoot square
      let twice := if root * root = square then 2 * root else 2 * root + 1
      ofRatio F false twice (2 * twoTo F.lowest)
  | .infinite false => .infinite false
  | _ => .nan

/-- The order of two values, when neither is not-a-number. -/
def compare? : Extended F → Extended F → Option Ordering
  | .nan, _ => none
  | _, .nan => none
  | .infinite s, .infinite t => some (compare (if s then 0 else 1) (if t then 0 else 1))
  | .infinite s, .finite _ => some (if s then .lt else .gt)
  | .finite _, .infinite t => some (if t then .gt else .lt)
  | .finite x, .finite y => some (compare x.signedUnits y.signedUnits)

def le (a b : Extended F) : Bool :=
  match compare? a b with
  | some .lt => true
  | some .eq => true
  | _ => false

/-- Ways to take a whole number from a value. -/
inductive Whole where
  | floor | ceiling | nearest | towardZero

/-- The whole number beside a finite value; `nearest` takes a half away from zero. -/
def Whole.ofBinary (w : Whole) (x : Binary F) : Int :=
  let one : Nat := twoTo F.lowest
  match w with
  | .floor => Int.fdiv x.signedUnits one
  | .ceiling => -Int.fdiv (-x.signedUnits) one
  | .towardZero => Int.tdiv x.signedUnits one
  | .nearest =>
    let magnitude : Int := ((2 * x.units + one) / (2 * one) : Nat)
    if x.negative then -magnitude else magnitude

end Extended

end SchemaByExample.Number
