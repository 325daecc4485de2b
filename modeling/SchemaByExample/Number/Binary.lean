/-! Binary floating-point values as exact numbers, and rounding to nearest.

A value is a sign, a significand and a scale, and stands for
`±significand * 2 ^ scale / 2 ^ lowest`. The fields are canonical, so two finite
values are equal exactly when sign, significand and scale agree. -/
namespace SchemaByExample.Number

def twoTo (n : Nat) : Nat := Nat.pow 2 n

def tenTo (n : Nat) : Nat := Nat.pow 10 n

theorem twoTo_pos (n : Nat) : 0 < twoTo n := Nat.two_pow_pos n

theorem twoTo_add (m n : Nat) : twoTo (m + n) = twoTo m * twoTo n := Nat.pow_add 2 m n

theorem twoTo_le_twoTo {m n : Nat} (h : m ≤ n) : twoTo m ≤ twoTo n :=
  Nat.pow_le_pow_right (by decide) h

theorem lt_twoTo_log2 (n : Nat) : n < twoTo (n.log2 + 1) := Nat.lt_log2_self

theorem twoTo_log2_le {n : Nat} (h : n ≠ 0) : twoTo n.log2 ≤ n := Nat.log2_self_le h

/-- The bounds of a binary format: the bits of a significand, the exponent of the
smallest positive value `2 ^ -lowest`, and the number of scales. -/
structure Format where
  precision : Nat
  lowest : Nat
  scales : Nat
  deriving DecidableEq, Repr

namespace Format

def double : Format := ⟨53, 1074, 2046⟩

def single : Format := ⟨24, 149, 254⟩

end Format

/-- A finite value of a format. -/
structure Binary (F : Format) where
  negative : Bool
  significand : Nat
  scale : Nat
  significand_lt : significand < twoTo F.precision
  scale_lt : scale < F.scales
  normal : scale = 0 ∨ twoTo (F.precision - 1) ≤ significand
  deriving DecidableEq

abbrev Double := Binary Format.double

/-- The quotient to the nearest integer, a half going to the even neighbour. -/
def roundHalfEven (num den : Nat) : Nat :=
  let q := num / den
  let twice := 2 * (num % den)
  if twice > den ∨ (twice = den ∧ q % 2 = 1) then q + 1 else q

theorem div_le_roundHalfEven (num den : Nat) : num / den ≤ roundHalfEven num den := by
  simp only [roundHalfEven]
  split <;> omega

theorem roundHalfEven_le (num den : Nat) : roundHalfEven num den ≤ num / den + 1 := by
  simp only [roundHalfEven]
  split <;> omega

/-- The scale at which a quotient has the bits of a full significand, and zero for the
quotients that have fewer. -/
def scaleOf (F : Format) (q : Nat) : Nat := q.log2 + 1 - F.precision

theorem div_twoTo_scaleOf_lt (F : Format) (q : Nat) :
    q / twoTo (scaleOf F q) < twoTo F.precision := by
  rw [Nat.div_lt_iff_lt_mul (twoTo_pos _), ← twoTo_add]
  refine Nat.lt_of_lt_of_le (lt_twoTo_log2 q) (twoTo_le_twoTo ?_)
  simp only [scaleOf]
  omega

theorem le_div_twoTo_scaleOf (F : Format) (q : Nat) (hp : 0 < F.precision)
    (h : scaleOf F q ≠ 0) : twoTo (F.precision - 1) ≤ q / twoTo (scaleOf F q) := by
  have hq : q ≠ 0 := by
    rintro rfl
    simp only [scaleOf, Nat.log2_zero] at h
    omega
  rw [Nat.le_div_iff_mul_le (twoTo_pos _), ← twoTo_add]
  refine Nat.le_trans (twoTo_le_twoTo ?_) (twoTo_log2_le hq)
  simp only [scaleOf] at h ⊢
  omega

namespace Binary

variable {F : Format}

/-- The value with a significand of at most all bits set plus one, which carries over to
the next scale, and nothing when the scale is beyond the format. -/
def ofParts (F : Format) (negative : Bool) (m s : Nat) : Option (Binary F) :=
  if h : m < twoTo F.precision ∧ s < F.scales ∧ (s = 0 ∨ twoTo (F.precision - 1) ≤ m) then
    some ⟨negative, m, s, h.1, h.2.1, h.2.2⟩
  else none

/-- The nearest value to `num / den`, a tie going to the even significand; nothing when the
magnitude is beyond the format. -/
def ofRatio (F : Format) (negative : Bool) (num den : Nat) : Option (Binary F) :=
  let units := num * twoTo F.lowest
  let s := scaleOf F (units / den)
  let m := roundHalfEven units (den * twoTo s)
  if m < twoTo F.precision then ofParts F negative m s
  else ofParts F negative (twoTo (F.precision - 1)) (s + 1)

/-- The magnitude in units of the smallest positive value. -/
def units (x : Binary F) : Nat := x.significand * twoTo x.scale

def isZero (x : Binary F) : Bool := x.significand == 0

def neg (x : Binary F) : Binary F := { x with negative := !x.negative }

def abs (x : Binary F) : Binary F := { x with negative := false }

/-- The value as a whole number of units. -/
def signedUnits (x : Binary F) : Int := if x.negative then -(x.units : Int) else x.units

end Binary

end SchemaByExample.Number
