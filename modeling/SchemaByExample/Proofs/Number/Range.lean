import Mathlib.Algebra.Order.Field.Rat
import Mathlib.Algebra.Order.Field.Basic
import Mathlib.Algebra.Order.Field.Power
import Mathlib.Tactic.NormNum
import Mathlib.Tactic.Ring
import SchemaByExample.Proofs.Number.Shortest

/-! Which numbers have a nearest double: those below the midpoint between the largest double and
the power of two behind it. At the midpoint the even neighbour is that power. -/
namespace SchemaByExample.Number

def overflow : Nat := (twoTo 54 - 1) * twoTo 970

theorem overflow_eq : overflow + 2 ^ 970 = 2 ^ 1024 := by decide +kernel

theorem twoTo_lt_twoTo {m n : Nat} (h : m < n) : twoTo m < twoTo n :=
  Nat.pow_lt_pow_right (by decide) h

theorem log2_lt_of_lt_twoTo {n k : Nat} (hk : 0 < k) (h : n < twoTo k) : n.log2 < k := by
  by_cases hn : n = 0
  · rwa [hn, Nat.log2_zero]
  · exact (Nat.log2_lt hn).mpr h

/-- What is nearer to an integer than to the next rounds to it at most. -/
theorem roundHalfEven_le_of_lt {a b k : Nat} (h : 2 * a < (2 * k + 1) * b) :
    roundHalfEven a b ≤ k := by
  have hb : 0 < b := by
    refine Nat.pos_of_ne_zero ?_
    rintro rfl
    simp at h
  have hle : a / b ≤ k := by
    refine Nat.le_of_lt_add_one ((Nat.div_lt_iff_lt_mul hb).mpr ?_)
    have hsum : (2 * k + 1) * b + b = 2 * ((k + 1) * b) := by ring
    omega
  obtain hlt | rfl := Nat.lt_or_eq_of_le hle
  · exact Nat.le_trans (roundHalfEven_le a b) hlt
  · have hsplit := Nat.div_add_mod a b
    have hmod : 2 * (a % b) < b := by
      have hsum : (2 * (a / b) + 1) * b = 2 * (b * (a / b)) + b := by
        ring
      omega
    have hnot : ¬(2 * (a % b) > b ∨ (2 * (a % b) = b ∧ a / b % 2 = 1)) := by omega
    simp only [roundHalfEven, if_neg hnot]
    exact Nat.le_refl _

theorem roundedUnits_overflow :
    Binary.roundedUnits Format.double overflow 1 = twoTo 2098 := by decide +kernel

/-- The midpoint in units of the smallest double. -/
theorem overflow_units : overflow * twoTo 1074 = (twoTo 54 - 1) * twoTo 2044 := by
  rw [overflow, Nat.mul_assoc, ← twoTo_add]

theorem ratioScale_le {num den : Nat} (hd : 0 < den) (h : num < overflow * den) :
    Binary.ratioScale Format.double num den ≤ 2045 := by
  have hq : num * twoTo 1074 / den < twoTo 2098 := by
    rw [Nat.div_lt_iff_lt_mul hd]
    calc num * twoTo 1074 < overflow * den * twoTo 1074 :=
          Nat.mul_lt_mul_of_pos_right h (twoTo_pos _)
      _ = (twoTo 54 - 1) * twoTo 2044 * den := by rw [Nat.mul_right_comm, overflow_units]
      _ ≤ twoTo 54 * twoTo 2044 * den :=
          Nat.mul_le_mul_right _ (Nat.mul_le_mul_right _ (Nat.sub_le _ _))
      _ = twoTo 2098 * den := by rw [← twoTo_add]
  have hlog := log2_lt_of_lt_twoTo (by decide) hq
  have hprecision : Format.double.precision = 53 := rfl
  rw [Binary.ratioScale, scaleOf, hprecision, lowest_double]
  omega

theorem roundedUnits_lt {num den : Nat} (hd : 0 < den) (h : num < overflow * den) :
    Binary.roundedUnits Format.double num den < twoTo 2098 := by
  have hscale := ratioScale_le hd h
  rw [Binary.roundedUnits]
  obtain hlow | htop : Binary.ratioScale Format.double num den ≤ 2044 ∨
      Binary.ratioScale Format.double num den = 2045 := by omega
  · calc Binary.ratioSignificand Format.double num den *
            twoTo (Binary.ratioScale Format.double num den)
        ≤ twoTo 53 * twoTo 2044 :=
          Nat.mul_le_mul (Binary.ratioSignificand_le Format.double num den) (twoTo_le_twoTo hlow)
      _ = twoTo 2097 := (twoTo_add 53 2044).symm
      _ < twoTo 2098 := twoTo_lt_twoTo (by decide)
  · -- at the last scale the significand is below the midpoint of its two largest values
    have hm : Binary.ratioSignificand Format.double num den ≤ twoTo 53 - 1 := by
      rw [Binary.ratioSignificand, htop]
      refine roundHalfEven_le_of_lt ?_
      calc 2 * (num * twoTo 1074) < 2 * (overflow * den * twoTo 1074) :=
            Nat.mul_lt_mul_of_pos_left (Nat.mul_lt_mul_of_pos_right h (twoTo_pos _)) (by decide)
        _ = (2 * (twoTo 53 - 1) + 1) * (den * twoTo 2045) := by
            rw [Nat.mul_right_comm, overflow_units, Binary.twoTo_succ 2044]
            have hodd : twoTo 54 - 1 = 2 * (twoTo 53 - 1) + 1 := by decide +kernel
            rw [hodd]
            ring
    calc Binary.ratioSignificand Format.double num den *
            twoTo (Binary.ratioScale Format.double num den)
        ≤ (twoTo 53 - 1) * twoTo 2045 := by rw [htop]; exact Nat.mul_le_mul_right _ hm
      _ < twoTo 53 * twoTo 2045 := Nat.mul_lt_mul_of_pos_right (by decide) (twoTo_pos _)
      _ = twoTo 2098 := (twoTo_add 53 2045).symm

/-- A ratio has a nearest double if it is below the midpoint. -/
theorem isSome_ofRatio_iff (negative : Bool) {num den : Nat} (hd : 0 < den) :
    (Binary.ofRatio Format.double negative num den).isSome = true ↔ num < overflow * den := by
  constructor
  · intro h
    obtain ⟨x, hx⟩ := Option.isSome_iff_exists.mp h
    refine Nat.lt_of_not_le fun hle => ?_
    have hratio : overflow * den ≤ num * 1 := by rwa [Nat.mul_one]
    have hmono := Binary.roundedUnits_mono precision_pos Nat.one_pos hd hratio
    rw [roundedUnits_overflow, ← Binary.units_of_ofRatio precision_pos hx] at hmono
    exact absurd (Binary.units_lt precision_pos x) (Nat.not_lt.mpr hmono)
  · intro h
    obtain ⟨x, hx⟩ := Binary.exists_ofRatio precision_pos scales_pos negative
      (roundedUnits_lt hd h)
    rw [hx]
    rfl

/-- What is less than half of the smallest double rounds to zero. -/
theorem ofRatio_tiny (negative : Bool) {num den : Nat} (h : 2 * (num * twoTo 1074) < den) :
    Binary.ofRatio Format.double negative num den = Binary.ofParts Format.double negative 0 0 := by
  have hscale : Binary.ratioScale Format.double num den = 0 := by
    rw [Binary.ratioScale, lowest_double, Nat.div_eq_of_lt (by omega)]
    decide
  have hsignificand : Binary.ratioSignificand Format.double num den = 0 := by
    have hone : twoTo 0 = 1 := rfl
    rw [Binary.ratioSignificand, hscale, lowest_double, hone]
    exact Nat.eq_zero_of_le_zero (roundHalfEven_le_of_lt (by omega))
  rw [Binary.ofRatio_eq, hscale, hsignificand, if_pos (twoTo_pos _)]

theorem tenTo_decimalLength_le {n : Nat} (h : n ≠ 0) : tenTo (decimalLength n - 1) ≤ n := by
  refine Nat.le_of_not_lt fun hlt => ?_
  have hlength : decimalLength n ≤ decimalLength n - 1 := by
    by_cases hone : decimalLength n - 1 = 0
    · rw [hone] at hlt
      exact absurd (Nat.lt_one_iff.mp hlt) h
    · exact (Nat.length_toDigits_le_iff (by decide) (Nat.pos_of_ne_zero hone)).mpr hlt
  have hpos : 0 < decimalLength n := Nat.length_toDigits_pos
  omega

theorem twoTo_le_tenTo (n : Nat) : twoTo n ≤ tenTo n := Nat.pow_le_pow_left (by decide) n

theorem overflow_le_tenTo : overflow ≤ tenTo 2047 := by decide +kernel

namespace Decimal

def InRange (d : Decimal) : Prop :=
  d.digits * tenTo d.exponent.toNat < overflow * tenTo (-d.exponent).toNat

/-- A number of more places than the midpoint. -/
theorem not_inRange_of_order {d : Decimal} (h0 : d.digits ≠ 0) (h : d.order > 2047) :
    ¬d.InRange := by
  rw [order] at h
  refine Nat.not_lt.mpr ?_
  calc overflow * tenTo (-d.exponent).toNat
      ≤ tenTo 2047 * tenTo (-d.exponent).toNat := Nat.mul_le_mul_right _ overflow_le_tenTo
    _ = tenTo (2047 + (-d.exponent).toNat) := (tenTo_add _ _).symm
    _ ≤ tenTo (decimalLength d.digits - 1 + d.exponent.toNat) := tenTo_le_tenTo (by omega)
    _ = tenTo (decimalLength d.digits - 1) * tenTo d.exponent.toNat := tenTo_add _ _
    _ ≤ d.digits * tenTo d.exponent.toNat :=
      Nat.mul_le_mul_right _ (tenTo_decimalLength_le h0)

/-- A number of so many zeros behind the point that it rounds to zero. -/
theorem ofRatio_of_order {d : Decimal} (h : d.order < -1074) :
    Binary.ofRatio Format.double d.negative d.ratio.1 d.ratio.2 =
      Binary.ofRatio Format.double d.negative 0 1 := by
  rw [order] at h
  have hzero : d.exponent.toNat = 0 := by omega
  have hone : tenTo 0 = 1 := rfl
  have htiny : 2 * (d.digits * tenTo 0 * twoTo 1074) < tenTo (-d.exponent).toNat :=
    calc 2 * (d.digits * tenTo 0 * twoTo 1074) = d.digits * twoTo 1075 := by
          rw [hone, Nat.mul_one, Nat.mul_comm 2, Nat.mul_assoc, ← Binary.twoTo_succ]
      _ < tenTo (decimalLength d.digits) * twoTo 1075 :=
          Nat.mul_lt_mul_of_pos_right (lt_tenTo_decimalLength _) (twoTo_pos _)
      _ ≤ tenTo (decimalLength d.digits) * tenTo 1075 :=
          Nat.mul_le_mul_left _ (twoTo_le_tenTo _)
      _ = tenTo (decimalLength d.digits + 1075) := (tenTo_add _ _).symm
      _ ≤ tenTo (-d.exponent).toNat := tenTo_le_tenTo (by omega)
  have hnone : 2 * (0 * twoTo 1074) < 1 := by
    rw [Nat.zero_mul]
    decide
  rw [ratio_eq, hzero, ofRatio_tiny _ htiny, ofRatio_tiny _ hnone]

/-- The cuts by the order of a number only skip what rounding would settle alike. -/
theorem toBinary_eq (d : Decimal) : d.toBinary Format.double =
    Binary.ofRatio Format.double d.negative d.ratio.1 d.ratio.2 := by
  rw [toBinary]
  split
  · rename_i h0
    refine Binary.ofRatio_congr _ Nat.one_pos ?_ ?_
    · rw [ratio_eq]
      exact tenTo_pos _
    · rw [ratio_eq, h0, Nat.zero_mul, Nat.zero_mul, Nat.zero_mul]
  rename_i h0
  split
  · rename_i horder
    refine (Option.not_isSome_iff_eq_none.mp fun hsome => ?_).symm
    rw [ratio_eq, isSome_ofRatio_iff d.negative (tenTo_pos _)] at hsome
    exact not_inRange_of_order h0 horder hsome
  split
  · rename_i horder
    exact (ofRatio_of_order horder).symm
  · rfl

theorem isSome_toBinary_iff (d : Decimal) :
    (d.toBinary Format.double).isSome = true ↔ d.InRange := by
  rw [toBinary_eq, ratio_eq, isSome_ofRatio_iff d.negative (tenTo_pos _)]
  rfl

def magnitude (d : Decimal) : ℚ := d.digits * 10 ^ d.exponent

theorem magnitude_eq (d : Decimal) : d.magnitude = d.ratio.1 / d.ratio.2 := by
  have hpower : (10 : ℚ) ^ d.exponent = 10 ^ d.exponent.toNat / 10 ^ (-d.exponent).toNat := by
    have hsplit : d.exponent = (d.exponent.toNat : Int) - ((-d.exponent).toNat : Int) := by omega
    conv_lhs => rw [hsplit]
    rw [zpow_sub₀ (by norm_num), zpow_natCast, zpow_natCast]
  rw [magnitude, hpower, ratio_eq, mul_div_assoc']
  simp [tenTo]

theorem inRange_iff (d : Decimal) : d.InRange ↔ d.magnitude < 2 ^ 1024 - 2 ^ 970 := by
  have hbound : ((overflow : Nat) : ℚ) = 2 ^ 1024 - 2 ^ 970 := by
    have hsum := congrArg (Nat.cast : Nat → ℚ) overflow_eq
    rw [Nat.cast_add, Nat.cast_pow, Nat.cast_pow, Nat.cast_ofNat] at hsum
    exact eq_sub_of_add_eq hsum
  have hpos : (0 : ℚ) < (tenTo (-d.exponent).toNat : Nat) := by
    exact_mod_cast tenTo_pos _
  rw [magnitude_eq, ratio_eq, ← hbound, div_lt_iff₀ hpos, InRange]
  exact_mod_cast Iff.rfl

end Decimal

end SchemaByExample.Number
