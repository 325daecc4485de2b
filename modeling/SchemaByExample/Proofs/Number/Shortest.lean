import SchemaByExample.Number.Shortest
import SchemaByExample.Proofs.Number.Scaling

/-! The shortest decimal of a double. But for the largest double it stays below the bound up to
which words times powers of ten are in range. -/
namespace SchemaByExample.Number

theorem lt_tenTo_decimalLength (n : Nat) : n < tenTo (decimalLength n) :=
  (Nat.length_toDigits_le_iff (by decide) Nat.length_toDigits_pos).mp (Nat.le_refl _)

theorem safeBound_pos : 0 < safeBound := Nat.mul_pos (by decide) (tenTo_pos 289)

namespace Decimal

theorem ratio_eq (d : Decimal) :
    d.ratio = (d.digits * tenTo d.exponent.toNat, tenTo (-d.exponent).toNat) := by
  unfold ratio
  split
  · have hzero : (-d.exponent).toNat = 0 := by omega
    rw [hzero]
    rfl
  · have hzero : d.exponent.toNat = 0 := by omega
    rw [hzero]
    exact congrArg (·, _) (Nat.mul_one _).symm

theorem within_of_order_neg {d : Decimal} (h : d.order < 0) :
    Within safeBound d.digits d.exponent := by
  rw [order] at h
  have hzero : d.exponent.toNat = 0 := by omega
  rw [Within, hzero]
  calc d.digits * tenTo 0 = d.digits := Nat.mul_one _
    _ ≤ tenTo (decimalLength d.digits) := Nat.le_of_lt (lt_tenTo_decimalLength _)
    _ ≤ tenTo (-d.exponent).toNat := tenTo_le_tenTo (by omega)
    _ ≤ safeBound * tenTo (-d.exponent).toNat := Nat.le_mul_of_pos_left _ safeBound_pos

/-- What is read as another double than the largest is below the bound. -/
theorem within_of_toBinary {d : Decimal} {x : Double} (h : d.toBinary Format.double = some x)
    (hx : x.units < maxUnits) : Within safeBound d.digits d.exponent := by
  unfold toBinary at h
  split at h
  · rename_i hzero
    exact hzero ▸ within_zero _ _
  split at h
  · cases h
  split at h
  · rename_i horder
    exact within_of_order_neg (Int.lt_trans horder (by decide))
  · refine Nat.le_of_not_lt fun hbeyond => ?_
    have hunits := Binary.units_of_ofRatio precision_pos h
    rw [ratio_eq] at hunits
    have hle : safeBound * tenTo (-d.exponent).toNat ≤ d.digits * tenTo d.exponent.toNat * 1 := by
      rw [Nat.mul_one]
      exact Nat.le_of_lt hbeyond
    have hmono := Binary.roundedUnits_mono precision_pos Nat.one_pos (tenTo_pos _) hle
    rw [largestBounds.bound, ← hunits] at hmono
    exact absurd hx (Nat.not_lt.mpr hmono)

end Decimal

def largest (negative : Bool) : Double :=
  ⟨negative, twoTo 53 - 1, 2045, by decide, by decide, .inr (by decide)⟩

theorem eq_largest_or_units_le (x : Double) :
    x = largest x.negative ∨ x.units ≤ (twoTo 53 - 2) * twoTo 2045 := by
  obtain ⟨negative, m, s, hm, hs, hnormal⟩ := x
  have hm' : m ≤ twoTo 53 - 1 := Nat.le_sub_one_of_lt hm
  obtain hlow | rfl : s ≤ 2044 ∨ s = 2045 := by
    have : s < 2046 := hs
    omega
  · refine .inr ?_
    calc m * twoTo s ≤ (twoTo 53 - 1) * twoTo 2044 := Nat.mul_le_mul hm' (twoTo_le_twoTo hlow)
      _ ≤ (twoTo 53 - 2) * 2 * twoTo 2044 := Nat.mul_le_mul_right _ (by decide)
      _ = (twoTo 53 - 2) * twoTo 2045 := by
        rw [Nat.mul_assoc, Nat.mul_comm 2, ← Binary.twoTo_succ]
  · obtain hlow | rfl : m ≤ twoTo 53 - 2 ∨ m = twoTo 53 - 1 := by omega
    · exact .inr (Nat.mul_le_mul_right _ hlow)
    · exact .inl rfl

namespace Binary

theorem toBinary_of_onGrid? {F : Format} {x : Binary F} {k : Nat} {d : Decimal}
    (h : x.onGrid? k = some d) : d.toBinary F = some x := by
  simp only [onGrid?] at h
  generalize decimalExponent x.ratio.1 x.ratio.2 + 1 - (k : Int) = g at h
  generalize (if 0 ≤ g then (x.ratio.1, x.ratio.2 * tenTo g.toNat)
    else (x.ratio.1 * tenTo (-g).toNat, x.ratio.2)) = quotient at h
  split at h
  · rename_i hlow hhigh
    split at h
    · obtain rfl := Option.some.inj h
      exact eq_of_beq hlow
    · obtain rfl := Option.some.inj h
      exact eq_of_beq hhigh
  · rename_i hlow _
    obtain rfl := Option.some.inj h
    exact eq_of_beq hlow
  · rename_i _ hhigh
    obtain rfl := Option.some.inj h
    exact eq_of_beq hhigh
  · cases h

theorem exact_of_le {F : Format} {x : Binary F} (h : F.lowest ≤ x.scale) :
    x.exact = ⟨x.negative, x.significand * twoTo (x.scale - F.lowest), 0⟩ := by
  simp only [exact, ratio, if_pos h, if_true]

theorem exact_of_lt {F : Format} {x : Binary F} (h : x.scale < F.lowest) :
    x.exact = ⟨x.negative, x.significand * Nat.pow 5 (F.lowest - x.scale),
      -((F.lowest - x.scale : Nat) : Int)⟩ := by
  have hden : twoTo (F.lowest - x.scale) ≠ 1 := by
    have htwo : twoTo 1 ≤ twoTo (F.lowest - x.scale) := twoTo_le_twoTo (by omega)
    have : twoTo 1 = 2 := rfl
    omega
  simp only [exact, ratio, if_neg (Nat.not_le.mpr h), if_neg hden]

theorem within_exact {x : Double} (h : x.units ≤ safeBound * twoTo 1074) :
    Within safeBound x.exact.digits x.exact.exponent := by
  by_cases hs : 1074 ≤ x.scale
  · have hunits : x.significand * twoTo (x.scale - 1074) * twoTo 1074 = x.units := by
      rw [Nat.mul_assoc, ← twoTo_add, Nat.sub_add_cancel hs]
      rfl
    rw [exact_of_le hs, lowest_double]
    refine Nat.mul_le_mul_right _ (Nat.le_of_mul_le_mul_right ?_ (twoTo_pos 1074))
    rw [hunits]
    exact h
  · rw [exact_of_lt (Nat.lt_of_not_le hs), lowest_double, Within, Int.toNat_neg_natCast,
      Int.neg_neg, Int.toNat_natCast]
    have hm : x.significand ≤ safeBound :=
      calc x.significand ≤ 17976931348623156224 :=
            Nat.le_of_lt (Nat.lt_of_lt_of_le x.significand_lt (by decide))
        _ ≤ safeBound := Nat.le_mul_of_pos_right _ (tenTo_pos 289)
    calc x.significand * Nat.pow 5 (1074 - x.scale) * tenTo 0
        = x.significand * Nat.pow 5 (1074 - x.scale) := Nat.mul_one _
      _ ≤ safeBound * tenTo (1074 - x.scale) :=
        Nat.mul_le_mul hm (Nat.pow_le_pow_left (by decide) _)

/-- The shortest decimal of any other double than the largest. -/
theorem within_shortest {x : Double} (h : x.units ≤ (twoTo 53 - 2) * twoTo 2045) :
    Within safeBound x.shortest.digits x.shortest.exponent := by
  have hlt : x.units < maxUnits :=
    Nat.lt_of_le_of_lt h (Nat.mul_lt_mul_of_pos_right (by decide) (twoTo_pos 2045))
  unfold shortest
  split
  · exact within_zero _ _
  cases hfound : (List.range maxDigits).findSome? fun k => x.onGrid? (k + 1) with
  | none => exact within_exact (Nat.le_trans h largestBounds.others)
  | some d =>
    obtain ⟨k, -, hk⟩ := List.exists_of_findSome?_eq_some hfound
    exact Decimal.within_of_toBinary (toBinary_of_onGrid? hk) hlt

end Binary

end SchemaByExample.Number
