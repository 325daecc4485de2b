import SchemaByExample.Proofs.Number.Range

/-! Reading back. A binary value is the nearest value to itself, so rounding to nearest takes the
decimal that is written for a double to that double. Two decimals of one number round alike. -/
namespace SchemaByExample.Number

namespace Decimal

/-- Decimals of one number are read as one double. -/
theorem toBinary_congr {d e : Decimal} (hs : d.negative = e.negative)
    (hm : d.magnitude = e.magnitude) : d.toBinary Format.double = e.toBinary Format.double := by
  have hpos (d : Decimal) : 0 < d.ratio.2 := by
    rw [ratio_eq]
    exact tenTo_pos _
  have hne (d : Decimal) : (d.ratio.2 : ℚ) ≠ 0 := by
    exact_mod_cast Nat.ne_of_gt (hpos d)
  rw [magnitude_eq, magnitude_eq, div_eq_div_iff (hne d) (hne e)] at hm
  rw [toBinary_eq, toBinary_eq, hs]
  exact Binary.ofRatio_congr _ (hpos d) (hpos e) (by exact_mod_cast hm)

end Decimal

namespace Binary

variable {F : Format}

theorem scaleOf_units (hp : 0 < F.precision) (x : Binary F) : scaleOf F x.units = x.scale := by
  have hlt : x.units < twoTo (F.precision + x.scale) := by
    rw [twoTo_add]
    exact Nat.mul_lt_mul_of_pos_right x.significand_lt (twoTo_pos _)
  have hlog := log2_lt_of_lt_twoTo (by omega) hlt
  obtain h0 | hnormal := x.normal
  · rw [scaleOf]
    omega
  · have hle : twoTo (F.precision - 1 + x.scale) ≤ x.units := by
      rw [twoTo_add]
      exact Nat.mul_le_mul_right _ hnormal
    have hpos : x.units ≠ 0 := Nat.ne_of_gt (Nat.lt_of_lt_of_le (twoTo_pos _) hle)
    have hlog' := (Nat.le_log2 hpos).mpr hle
    rw [scaleOf]
    omega

/-- A value is the nearest value to itself. -/
theorem ofRatio_units (hp : 0 < F.precision) (x : Binary F) :
    ofRatio F x.negative x.units (twoTo F.lowest) = some x := by
  have hscale : ratioScale F x.units (twoTo F.lowest) = x.scale := by
    rw [ratioScale, Nat.mul_div_cancel _ (twoTo_pos _), scaleOf_units hp]
  have hsignificand : ratioSignificand F x.units (twoTo F.lowest) = x.significand := by
    rw [ratioSignificand, hscale, units, Nat.mul_assoc, Nat.mul_comm (twoTo x.scale)]
    exact roundHalfEven_mul _ (Nat.mul_pos (twoTo_pos _) (twoTo_pos _))
  rw [ofRatio_eq, hscale, hsignificand, if_pos x.significand_lt]
  exact dif_pos ⟨x.significand_lt, x.scale_lt, x.normal⟩

theorem ofRatio_zero (hp : 0 < F.precision) {x : Binary F} (h : x.isZero = true) :
    ofRatio F x.negative 0 1 = some x := by
  have hunits : x.units = 0 := by
    rw [units, eq_of_beq h, Nat.zero_mul]
  rw [← ofRatio_units hp x, hunits]
  exact ofRatio_congr _ Nat.one_pos (twoTo_pos _) (by rw [Nat.zero_mul, Nat.zero_mul])

/-- The exact decimal of a value. -/
theorem ratio_exact (x : Binary F) :
    x.exact.ratio.1 * twoTo F.lowest = x.units * x.exact.ratio.2 := by
  have hone : tenTo 0 = 1 := rfl
  rw [Decimal.ratio_eq]
  by_cases hs : F.lowest ≤ x.scale
  · rw [exact_of_le hs]
    calc x.significand * twoTo (x.scale - F.lowest) * 1 * twoTo F.lowest
        = x.significand * (twoTo (x.scale - F.lowest) * twoTo F.lowest) * 1 := by ring
      _ = x.units * 1 := by rw [← twoTo_add, Nat.sub_add_cancel hs, units]
  · have hten : tenTo (F.lowest - x.scale) =
        Nat.pow 5 (F.lowest - x.scale) * twoTo (F.lowest - x.scale) := Nat.mul_pow 5 2 _
    have hlowest : twoTo F.lowest = twoTo (F.lowest - x.scale) * twoTo x.scale := by
      rw [← twoTo_add]
      congr 1
      omega
    rw [exact_of_lt (Nat.lt_of_not_le hs), Int.toNat_neg_natCast, Int.neg_neg, Int.toNat_natCast,
      hten, hlowest, units, hone]
    ring

theorem toBinary_exact (x : Double) : x.exact.toBinary Format.double = some x := by
  have hnegative : x.exact.negative = x.negative := by
    simp only [exact]
    split <;> rfl
  have hratio := ratio_exact x
  rw [Decimal.toBinary_eq, hnegative, ← ofRatio_units precision_pos x]
  refine ofRatio_congr _ ?_ (twoTo_pos _) hratio
  rw [Decimal.ratio_eq]
  exact tenTo_pos _

/-- What is written for a double is read as that double, by a reader that rounds to nearest. -/
theorem toBinary_shortest (x : Double) : x.shortest.toBinary Format.double = some x := by
  unfold shortest
  split
  · rename_i hzero
    rw [Decimal.toBinary, if_pos rfl]
    exact ofRatio_zero precision_pos hzero
  cases hfound : (List.range maxDigits).findSome? fun k => x.onGrid? (k + 1) with
  | none => exact toBinary_exact x
  | some d =>
    obtain ⟨k, -, hk⟩ := List.exists_of_findSome?_eq_some hfound
    exact toBinary_of_onGrid? hk

end Binary

end SchemaByExample.Number
