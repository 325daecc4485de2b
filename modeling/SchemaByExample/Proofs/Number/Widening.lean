import SchemaByExample.Proofs.Number.NonNegative
import SchemaByExample.Proofs.Number.ReadingBack

/-! Values of a format in a wider one. A value of the narrower format is the value of one number
with one sign in the wider format, and so nothing is rounded. -/
namespace SchemaByExample.Number

variable {F G : Format}

def SameNumber (x : Binary F) (y : Binary G) : Prop :=
  x.negative = y.negative ∧ x.units * twoTo G.lowest = y.units * twoTo F.lowest

namespace Binary

/-- A significand that fits is not rounded, whatever power of two it is multiplied with. -/
theorem roundedUnits_shifted (hp : 0 < F.precision) {m : Nat} (hm : m < twoTo F.precision)
    (t : Nat) : roundedUnits F (m * twoTo t) (twoTo F.lowest) = m * twoTo t := by
  have hscale : ratioScale F (m * twoTo t) (twoTo F.lowest) = scaleOf F (m * twoTo t) := by
    rw [ratioScale, Nat.mul_div_cancel _ (twoTo_pos _)]
  have hle : scaleOf F (m * twoTo t) ≤ t := by
    have hlt : m * twoTo t < twoTo (F.precision + t) := by
      rw [twoTo_add]
      exact Nat.mul_lt_mul_of_pos_right hm (twoTo_pos _)
    have hlog := log2_lt_of_lt_twoTo (by omega) hlt
    rw [scaleOf]
    omega
  generalize scaleOf F (m * twoTo t) = s at hscale hle
  have hsplit : m * twoTo t = m * twoTo (t - s) * twoTo s := by
    rw [Nat.mul_assoc, ← twoTo_add, Nat.sub_add_cancel hle]
  have hsignificand : ratioSignificand F (m * twoTo t) (twoTo F.lowest) = m * twoTo (t - s) := by
    rw [ratioSignificand, hscale, hsplit, Nat.mul_assoc, Nat.mul_comm (twoTo s)]
    exact roundHalfEven_mul _ (Nat.mul_pos (twoTo_pos _) (twoTo_pos _))
  rw [roundedUnits, hsignificand, hscale, hsplit]

/-- Sign and magnitude tell a value. -/
theorem eq_of_units (hp : 0 < F.precision) {x y : Binary F} (hs : x.negative = y.negative)
    (hu : x.units = y.units) : x = y := by
  have hx := ofRatio_units hp x
  rw [hs, hu, ofRatio_units hp y] at hx
  exact (Option.some.inj hx).symm

end Binary

theorem SameNumber.unique (hp : 0 < G.precision) {x : Binary F} {y z : Binary G}
    (hy : SameNumber x y) (hz : SameNumber x z) : y = z :=
  Binary.eq_of_units hp (hy.1.symm.trans hz.1)
    (Nat.eq_of_mul_eq_mul_right (twoTo_pos _) (hy.2.symm.trans hz.2))

structure Wider (F G : Format) : Prop where
  bits : 0 < F.precision ∧ F.precision ≤ G.precision
  scales : 0 < G.scales
  lowest : F.lowest ≤ G.lowest
  highest : F.precision + F.scales + (G.lowest - F.lowest) ≤ G.precision + G.scales

theorem wider_double : Wider Format.single Format.double where
  bits := by decide
  scales := by decide
  lowest := by decide
  highest := by decide

/-- Every value is a value of a wider format. -/
theorem Wider.exists_sameNumber (h : Wider F G) (x : Binary F) : ∃ y : Binary G,
    Binary.ofRatio G x.negative x.units (twoTo F.lowest) = some y ∧ SameNumber x y := by
  obtain ⟨⟨hpF, hbits⟩, hscales, hlowest, hhighest⟩ := h
  have hp : 0 < G.precision := Nat.lt_of_lt_of_le hpF hbits
  have hsplit : twoTo G.lowest = twoTo (G.lowest - F.lowest) * twoTo F.lowest := by
    rw [← twoTo_add, Nat.sub_add_cancel hlowest]
  generalize G.lowest - F.lowest = k at hhighest hsplit
  -- in units of the wider format the magnitude is the same significand, at a higher scale
  have hunits : x.significand * twoTo (x.scale + k) = x.units * twoTo k := by
    rw [twoTo_add, ← Nat.mul_assoc, Binary.units]
  have hsame : x.units * twoTo G.lowest = x.units * twoTo k * twoTo F.lowest := by
    rw [hsplit, Nat.mul_assoc]
  have hrounded := Binary.roundedUnits_shifted hp
    (Nat.lt_of_lt_of_le x.significand_lt (twoTo_le_twoTo hbits)) (x.scale + k)
  have hrange : x.significand * twoTo (x.scale + k) < twoTo (G.precision - 1 + G.scales) := by
    have hscale := x.scale_lt
    calc x.significand * twoTo (x.scale + k)
        < twoTo F.precision * twoTo (x.scale + k) :=
          Nat.mul_lt_mul_of_pos_right x.significand_lt (twoTo_pos _)
      _ = twoTo (F.precision + (x.scale + k)) := (twoTo_add _ _).symm
      _ ≤ twoTo (G.precision - 1 + G.scales) := twoTo_le_twoTo (by omega)
  rw [← hrounded] at hrange
  obtain ⟨y, hy⟩ := Binary.exists_ofRatio hp hscales x.negative hrange
  rw [hunits] at hy hrounded
  refine ⟨y, ?_, (Binary.negative_of_ofRatio hy).symm, ?_⟩
  · rw [← hy]
    exact Binary.ofRatio_congr _ (twoTo_pos _) (twoTo_pos _) hsame
  · rw [Binary.units_of_ofRatio hp hy, hrounded]
    exact hsame

end SchemaByExample.Number
