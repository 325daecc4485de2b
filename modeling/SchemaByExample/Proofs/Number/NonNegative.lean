import SchemaByExample.Proofs.Number.Scaling

/-! Values that are not below zero. Sums and products of such values are such values, also
beyond the format, and so is the difference of a finite value and itself. -/
namespace SchemaByExample.Number

theorem Binary.negative_of_ofRatio {F : Format} {negative : Bool} {num den : Nat} {x : Binary F}
    (h : Binary.ofRatio F negative num den = some x) : x.negative = negative := by
  have hparts {m s : Nat} (hx : Binary.ofParts F negative m s = some x) :
      x.negative = negative := by
    unfold Binary.ofParts at hx
    split at hx
    · cases hx
      rfl
    · cases hx
  rw [Binary.ofRatio_eq] at h
  split at h
  · exact hparts h
  · exact hparts h

namespace Extended

variable {F : Format} {a b : Extended F}

/-- A number without a minus sign; an infinity counts as one. -/
inductive NonNegative : Extended F → Prop
  | infinite : NonNegative (.infinite false)
  | finite {x : Binary F} : x.negative = false → NonNegative (.finite x)

theorem nonNegative_ofRatio (num den : Nat) : NonNegative (ofRatio F false num den) := by
  unfold ofRatio
  split
  · exact .finite (Binary.negative_of_ofRatio ‹_›)
  · exact .infinite

theorem nonNegative_ofInt (n : Nat) : NonNegative (ofInt F n) := by
  have hneg : decide ((n : Int) < 0) = false := by simp
  rw [ofInt, hneg]
  exact nonNegative_ofRatio _ _

theorem signedUnits_nonneg {x : Binary F} (h : x.negative = false) : 0 ≤ x.signedUnits := by
  simp [Binary.signedUnits, h]

theorem NonNegative.add (ha : NonNegative a) (hb : NonNegative b) : NonNegative (a.add b) := by
  cases ha with
  | infinite =>
    cases hb with
    | infinite => exact .infinite
    | finite _ => exact .infinite
  | @finite x hx =>
    cases hb with
    | infinite => exact .infinite
    | @finite y hy =>
      have hsum : ¬x.signedUnits + y.signedUnits < 0 := by
        have := signedUnits_nonneg hx
        have := signedUnits_nonneg hy
        omega
      simp only [Extended.add, hx, Bool.false_and, decide_eq_false hsum, ite_self]
      exact nonNegative_ofRatio _ _

theorem NonNegative.mul {y : Binary F} (ha : NonNegative a) (hy : y.negative = false)
    (hzero : y.isZero = false) : NonNegative (a.mul (.finite y)) := by
  cases ha with
  | infinite =>
    simp only [Extended.mul, hzero, Bool.false_eq_true, if_false, hy]
    exact .infinite
  | finite hx =>
    simp only [Extended.mul, hx, hy, bne_self_eq_false]
    exact nonNegative_ofRatio _ _

def zero : Double := ⟨false, 0, 0, by decide, by decide, .inl rfl⟩

theorem ofInt_zero : ofInt Format.double 0 = .finite zero := by decide +kernel

theorem NonNegative.le {a : Extended Format.double} (h : NonNegative a) :
    le (ofInt _ 0) a = true := by
  rw [ofInt_zero]
  cases h with
  | infinite => rfl
  | @finite x hx =>
    have hz : zero.signedUnits = 0 := rfl
    simp only [Extended.le, compare?, hz]
    obtain hlt | heq := Int.lt_or_eq_of_le (signedUnits_nonneg hx)
    · rw [Int.compare_eq_lt.mpr hlt]
    · rw [← heq]
      rfl

theorem NonNegative.sub_zero {a : Extended Format.double} (h : NonNegative a) :
    NonNegative (a.sub (.finite zero)) := by
  cases h with
  | infinite => exact .infinite
  | @finite x hx =>
    have hz : zero.neg.signedUnits = 0 := rfl
    have hsum : ¬x.signedUnits < 0 := Int.not_lt.mpr (signedUnits_nonneg hx)
    simp only [sub, neg, Extended.add, hz, Int.add_zero, hx, Bool.false_and,
      decide_eq_false hsum, ite_self]
    exact nonNegative_ofRatio _ _

theorem nonNegative_sub_self (x : Binary F) : NonNegative (sub (.finite x) (.finite x)) := by
  have hsum : x.signedUnits + x.neg.signedUnits = 0 := by
    have hunits : x.neg.units = x.units := rfl
    have hneg : x.neg.negative = !x.negative := rfl
    rw [Binary.signedUnits, Binary.signedUnits, hunits, hneg]
    cases x.negative
    · exact Int.add_right_neg _
    · exact Int.add_left_neg _
  have hneg : (x.negative && x.neg.negative) = false := by
    rw [Binary.neg]
    cases x.negative <;> rfl
  simp only [sub, neg, Extended.add, hsum, if_true, hneg]
  exact nonNegative_ofRatio _ _

theorem sub_infinite_self (s : Bool) : sub (.infinite s : Extended F) (.infinite s) = .nan := by
  cases s <;> rfl

theorem le_nan (a : Extended F) : le a .nan = false := by
  cases a <;> rfl

theorem nan_add (a : Extended F) : add .nan a = .nan := by
  cases a <;> rfl

theorem sub_nan (a : Extended F) : sub a .nan = .nan := by
  cases a <;> rfl

end Extended

end SchemaByExample.Number
