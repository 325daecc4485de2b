import SchemaByExample.Number.Scale
import SchemaByExample.Proofs.Number.Rounding

/-! When a word times a power of ten is a double. Powers of ten below one lose nothing; above
one a smaller word does if a larger one does, and so a bound for each power decides. -/
namespace SchemaByExample.Number

open Extended

theorem precision_pos : 0 < Format.double.precision := by decide

theorem scales_pos : 0 < Format.double.scales := by decide

theorem lowest_double : Format.double.lowest = 1074 := rfl

theorem ofRatio_eq_finite_iff {F : Format} {negative : Bool} {num den : Nat} {x : Binary F} :
    Extended.ofRatio F negative num den = .finite x ↔
      Binary.ofRatio F negative num den = some x := by
  unfold Extended.ofRatio
  split
  · rename_i y hy
    rw [hy, Extended.finite.injEq, Option.some.injEq]
  · rename_i hy
    rw [hy]
    constructor <;> nofun

theorem ofRatio_finite_mono {num den num' den' : Nat} (hd : 0 < den) (hd' : 0 < den')
    (h : num * den' ≤ num' * den) (negative : Bool) {negative' : Bool} {y : Double}
    (hy : Extended.ofRatio Format.double negative' num' den' = .finite y) :
    ∃ x, Extended.ofRatio Format.double negative num den = .finite x ∧ x.units ≤ y.units := by
  obtain ⟨x, hx, hle⟩ := Binary.ofRatio_mono precision_pos scales_pos hd hd' h negative
    (ofRatio_eq_finite_iff.mp hy)
  exact ⟨x, ofRatio_eq_finite_iff.mpr hx, hle⟩

def maxUnits : Nat := (twoTo 53 - 1) * twoTo 2045

theorem tenTo_pos (n : Nat) : 0 < tenTo n := Nat.pow_pos (by decide)

theorem tenTo_add (m n : Nat) : tenTo (m + n) = tenTo m * tenTo n := Nat.pow_add 10 m n

theorem tenTo_succ (n : Nat) : tenTo (n + 1) = tenTo n * 10 := Nat.pow_succ ..

theorem tenTo_le_tenTo {m n : Nat} (h : m ≤ n) : tenTo m ≤ tenTo n :=
  Nat.pow_le_pow_right (by decide) h

/-- A number just below the largest double. With a word of 64 bits and the power of ten that
goes with it, no number up to here is out of range. -/
def safeBound : Nat := 17976931348623156224 * tenTo 289

/-- Everything about the largest numbers that has to be computed. A word below the bound is in
range with any power up to `10 ^ 288`, and with each power beyond up to the bound. -/
structure LargestBounds : Prop where
  largest : (Binary.ofRatio Format.double false maxUnits (twoTo 1074)).isSome
  power : tenTo maxPower * twoTo 1074 ≤ maxUnits
  one : Binary.roundedUnits Format.double 1 1 = twoTo 1074
  bound : Binary.roundedUnits Format.double safeBound 1 = maxUnits
  others : (twoTo 53 - 2) * twoTo 2045 ≤ safeBound * twoTo 1074
  word : (scaleByTen false 0xFFFFFFFFFFFFFFFF 288).isSome
  powers : (List.range 20).all fun k =>
    (scaleByTen false (17976931348623156224 / tenTo k) (289 + k : Nat)).isSome

theorem largestBounds : LargestBounds := by
  constructor <;> decide +kernel

theorem units_le_maxUnits (x : Double) : x.units ≤ maxUnits := by
  have hm : x.significand ≤ twoTo 53 - 1 := Nat.le_sub_one_of_lt x.significand_lt
  have hs : x.scale ≤ 2045 := Nat.le_of_lt_succ x.scale_lt
  exact Nat.mul_le_mul hm (twoTo_le_twoTo hs)

/-- A ratio up to the largest double is one. -/
theorem ofRatio_finite_of_le {num den : Nat} (hd : 0 < den)
    (h : num * twoTo 1074 ≤ maxUnits * den) (negative : Bool) :
    ∃ x, Extended.ofRatio Format.double negative num den = .finite x := by
  obtain ⟨top, htop⟩ := Option.isSome_iff_exists.mp largestBounds.largest
  obtain ⟨x, hx, -⟩ := ofRatio_finite_mono hd (twoTo_pos 1074) h negative
    (ofRatio_eq_finite_iff.mpr htop)
  exact ⟨x, hx⟩

/-- Powers of ten up to the largest are doubles, and grow. -/
theorem powerOfTen_mono {m n : Nat} (h : m ≤ n) (hn : n ≤ maxPower) :
    ∃ p q, powerOfTen m = .finite p ∧ powerOfTen n = .finite q ∧ p.units ≤ q.units := by
  have hsmall : tenTo n * twoTo 1074 ≤ maxUnits * 1 := by
    rw [Nat.mul_one]
    exact Nat.le_trans (Nat.mul_le_mul_right _ (tenTo_le_tenTo hn)) largestBounds.power
  obtain ⟨q, hq⟩ := ofRatio_finite_of_le Nat.one_pos hsmall false
  have hle : tenTo m * 1 ≤ tenTo n * 1 := Nat.mul_le_mul_right 1 (tenTo_le_tenTo h)
  obtain ⟨p, hp, hpq⟩ := ofRatio_finite_mono Nat.one_pos Nat.one_pos hle false hq
  exact ⟨p, q, hp, hq, hpq⟩

/-- Powers of ten are at least one. -/
theorem powerOfTen_finite {n : Nat} (h : n ≤ maxPower) :
    ∃ p, powerOfTen n = .finite p ∧ twoTo 1074 ≤ p.units := by
  obtain ⟨one, p, hone, hp, hle⟩ := powerOfTen_mono (Nat.zero_le n) h
  have hunits : one.units = Binary.roundedUnits Format.double 1 1 :=
    Binary.units_of_ofRatio precision_pos (ofRatio_eq_finite_iff.mp hone)
  rw [hunits, largestBounds.one] at hle
  exact ⟨p, hp, hle⟩

theorem div_powerOfTen_finite (x : Double) {n : Nat} (h : n ≤ maxPower) :
    ∃ y, Extended.div (.finite x) (powerOfTen n) = .finite y := by
  obtain ⟨p, hp, hone⟩ := powerOfTen_finite h
  have hzero : p.isZero = false := by
    simp only [Binary.isZero, beq_eq_false_iff_ne]
    intro h0
    rw [Binary.units, h0, Nat.zero_mul] at hone
    exact absurd (twoTo_pos 1074) (by omega)
  rw [hp]
  simp only [Extended.div, hzero, Bool.false_eq_true, if_false]
  have hpos : 0 < p.units := Nat.lt_of_lt_of_le (twoTo_pos _) hone
  exact ofRatio_finite_of_le hpos (Nat.mul_le_mul (units_le_maxUnits x) hone) _

theorem divideByTen_finite (fuel : Nat) (x : Double) (n : Nat) :
    ∃ y, divideByTen fuel (.finite x) n = .finite y := by
  induction fuel generalizing x n with
  | zero => exact ⟨x, rfl⟩
  | succ fuel ih =>
    rw [divideByTen]
    split
    · exact div_powerOfTen_finite x ‹_›
    split
    · exact ⟨x, rfl⟩
    · obtain ⟨y, hy⟩ := div_powerOfTen_finite x (Nat.le_refl maxPower)
      rw [hy]
      exact ih y _

theorem ofInt_mono {m n : Nat} (h : m ≤ n) {y : Double}
    (hy : Extended.ofInt Format.double n = .finite y) :
    ∃ x, Extended.ofInt Format.double m = .finite x ∧ x.units ≤ y.units := by
  unfold Extended.ofInt at hy ⊢
  refine ofRatio_finite_mono Nat.one_pos Nat.one_pos ?_ _ hy
  simpa using h

theorem ofInt_finite {n : Nat} (h : n < 0x10000000000000000) :
    ∃ x, Extended.ofInt Format.double n = .finite x := by
  refine ofRatio_finite_of_le Nat.one_pos ?_ _
  calc (n : Int).natAbs * twoTo 1074 ≤ twoTo 64 * twoTo 1074 :=
        Nat.mul_le_mul_right _ (Nat.le_of_lt h)
    _ ≤ twoTo 2045 := by
        rw [← twoTo_add]
        exact twoTo_le_twoTo (by decide)
    _ ≤ maxUnits := Nat.le_mul_of_pos_left _ (by decide)
    _ = maxUnits * 1 := (Nat.mul_one _).symm

theorem mul_finite_mono {x y p q z : Double} (hx : x.units ≤ y.units) (hp : p.units ≤ q.units)
    (hz : Extended.mul (.finite y) (.finite q) = .finite z) :
    ∃ w, Extended.mul (.finite x) (.finite p) = .finite w := by
  simp only [Extended.mul] at hz ⊢
  have hle : x.units * p.units ≤ y.units * q.units := Nat.mul_le_mul hx hp
  obtain ⟨w, hw, -⟩ := ofRatio_finite_mono (twoTo_pos _) (twoTo_pos _)
    (Nat.mul_le_mul_right _ hle) (x.negative != p.negative) hz
  exact ⟨w, hw⟩

/-! Words times powers of ten. -/

theorem isSome_map_finite? {e : Extended Format.double} {f : Double → Double} :
    ((e.finite?).map f).isSome = true ↔ ∃ x, e = .finite x := by
  rw [Option.isSome_map]
  cases e <;> simp [Extended.finite?]

theorem scaleByTen_negative (negative : Bool) {n : Nat} (hn : n < 0x10000000000000000)
    {exponent : Int} (h : exponent < 0) : (scaleByTen negative n exponent).isSome = true := by
  obtain ⟨x, hx⟩ := ofInt_finite hn
  simp only [scaleByTen, if_pos h, hx]
  exact isSome_map_finite?.mpr (divideByTen_finite _ x _)

theorem scaleByTen_isSome_iff (negative : Bool) (n : Nat) {e : Nat} (he : e ≤ maxPower) :
    (scaleByTen negative n e).isSome = true ↔
      ∃ x, Extended.mul (Extended.ofInt _ n) (powerOfTen e) = .finite x := by
  have hneg : ¬(e : Int) < 0 := by omega
  simp only [scaleByTen, if_neg hneg, Int.toNat_natCast, if_pos he]
  exact isSome_map_finite?

/-- A smaller word times a smaller power is in range if the larger ones are. -/
theorem scaleByTen_mono {m n d e : Nat} (h : m ≤ n) (hn : n < 0x10000000000000000)
    (hd : d ≤ e) (he : e ≤ maxPower) {negative : Bool}
    (hs : (scaleByTen negative n e).isSome = true) (negative' : Bool) :
    (scaleByTen negative' m d).isSome = true := by
  obtain ⟨y, hy⟩ := ofInt_finite hn
  obtain ⟨x, hx, hxy⟩ := ofInt_mono h hy
  obtain ⟨p, q, hp, hq, hpq⟩ := powerOfTen_mono hd he
  rw [scaleByTen_isSome_iff _ _ he, hy, hq] at hs
  rw [scaleByTen_isSome_iff _ _ (Nat.le_trans hd he), hx, hp]
  obtain ⟨z, hz⟩ := hs
  exact mul_finite_mono hxy hpq hz

theorem scaleByTen_of_le (negative : Bool) {n e : Nat} (hn : n < 0x10000000000000000)
    (he : e ≤ maxPower) (h : n * tenTo e ≤ safeBound) :
    (scaleByTen negative n e).isSome = true := by
  by_cases hsmall : e ≤ 288
  · exact scaleByTen_mono (Nat.le_of_lt_succ hn) (by decide) hsmall (by decide)
      largestBounds.word negative
  · obtain ⟨k, rfl⟩ := Nat.exists_eq_add_of_le (Nat.lt_of_not_le hsmall)
    have hk : k < 20 := by
      have : maxPower = 308 := rfl
      omega
    have hbound := List.all_eq_true.mp largestBounds.powers k (List.mem_range.mpr hk)
    have hle : n * tenTo k ≤ 17976931348623156224 := by
      refine Nat.le_of_mul_le_mul_right ?_ (tenTo_pos 289)
      calc n * tenTo k * tenTo 289 = n * tenTo (289 + k) := by
            rw [tenTo_add, Nat.mul_assoc, Nat.mul_comm (tenTo k)]
        _ ≤ safeBound := h
    refine scaleByTen_mono ((Nat.le_div_iff_mul_le (tenTo_pos k)).mpr hle) ?_ (Nat.le_refl _) he
      hbound negative
    exact Nat.lt_of_le_of_lt (Nat.div_le_self _ _) (by decide)

theorem safeBound_lt : safeBound < tenTo (maxPower + 1) := by
  have hsplit : tenTo (maxPower + 1) = tenTo 20 * tenTo 289 := (tenTo_add 20 289)
  rw [hsplit, safeBound]
  exact Nat.mul_lt_mul_of_pos_right (by decide) (tenTo_pos 289)

def Within (c n : Nat) (e : Int) : Prop := n * tenTo e.toNat ≤ c * tenTo (-e).toNat

theorem Within.mono {c m n : Nat} {e : Int} (h : Within c n e) (hle : m ≤ n) : Within c m e :=
  Nat.le_trans (Nat.mul_le_mul_right _ hle) h

theorem within_zero (c : Nat) (e : Int) : Within c 0 e := by
  rw [Within, Nat.zero_mul]
  exact Nat.zero_le _

/-- Zeros at the end of a number may be counted in its exponent. -/
theorem within_shift {c n k : Nat} {e : Int} : Within c (n * tenTo k) e ↔ Within c n (e + k) := by
  have hpowers : k + e.toNat + (-(e + k)).toNat = (e + k).toNat + (-e).toNat := by omega
  have hleft : n * tenTo k * tenTo e.toNat * tenTo (-(e + k)).toNat =
      n * tenTo (e + k).toNat * tenTo (-e).toNat := by
    rw [Nat.mul_assoc n, Nat.mul_assoc n, Nat.mul_assoc n, ← tenTo_add, ← tenTo_add, ← tenTo_add,
      hpowers]
  have hright : c * tenTo (-e).toNat * tenTo (-(e + k)).toNat =
      c * tenTo (-(e + k)).toNat * tenTo (-e).toNat := Nat.mul_right_comm ..
  constructor
  · intro h
    refine Nat.le_of_mul_le_mul_right ?_ (tenTo_pos (-e).toNat)
    rw [← hleft, ← hright]
    exact Nat.mul_le_mul_right _ h
  · intro h
    refine Nat.le_of_mul_le_mul_right ?_ (tenTo_pos (-(e + k)).toNat)
    rw [hleft, hright]
    exact Nat.mul_le_mul_right _ h

/-- The exponent of a number in range, unless it is zero. -/
theorem le_maxPower_of_within {n : Nat} {e : Int} (hn : n ≠ 0) (h : Within safeBound n e) :
    e ≤ maxPower := by
  refine Int.not_lt.mp fun hlt => ?_
  have hneg : (-e).toNat = 0 := by omega
  have hle : tenTo (maxPower + 1) ≤ n * tenTo e.toNat :=
    Nat.le_trans (tenTo_le_tenTo (by omega)) (Nat.le_mul_of_pos_left _ (Nat.pos_of_ne_zero hn))
  rw [Within, hneg] at h
  exact absurd (Nat.le_trans hle h) (by simpa [tenTo] using safeBound_lt)

/-- A word times a power of ten is a double up to the bound. -/
theorem scaleByTen_of_within (negative : Bool) {n : Nat} {e : Int}
    (hn : n < 0x10000000000000000) (h : Within safeBound n e) :
    (scaleByTen negative n e).isSome = true := by
  by_cases hneg : e < 0
  · exact scaleByTen_negative negative hn hneg
  obtain ⟨k, rfl⟩ := Int.eq_ofNat_of_zero_le (Int.not_lt.mp hneg)
  by_cases hk : k ≤ maxPower
  · refine scaleByTen_of_le negative hn hk ?_
    simpa [Within, tenTo] using h
  · have h0 : n = 0 := by
      refine Decidable.byContradiction fun hne => ?_
      have := le_maxPower_of_within hne h
      omega
    obtain ⟨x, hx⟩ := ofInt_finite hn
    simp only [scaleByTen, if_neg hneg, Int.toNat_natCast, if_neg hk, if_pos h0, hx]
    rfl

end SchemaByExample.Number
