import SchemaByExample.Number.Binary

/-! Rounding keeps the order. A ratio that is not larger than another one has a nearest value
if the other has, and that value is not larger. Equal ratios have one nearest value. -/
namespace SchemaByExample.Number

theorem div_le_div_of_ratio {a b c d : Nat} (hb : 0 < b) (hd : 0 < d) (h : a * d ≤ c * b) :
    a / b ≤ c / d := by
  rw [Nat.le_div_iff_mul_le hd]
  refine Nat.le_of_mul_le_mul_right ?_ hb
  calc a / b * d * b = a / b * b * d := Nat.mul_right_comm _ _ _
    _ ≤ a * d := Nat.mul_le_mul_right d (Nat.div_mul_le_self a b)
    _ ≤ c * b := h

theorem div_congr_of_ratio {a b c d : Nat} (hb : 0 < b) (hd : 0 < d) (h : a * d = c * b) :
    a / b = c / d :=
  Nat.le_antisymm (div_le_div_of_ratio hb hd (Nat.le_of_eq h))
    (div_le_div_of_ratio hd hb (Nat.le_of_eq h.symm))

/-- The remainders of equal quotients are ordered as the ratios. -/
theorem mod_le_mod_of_ratio {a b c d : Nat} (h : a * d ≤ c * b) (hq : a / b = c / d) :
    a % b * d ≤ c % d * b := by
  have ha := congrArg (· * d) (Nat.div_add_mod a b)
  have hc := congrArg (· * b) (Nat.div_add_mod c d)
  simp only [Nat.add_mul] at ha hc
  have hcommon : b * (a / b) * d = d * (c / d) * b := by
    rw [hq, Nat.mul_comm b, Nat.mul_comm d, Nat.mul_right_comm]
  omega

theorem roundHalfEven_mono {a b c d : Nat} (hb : 0 < b) (hd : 0 < d) (h : a * d ≤ c * b) :
    roundHalfEven a b ≤ roundHalfEven c d := by
  have hq := div_le_div_of_ratio hb hd h
  by_cases hlt : a / b < c / d
  · exact Nat.le_trans (roundHalfEven_le a b) (Nat.le_trans hlt (div_le_roundHalfEven c d))
  have heq : a / b = c / d := by omega
  have hr := mod_le_mod_of_ratio h heq
  -- rounding up on the left makes the remainder on the right large enough to round up too
  have hup : 2 * (a % b) > b ∨ (2 * (a % b) = b ∧ a / b % 2 = 1) →
      2 * (c % d) > d ∨ (2 * (c % d) = d ∧ c / d % 2 = 1) := by
    intro hup
    have hhalf : b * d ≤ 2 * (a % b) * d := Nat.mul_le_mul_right d (by omega)
    have hge : d ≤ 2 * (c % d) := by
      refine Nat.le_of_mul_le_mul_right (c := b) ?_ hb
      rw [Nat.mul_comm d b, Nat.mul_assoc]
      rw [Nat.mul_assoc] at hhalf
      omega
    by_cases hgt : d < 2 * (c % d)
    · exact .inl hgt
    · refine .inr ⟨by omega, ?_⟩
      obtain hup | ⟨-, hodd⟩ := hup
      · have hstrict : b * d < 2 * (a % b) * d := Nat.mul_lt_mul_of_pos_right hup hd
        have hle : 2 * (c % d) * b ≤ d * b := Nat.mul_le_mul_right b (by omega)
        rw [Nat.mul_assoc] at hstrict hle
        rw [Nat.mul_comm d b] at hle
        omega
      · rwa [heq] at hodd
  simp only [roundHalfEven]
  split
  · rename_i h1
    exact Nat.le_of_eq (by rw [if_pos (hup h1), heq])
  · rw [heq]
    split <;> omega

theorem roundHalfEven_congr {a b c d : Nat} (hb : 0 < b) (hd : 0 < d) (h : a * d = c * b) :
    roundHalfEven a b = roundHalfEven c d :=
  Nat.le_antisymm (roundHalfEven_mono hb hd (Nat.le_of_eq h))
    (roundHalfEven_mono hd hb (Nat.le_of_eq h.symm))

/-- A whole number rounds to itself. -/
theorem roundHalfEven_mul (k : Nat) {b : Nat} (hb : 0 < b) : roundHalfEven (k * b) b = k := by
  have hdiv : k * b / b = k := Nat.mul_div_cancel k hb
  have hmod : k * b % b = 0 := Nat.mul_mod_left k b
  simp only [roundHalfEven, hdiv, hmod]
  rw [if_neg (by omega)]

theorem scaleOf_mono (F : Format) {q r : Nat} (h : q ≤ r) : scaleOf F q ≤ scaleOf F r := by
  have hlog : q.log2 ≤ r.log2 := by
    by_cases hq : q = 0
    · simp [hq]
    · rw [Nat.le_log2 (by omega)]
      exact Nat.le_trans (twoTo_log2_le hq) h
  simp only [scaleOf]
  omega

namespace Binary

variable {F : Format}

def ratioScale (F : Format) (num den : Nat) : Nat := scaleOf F (num * twoTo F.lowest / den)

/-- The significand of a ratio at its scale. It may be one more than fits. -/
def ratioSignificand (F : Format) (num den : Nat) : Nat :=
  roundHalfEven (num * twoTo F.lowest) (den * twoTo (ratioScale F num den))

def roundedUnits (F : Format) (num den : Nat) : Nat :=
  ratioSignificand F num den * twoTo (ratioScale F num den)

theorem ratioSignificand_le (F : Format) (num den : Nat) :
    ratioSignificand F num den ≤ twoTo F.precision := by
  have hlt := div_twoTo_scaleOf_lt F (num * twoTo F.lowest / den)
  have hle := roundHalfEven_le (num * twoTo F.lowest) (den * twoTo (ratioScale F num den))
  rw [Nat.div_div_eq_div_mul] at hlt
  exact Nat.le_trans hle hlt

theorem le_ratioSignificand (hp : 0 < F.precision) {num den : Nat}
    (h : ratioScale F num den ≠ 0) :
    twoTo (F.precision - 1) ≤ ratioSignificand F num den := by
  have hle := le_div_twoTo_scaleOf F (num * twoTo F.lowest / den) hp h
  rw [Nat.div_div_eq_div_mul] at hle
  exact Nat.le_trans hle (div_le_roundHalfEven _ _)

theorem ofRatio_eq (F : Format) (negative : Bool) (num den : Nat) :
    ofRatio F negative num den =
      if ratioSignificand F num den < twoTo F.precision then
        ofParts F negative (ratioSignificand F num den) (ratioScale F num den)
      else ofParts F negative (twoTo (F.precision - 1)) (ratioScale F num den + 1) := rfl

/-- Rounding reads a ratio, not the numbers that it is written with. -/
theorem ofRatio_congr (negative : Bool) {num den num' den' : Nat} (hd : 0 < den) (hd' : 0 < den')
    (h : num * den' = num' * den) :
    ofRatio F negative num den = ofRatio F negative num' den' := by
  have hunits : num * twoTo F.lowest * den' = num' * twoTo F.lowest * den := by
    rw [Nat.mul_right_comm, h, Nat.mul_right_comm]
  have hscale : ratioScale F num den = ratioScale F num' den' :=
    congrArg (scaleOf F) (div_congr_of_ratio hd hd' hunits)
  have hsignificand : ratioSignificand F num den = ratioSignificand F num' den' := by
    rw [ratioSignificand, ratioSignificand, hscale]
    refine roundHalfEven_congr (Nat.mul_pos hd (twoTo_pos _)) (Nat.mul_pos hd' (twoTo_pos _)) ?_
    rw [← Nat.mul_assoc, ← Nat.mul_assoc, hunits]
  rw [ofRatio_eq, ofRatio_eq, hscale, hsignificand]

theorem units_of_ofParts {negative : Bool} {m s : Nat} {x : Binary F}
    (h : ofParts F negative m s = some x) : x.units = m * twoTo s := by
  unfold ofParts at h
  split at h
  · cases h
    rfl
  · cases h

theorem twoTo_succ (n : Nat) : twoTo (n + 1) = twoTo n * 2 := Nat.pow_succ ..

section Positive

variable (hp : 0 < F.precision)

include hp

theorem twoTo_precision : twoTo F.precision = twoTo (F.precision - 1) * 2 := by
  rw [← twoTo_succ, Nat.sub_add_cancel hp]

theorem units_of_ofRatio {negative : Bool} {num den : Nat} {x : Binary F}
    (h : ofRatio F negative num den = some x) : x.units = roundedUnits F num den := by
  rw [ofRatio_eq] at h
  split at h
  · exact units_of_ofParts h
  · have hle := ratioSignificand_le F num den
    have hfull : ratioSignificand F num den = twoTo F.precision := by omega
    rw [units_of_ofParts h, roundedUnits, hfull, twoTo_precision hp, twoTo_succ,
      Nat.mul_assoc, Nat.mul_comm 2]

theorem units_lt (x : Binary F) : x.units < twoTo (F.precision - 1 + F.scales) := by
  have hscale := x.scale_lt
  have hsum : F.precision - 1 + F.scales = F.precision + (F.scales - 1) := by omega
  rw [hsum, twoTo_add]
  calc x.units < twoTo F.precision * twoTo x.scale :=
        Nat.mul_lt_mul_of_pos_right x.significand_lt (twoTo_pos _)
    _ ≤ twoTo F.precision * twoTo (F.scales - 1) :=
        Nat.mul_le_mul_left _ (twoTo_le_twoTo (by omega))

theorem exists_ofRatio (hs : 0 < F.scales) (negative : Bool) {num den : Nat}
    (h : roundedUnits F num den < twoTo (F.precision - 1 + F.scales)) :
    ∃ x, ofRatio F negative num den = some x := by
  rw [ofRatio_eq]
  have hle := ratioSignificand_le F num den
  have hnormal : ratioScale F num den ≠ 0 → twoTo (F.precision - 1) ≤ ratioSignificand F num den :=
    le_ratioSignificand hp
  rw [roundedUnits] at h
  generalize ratioSignificand F num den = m at h hle hnormal ⊢
  generalize ratioScale F num den = s at h hnormal ⊢
  split
  · rename_i hlt
    have hscale : s < F.scales := by
      refine Nat.lt_of_not_le fun hge => ?_
      have hbig : twoTo (F.precision - 1 + F.scales) ≤ m * twoTo s := by
        rw [twoTo_add]
        exact Nat.mul_le_mul (hnormal (by omega)) (twoTo_le_twoTo hge)
      omega
    have hparts : m < twoTo F.precision ∧ s < F.scales ∧ (s = 0 ∨ twoTo (F.precision - 1) ≤ m) :=
      ⟨hlt, hscale, by by_cases h0 : s = 0 <;> simp [h0, hnormal]⟩
    exact ⟨_, dif_pos hparts⟩
  · have hfull : m = twoTo F.precision := by omega
    have hscale : s + 1 < F.scales := by
      refine Nat.lt_of_not_le fun hge => ?_
      have hbig : twoTo (F.precision - 1 + F.scales) ≤ m * twoTo s := by
        rw [hfull, ← twoTo_add]
        exact twoTo_le_twoTo (by omega)
      omega
    have hhalf : twoTo (F.precision - 1) < twoTo F.precision := by
      have := twoTo_pos (F.precision - 1)
      rw [twoTo_precision hp]
      omega
    have hparts : twoTo (F.precision - 1) < twoTo F.precision ∧ s + 1 < F.scales ∧
        (s + 1 = 0 ∨ twoTo (F.precision - 1) ≤ twoTo (F.precision - 1)) :=
      ⟨hhalf, hscale, .inr (Nat.le_refl _)⟩
    exact ⟨_, dif_pos hparts⟩

theorem roundedUnits_mono {num den num' den' : Nat} (hd : 0 < den) (hd' : 0 < den')
    (h : num * den' ≤ num' * den) : roundedUnits F num den ≤ roundedUnits F num' den' := by
  have hunits : num * twoTo F.lowest * den' ≤ num' * twoTo F.lowest * den := by
    rw [Nat.mul_right_comm, Nat.mul_right_comm num']
    exact Nat.mul_le_mul_right _ h
  have hscale : ratioScale F num den ≤ ratioScale F num' den' :=
    scaleOf_mono F (div_le_div_of_ratio hd hd' hunits)
  by_cases heq : ratioScale F num den = ratioScale F num' den'
  · rw [roundedUnits, roundedUnits, ratioSignificand, ratioSignificand, heq]
    refine Nat.mul_le_mul_right _ (roundHalfEven_mono (Nat.mul_pos hd (twoTo_pos _))
      (Nat.mul_pos hd' (twoTo_pos _)) ?_)
    rw [← Nat.mul_assoc, ← Nat.mul_assoc]
    exact Nat.mul_le_mul_right _ hunits
  · -- a smaller scale ends where the next one begins
    have hlt : ratioScale F num den + 1 ≤ ratioScale F num' den' := by omega
    calc roundedUnits F num den
        ≤ twoTo F.precision * twoTo (ratioScale F num den) :=
          Nat.mul_le_mul_right _ (ratioSignificand_le F num den)
      _ = twoTo (F.precision - 1) * twoTo (ratioScale F num den + 1) := by
          rw [twoTo_precision hp, twoTo_succ, Nat.mul_assoc, Nat.mul_comm 2]
      _ ≤ roundedUnits F num' den' :=
          Nat.mul_le_mul (le_ratioSignificand hp (by omega)) (twoTo_le_twoTo hlt)

/-- A ratio that is not larger than one with a nearest value has one too, not larger. -/
theorem ofRatio_mono (hs : 0 < F.scales) {num den num' den' : Nat} (hd : 0 < den)
    (hd' : 0 < den') (h : num * den' ≤ num' * den) (negative : Bool) {negative' : Bool}
    {y : Binary F} (hy : ofRatio F negative' num' den' = some y) :
    ∃ x, ofRatio F negative num den = some x ∧ x.units ≤ y.units := by
  have hmono := roundedUnits_mono hp hd hd' h
  rw [← units_of_ofRatio hp hy] at hmono
  obtain ⟨x, hx⟩ := exists_ofRatio hp hs negative (Nat.lt_of_le_of_lt hmono (units_lt hp y))
  exact ⟨x, hx, by rw [units_of_ofRatio hp hx]; exact hmono⟩

end Positive

end Binary

end SchemaByExample.Number
