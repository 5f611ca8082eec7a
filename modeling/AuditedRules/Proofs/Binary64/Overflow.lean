import AuditedRules.Proofs.Binary64.Rounding

/-!
# Overflow

The greatest finite magnitude has the significand `2^53 - 1` at `2045` places, and the next one
would be `2^2098` units. A quotient in the middle of the two has the tie to the even significand,
which is the upper one. So the quotients that are rounded to an infinity are those from the middle
on (`isFinite_round_iff`).

Of two finite values a sum, a product, and a quotient by anything but zero are finite exactly when
the exact result is below that middle.
-/

namespace AuditedRules

/-- Half of the step between the greatest finite magnitudes. -/
def lastHalfStep : Nat := Nat.pow 2 2044

/-- The least number of units that is rounded to an infinity, `2^2098 - 2^2044`. -/
def overflowThreshold : Nat := (2 * maxSignificand - 1) * lastHalfStep

/-- Half a step is not zero. -/
theorem lastHalfStep_pos : 0 < lastHalfStep := by
  unfold lastHalfStep
  generalize 2044 = places
  exact Nat.two_pow_pos places

/-- The threshold is not zero. -/
theorem overflowThreshold_pos : 0 < overflowThreshold :=
  Nat.mul_pos (by decide) lastHalfStep_pos

/-- The bound is twice the greatest significand of half steps. -/
theorem unitsOverflow_eq : unitsOverflow = 2 * maxSignificand * lastHalfStep := by
  unfold unitsOverflow lastHalfStep
  rw [show 2098 = 54 + 2044 from rfl]
  generalize 2044 = places
  exact Nat.pow_add 2 54 places

/-- With more places a step is that many times doubled. -/
theorem pow_add_lastHalfStep (places : Nat) :
    Nat.pow 2 (2044 + places) = Nat.pow 2 places * lastHalfStep := by
  unfold lastHalfStep
  generalize 2044 = last
  rw [Nat.mul_comm]
  exact Nat.pow_add 2 last places

/-- With fewer places a step is no greater. -/
theorem pow_le_lastHalfStep {places : Nat} (h : places ≤ 2044) :
    Nat.pow 2 places ≤ lastHalfStep := by
  unfold lastHalfStep
  generalize 2044 = last at h ⊢
  exact Nat.pow_le_pow_right (by decide) h

/-! ## Rounding to whole numbers -/

/-- A quotient is not rounded to less than its whole part. -/
theorem le_roundToEven (numerator denominator : Nat) :
    numerator / denominator ≤ roundToEven numerator denominator := by
  unfold roundToEven
  dsimp only
  split
  · exact Nat.le_refl _
  · split
    · exact Nat.le_succ _
    · split
      · exact Nat.le_refl _
      · exact Nat.le_succ _

/-- A quotient is rounded to no more than an odd number exactly when it is less than a half
above it. -/
theorem roundToEven_le_iff_of_odd {numerator denominator n : Nat} (hpos : 0 < denominator)
    (hodd : n % 2 = 1) :
    roundToEven numerator denominator ≤ n ↔ 2 * numerator < (2 * n + 1) * denominator := by
  have hdivision := Nat.div_add_mod' numerator denominator
  have hremainder := Nat.mod_lt numerator hpos
  have hmiddle : (2 * n + 1) * denominator = 2 * (n * denominator) + denominator := by
    rw [Nat.add_mul, Nat.mul_assoc, Nat.one_mul]
  rw [hmiddle]
  unfold roundToEven
  generalize numerator / denominator = floor, numerator % denominator = remainder at *
  dsimp only
  rcases Nat.lt_trichotomy floor n with hlt | rfl | hgt
  · -- Rounding up from a lesser whole part does not go beyond.
    have hfar : (floor + 1) * denominator ≤ n * denominator := Nat.mul_le_mul_right _ hlt
    rw [Nat.add_mul] at hfar
    refine iff_of_true ?_ (by omega)
    split
    · omega
    · split
      · exact hlt
      · split <;> omega
  · -- On the tie the whole part is odd, so it is not what is taken.
    split
    · exact iff_of_true (Nat.le_refl _) (by omega)
    · split
      · exact iff_of_false (by omega) (by omega)
      · rw [if_neg (by omega)]
        exact iff_of_false (by omega) (by omega)
  · -- Rounding down from a greater whole part does not get back.
    have hfar : (n + 1) * denominator ≤ floor * denominator := Nat.mul_le_mul_right _ hgt
    rw [Nat.add_mul] at hfar
    refine iff_of_false ?_ (by omega)
    split
    · omega
    · split
      · omega
      · split <;> omega

namespace Binary64

/-! ## Rounding to doubles -/

/-- A scaled significand is finite unless it overflows. -/
theorem isFinite_ofScaled_iff (negative : Bool) {significand shift : Nat}
    (hle : significand ≤ maxSignificand) :
    (ofScaled negative significand shift hle).isFinite = true ↔
      significand * Nat.pow 2 shift < unitsOverflow := by
  unfold ofScaled
  split
  · rename_i hlt
    exact iff_of_true rfl hlt
  · rename_i hnot
    exact iff_of_false Bool.false_ne_true hnot

/-- With two places more than half a step takes, the least significand with excess places
overflows. -/
theorem overflows_of_excessPlaces {numerator denominator places : Nat} (hpos : 0 < denominator)
    (hshift : excessPlaces (numerator / denominator) = 2044 + (places + 2)) :
    unitsOverflow * denominator ≤ numerator ∧
      unitsOverflow ≤ roundedSignificand numerator denominator (2044 + (places + 2)) *
        Nat.pow 2 (2044 + (places + 2)) := by
  have hplaces : excessPlaces (numerator / denominator) ≠ 0 := by omega
  have hhalf := maxSignificand_mul_le hplaces
  have hfloor := le_roundToEven numerator (denominator * Nat.pow 2 (2044 + (places + 2)))
  have hsteps : 4 * lastHalfStep ≤ Nat.pow 2 (2044 + (places + 2)) := by
    have hfour : Nat.pow 2 2 ≤ Nat.pow 2 (places + 2) :=
      Nat.pow_le_pow_right (by decide) (Nat.le_add_left 2 places)
    rw [pow_add_lastHalfStep]
    exact Nat.mul_le_mul_right _ hfour
  rw [hshift] at hhalf
  rw [← Nat.div_div_eq_div_mul] at hfloor
  unfold roundedSignificand
  rw [unitsOverflow_eq]
  -- From here on all that counts of the step is that it has four half steps at least.
  generalize Nat.pow 2 (2044 + (places + 2)) = step at *
  have hstep : 0 < step := by
    have := lastHalfStep_pos
    omega
  constructor
  · have hquotient : 2 * maxSignificand * lastHalfStep ≤ numerator / denominator := by
      have hgreater := Nat.mul_le_mul_left maxSignificand hsteps
      unfold maxSignificand at hgreater hhalf ⊢
      omega
    exact (Nat.le_div_iff_mul_le hpos).1 hquotient
  · have hsignificand : 2 ^ 52 ≤ numerator / denominator / step := by
      rw [Nat.le_div_iff_mul_le hstep]
      unfold maxSignificand at hhalf
      omega
    calc 2 * maxSignificand * lastHalfStep
        = 2 ^ 52 * (4 * lastHalfStep) := by
          unfold maxSignificand
          omega
      _ ≤ roundToEven numerator (denominator * step) * step :=
          Nat.mul_le_mul (Nat.le_trans hsignificand hfloor) hsteps

/-- A quotient is rounded to a finite value exactly when it is below the threshold. -/
theorem isFinite_round_iff (negative : Bool) {numerator denominator : Nat}
    (hpos : 0 < denominator) :
    (round negative numerator denominator).isFinite = true ↔
      numerator < overflowThreshold * denominator := by
  unfold round
  rw [isFinite_ofScaled_iff, overflowThreshold]
  have hsignificand := roundedSignificand_le numerator denominator
  have hstep := lastHalfStep_pos
  generalize hshift : excessPlaces (numerator / denominator) = shift at *
  rcases Nat.lt_trichotomy shift (2044 + 1) with hlt | rfl | hgt
  · -- Even the greatest significand does not overflow at so few places.
    have hplaces := pow_le_lastHalfStep (Nat.le_of_lt_succ hlt)
    rw [unitsOverflow_eq]
    refine iff_of_true ?_ ?_
    · calc roundedSignificand numerator denominator shift * Nat.pow 2 shift
          ≤ maxSignificand * lastHalfStep := Nat.mul_le_mul hsignificand hplaces
        _ < 2 * maxSignificand * lastHalfStep := Nat.mul_lt_mul_of_pos_right (by decide) hstep
    · calc numerator
          < maxSignificand * Nat.pow 2 shift * denominator :=
            lt_of_excessPlaces_lt hpos (Nat.le_of_eq hshift)
        _ ≤ maxSignificand * lastHalfStep * denominator :=
            Nat.mul_le_mul_right _ (Nat.mul_le_mul_left _ hplaces)
        _ ≤ (2 * maxSignificand - 1) * lastHalfStep * denominator :=
            Nat.mul_le_mul_right _ (Nat.mul_le_mul_right _ (by decide))
  · -- The greatest significand overflows, and the one before it, which is odd, does not.
    have hpow : Nat.pow 2 (2044 + 1) = 2 * lastHalfStep :=
      (pow_add_lastHalfStep 1).trans (congrArg (· * lastHalfStep) (Nat.pow_one 2))
    have hpos' : 0 < denominator * (2 * lastHalfStep) :=
      Nat.mul_pos hpos (Nat.mul_pos Nat.two_pos hstep)
    unfold roundedSignificand
    rw [unitsOverflow_eq, hpow]
    calc roundToEven numerator (denominator * (2 * lastHalfStep)) * (2 * lastHalfStep) <
          2 * maxSignificand * lastHalfStep
        ↔ roundToEven numerator (denominator * (2 * lastHalfStep)) < maxSignificand := by
          rw [Nat.mul_comm 2 maxSignificand, Nat.mul_assoc]
          exact Nat.mul_lt_mul_right (Nat.mul_pos Nat.two_pos hstep)
      _ ↔ roundToEven numerator (denominator * (2 * lastHalfStep)) ≤ maxSignificand - 1 :=
          Nat.lt_iff_le_pred (by decide)
      _ ↔ 2 * numerator < (2 * maxSignificand - 1) * (denominator * (2 * lastHalfStep)) :=
          roundToEven_le_iff_of_odd hpos' (by decide)
      _ ↔ 2 * numerator < 2 * ((2 * maxSignificand - 1) * lastHalfStep * denominator) := by
          rw [Nat.mul_left_comm denominator, Nat.mul_left_comm _ 2, Nat.mul_assoc,
            Nat.mul_comm denominator]
      _ ↔ numerator < (2 * maxSignificand - 1) * lastHalfStep * denominator :=
          Nat.mul_lt_mul_left Nat.two_pos
  · -- At more places even the least significand overflows.
    obtain ⟨places, rfl⟩ : ∃ places, shift = 2044 + (places + 2) := ⟨shift - 2046, by omega⟩
    obtain ⟨hlarge, hoverflow⟩ := overflows_of_excessPlaces hpos hshift
    refine iff_of_false (Nat.not_lt.2 hoverflow) (Nat.not_lt.2 (Nat.le_trans ?_ hlarge))
    rw [unitsOverflow_eq]
    exact Nat.mul_le_mul_right _ (Nat.mul_le_mul_right _ (Nat.sub_le _ 1))

/-! ## Operations on finite values -/

variable {s t : Bool} {u v : Nat} {hu : Representable u} {hv : Representable v}

/-- A sum is finite exactly when the exact sum is below the threshold. -/
theorem isFinite_addFinite_iff (s : Bool) (u : Nat) (t : Bool) (v : Nat) :
    (addFinite s u t v).isFinite = true ↔
      (signedUnits s u + signedUnits t v).natAbs < overflowThreshold := by
  unfold addFinite
  dsimp only
  split
  · rename_i hzero
    rw [hzero]
    exact iff_of_true rfl overflowThreshold_pos
  · rw [isFinite_round_iff _ Nat.one_pos, Nat.mul_one]

/-- The sum of two finite values. -/
theorem isFinite_add_iff :
    ((finite s u hu).add (finite t v hv)).isFinite = true ↔
      (signedUnits s u + signedUnits t v).natAbs < overflowThreshold :=
  isFinite_addFinite_iff s u t v

/-- The difference of two finite values. -/
theorem isFinite_sub_iff :
    ((finite s u hu).sub (finite t v hv)).isFinite = true ↔
      (signedUnits s u - signedUnits t v).natAbs < overflowThreshold := by
  have hneg : signedUnits (!t) v = -signedUnits t v := by
    cases t with
    | false => rfl
    | true => exact (Int.neg_neg _).symm
  rw [Int.sub_eq_add_neg, ← hneg]
  exact isFinite_addFinite_iff s u (!t) v

/-- The product of two finite values. -/
theorem isFinite_mul_iff :
    ((finite s u hu).mul (finite t v hv)).isFinite = true ↔
      u * v < overflowThreshold * unitsPerOne :=
  isFinite_round_iff _ unitsPerOne_pos

/-- The quotient of two finite values, of which the second one is not zero. -/
theorem isFinite_div_iff (h : v ≠ 0) :
    ((finite s u hu).div (finite t v hv)).isFinite = true ↔
      u * unitsPerOne < overflowThreshold * v := by
  unfold div
  dsimp only
  rw [if_neg h]
  exact isFinite_round_iff _ (Nat.pos_of_ne_zero h)

end Binary64

end AuditedRules
