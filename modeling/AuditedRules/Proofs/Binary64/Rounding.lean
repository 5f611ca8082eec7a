import AuditedRules.Binary64.Shortest
import AuditedRules.Proofs.Binary64.Exact

/-!
# The reals that round to a magnitude

A quotient within half a step of a magnitude is rounded to it, where the step is the power of two
that divides the significand from the units, and exactly half a step only when the significand is
even. Below a power of two the next magnitude is only half a step away, so there a quarter of a step
is what is allowed (`gapBelow`). These are the reals that `Shortest.readsBack` describes, in decimal
units (`Shortest.near_of_readsBack`).

A quotient just below a power of two has one excess place less than the power itself. It is rounded
to the greatest significand, `2^53`, at the smaller shift, which is the same magnitude.
-/

namespace AuditedRules

/-! ## Halves -/

/-- A quotient within a half of a whole number is rounded to it, at exactly a half when the number
is even. -/
theorem roundToEven_eq_of_near {n numerator denominator : Nat} (hpos : 0 < denominator)
    (hlow : 2 * (n * denominator) ≤ 2 * numerator + denominator)
    (hhigh : 2 * numerator ≤ 2 * (n * denominator) + denominator)
    (hties : n % 2 = 0 ∨ 2 * (n * denominator) < 2 * numerator + denominator ∧
      2 * numerator < 2 * (n * denominator) + denominator) :
    roundToEven numerator denominator = n := by
  have hdivision := Nat.div_add_mod' numerator denominator
  have hremainder := Nat.mod_lt numerator hpos
  unfold roundToEven
  generalize numerator / denominator = floor, numerator % denominator = remainder at *
  -- The number is one of the two next to the quotient.
  have hle : n ≤ floor + 1 := by
    refine Decidable.byContradiction fun h => ?_
    have hfar : (floor + 2) * denominator ≤ n * denominator := Nat.mul_le_mul_right _ (by omega)
    rw [Nat.add_mul] at hfar
    omega
  have hge : floor ≤ n := by
    refine Decidable.byContradiction fun h => ?_
    have hfar : (n + 1) * denominator ≤ floor * denominator := Nat.mul_le_mul_right _ (by omega)
    rw [Nat.add_mul] at hfar
    omega
  rcases Nat.lt_or_eq_of_le hge with hlt | rfl
  · obtain rfl : n = floor + 1 := by omega
    rw [Nat.add_mul] at hlow hhigh hties
    dsimp only
    split
    · omega
    · split
      · rfl
      · split <;> omega
  · dsimp only
    split
    · rfl
    · split
      · omega
      · split <;> omega

/-! ## Excess places -/

/-- A magnitude less than the greatest significand at a shift has no more excess places than
that. -/
theorem excessPlaces_le_of_lt {units shift : Nat}
    (h : units < maxSignificand * Nat.pow 2 shift) : excessPlaces units ≤ shift := by
  unfold excessPlaces
  rcases Nat.eq_zero_or_pos units with rfl | hpos
  · exact Nat.zero_le _
  have hlog : units.log2 < 53 + shift := by
    rw [Nat.log2_lt (Nat.ne_of_gt hpos), Nat.pow_add]
    exact h
  omega

/-- A magnitude of at least half the greatest significand at a shift has as many excess places. -/
theorem le_excessPlaces_of_le {units shift : Nat}
    (h : maxSignificand * Nat.pow 2 shift ≤ 2 * units) : shift ≤ excessPlaces units := by
  unfold excessPlaces
  have hpow : 2 ^ (52 + shift) ≤ units := by
    have hdouble : maxSignificand * Nat.pow 2 shift = 2 * 2 ^ (52 + shift) := by
      rw [Nat.pow_add, ← Nat.mul_assoc]
      rfl
    omega
  have hne : units ≠ 0 := by
    have := Nat.two_pow_pos (52 + shift)
    omega
  have hlog : 52 + shift ≤ units.log2 := (Nat.le_log2 hne).2 hpow
  omega

/-- A magnitude is less than the greatest significand at its excess places. -/
theorem lt_maxSignificand_mul (units : Nat) :
    units < maxSignificand * Nat.pow 2 (excessPlaces units) := by
  refine Decidable.byContradiction fun h => ?_
  have hplaces : excessPlaces units + 1 ≤ excessPlaces units := by
    refine le_excessPlaces_of_le ?_
    have hpow : Nat.pow 2 (excessPlaces units + 1) = 2 * Nat.pow 2 (excessPlaces units) :=
      Nat.pow_succ'
    rw [hpow, Nat.mul_left_comm]
    omega
  omega

/-- A magnitude with excess places is at least half the greatest significand at these. -/
theorem maxSignificand_mul_le {units : Nat} (h : excessPlaces units ≠ 0) :
    maxSignificand * Nat.pow 2 (excessPlaces units) ≤ 2 * units := by
  refine Decidable.byContradiction fun hlt => ?_
  obtain ⟨shift, hshift⟩ := Nat.exists_eq_succ_of_ne_zero h
  have hplaces : excessPlaces units ≤ shift := by
    refine excessPlaces_le_of_lt ?_
    have hpow : Nat.pow 2 (excessPlaces units) = 2 * Nat.pow 2 shift := by
      rw [hshift]
      exact Nat.pow_succ'
    rw [hpow, Nat.mul_left_comm] at hlt
    omega
  omega

/-! ## Intervals -/

/-- Four times the distance from a magnitude down to the reals that are rounded below it. -/
def gapBelow (units : Nat) : Nat :=
  if excessPlaces units ≠ 0 ∧ units = Nat.pow 2 (52 + excessPlaces units) then
    Nat.pow 2 (excessPlaces units)
  else 2 * Nat.pow 2 (excessPlaces units)

/-- The distance below is half a step at most. -/
theorem gapBelow_le (units : Nat) : gapBelow units ≤ 2 * Nat.pow 2 (excessPlaces units) := by
  unfold gapBelow
  split
  · omega
  · exact Nat.le_refl _

/-- The distance below is not zero. -/
theorem gapBelow_pos (units : Nat) : 0 < gapBelow units := by
  have hpow : 0 < Nat.pow 2 (excessPlaces units) := Nat.two_pow_pos _
  unfold gapBelow
  split <;> omega

/-- A quotient lies among the reals that are rounded to a magnitude. -/
structure Near (units numerator denominator : Nat) : Prop where
  /-- The quotient is not too far below the magnitude. -/
  low : 4 * (units * denominator) ≤ 4 * numerator + gapBelow units * denominator
  /-- The quotient is not too far above the magnitude. -/
  high : 4 * numerator ≤ 4 * (units * denominator) +
    2 * (Nat.pow 2 (excessPlaces units) * denominator)
  /-- At an end the significand is even. -/
  ties : units / Nat.pow 2 (excessPlaces units) % 2 = 0 ∨
    4 * (units * denominator) < 4 * numerator + gapBelow units * denominator ∧
      4 * numerator < 4 * (units * denominator) +
        2 * (Nat.pow 2 (excessPlaces units) * denominator)

/-- The magnitude is not far above the quotient. -/
theorem Near.lt {units numerator denominator : Nat} (h : Near units numerator denominator)
    (hpos : 0 < denominator) :
    numerator < (units + Nat.pow 2 (excessPlaces units)) * denominator := by
  have hhigh := h.high
  have hstep : 0 < Nat.pow 2 (excessPlaces units) * denominator :=
    Nat.mul_pos (Nat.two_pow_pos _) hpos
  rw [Nat.add_mul]
  omega

/-- Shifted by the excess places of a magnitude, a quotient near it is rounded to its
significand. -/
theorem Near.roundedSignificand_eq {units numerator denominator : Nat}
    (h : Near units numerator denominator) (hpos : 0 < denominator) {significand : Nat}
    (hunits : units = significand * Nat.pow 2 (excessPlaces units)) :
    roundedSignificand numerator denominator (excessPlaces units) = significand := by
  obtain ⟨hlow, hhigh, hties⟩ := h
  have hgap := Nat.mul_le_mul_right denominator (gapBelow_le units)
  have hstep : 0 < Nat.pow 2 (excessPlaces units) := Nat.two_pow_pos _
  have hsignificand : units / Nat.pow 2 (excessPlaces units) = significand :=
    Nat.div_eq_of_eq_mul_left hstep hunits
  have hproduct : significand * (denominator * Nat.pow 2 (excessPlaces units)) =
      units * denominator := by
    rw [Nat.mul_left_comm, ← hunits, Nat.mul_comm]
  rw [hsignificand] at hties
  rw [Nat.mul_assoc] at hgap
  unfold roundedSignificand
  generalize Nat.pow 2 (excessPlaces units) = step at *
  rw [Nat.mul_comm step] at *
  refine roundToEven_eq_of_near (Nat.mul_pos hpos hstep) ?_ ?_ ?_
  · rw [hproduct]
    omega
  · rw [hproduct]
    omega
  · rw [hproduct]
    omega

/-- A quotient with fewer excess places than a magnitude is below half of the greatest significand
at those. -/
theorem lt_of_excessPlaces_lt {numerator denominator shift : Nat} (hpos : 0 < denominator)
    (h : excessPlaces (numerator / denominator) ≤ shift) :
    numerator < maxSignificand * Nat.pow 2 shift * denominator := by
  have hquotient : numerator / denominator < maxSignificand * Nat.pow 2 shift :=
    calc numerator / denominator
        < maxSignificand * Nat.pow 2 (excessPlaces (numerator / denominator)) :=
          lt_maxSignificand_mul _
      _ ≤ maxSignificand * Nat.pow 2 shift :=
          Nat.mul_le_mul_left _ (Nat.pow_le_pow_right (by decide) h)
  exact (Nat.div_lt_iff_lt_mul hpos).1 hquotient

/-- A magnitude near a quotient with fewer excess places is a power of two. -/
theorem Near.eq_power {units numerator denominator shift : Nat}
    (h : Near units numerator denominator) (hpos : 0 < denominator)
    (hdvd : Nat.pow 2 (excessPlaces units) ∣ units) (hshift : excessPlaces units = shift + 1)
    (hplaces : excessPlaces (numerator / denominator) ≤ shift) :
    units = maxSignificand * Nat.pow 2 shift := by
  have hpow : Nat.pow 2 (excessPlaces units) = 2 * Nat.pow 2 shift := by
    rw [hshift]
    exact Nat.pow_succ'
  have hnumerator := lt_of_excessPlaces_lt hpos hplaces
  have hne : excessPlaces units ≠ 0 := by omega
  have hhalf := maxSignificand_mul_le hne
  have hlow := h.low
  have hgap := Nat.mul_le_mul_right denominator (gapBelow_le units)
  have hstep : 0 < Nat.pow 2 shift * denominator := Nat.mul_pos (Nat.two_pow_pos _) hpos
  obtain ⟨significand, hunits⟩ := hdvd
  rw [hpow] at hunits hhalf hgap
  generalize Nat.pow 2 shift = step at *
  refine Decidable.byContradiction fun hne => ?_
  -- Were it not that power, it would be at least a whole step above it.
  have habove : 2 ^ 52 + 1 ≤ significand := by
    refine Decidable.byContradiction fun hnot => ?_
    have hle : 2 * step * significand ≤ 2 * step * 2 ^ 52 :=
      Nat.mul_le_mul_left _ (by omega)
    unfold maxSignificand at hne hhalf
    omega
  have hstepAbove : (2 ^ 53 + 2) * step ≤ units := by
    have hle := Nat.mul_le_mul_left (2 * step) habove
    omega
  have hfar := Nat.mul_le_mul_right denominator hstepAbove
  rw [← Nat.mul_assoc, Nat.mul_assoc] at hgap
  rw [Nat.mul_assoc] at hfar hnumerator
  unfold maxSignificand at hnumerator
  omega

/-- Below a power of two the distance is half of what it is elsewhere. -/
theorem gapBelow_eq_of_power {units shift : Nat} (hshift : excessPlaces units = shift + 1)
    (hpower : units = maxSignificand * Nat.pow 2 shift) : gapBelow units = 2 * Nat.pow 2 shift := by
  have hunits : units = Nat.pow 2 (52 + (shift + 1)) :=
    calc units = Nat.pow 2 53 * Nat.pow 2 shift := hpower
      _ = Nat.pow 2 (53 + shift) := (Nat.pow_add 2 53 shift).symm
      _ = Nat.pow 2 (52 + (shift + 1)) := by rw [show 53 + shift = 52 + (shift + 1) by omega]
  unfold gapBelow
  rw [hshift, if_pos ⟨Nat.succ_ne_zero shift, hunits⟩]
  exact Nat.pow_succ'

/-- Just below a power of two a quotient is rounded to the greatest significand. -/
theorem Near.roundedSignificand_eq_max {units numerator denominator shift : Nat}
    (h : Near units numerator denominator) (hpos : 0 < denominator)
    (hshift : excessPlaces units = shift + 1)
    (hpower : units = maxSignificand * Nat.pow 2 shift)
    (hplaces : excessPlaces (numerator / denominator) ≤ shift) :
    excessPlaces (numerator / denominator) = shift ∧
      roundedSignificand numerator denominator shift = maxSignificand := by
  have hnumerator := lt_of_excessPlaces_lt hpos hplaces
  have hlow := h.low
  rw [gapBelow_eq_of_power hshift hpower, Nat.mul_assoc] at hlow
  have hstep : 0 < Nat.pow 2 shift := Nat.two_pow_pos shift
  have hproduct : maxSignificand * (denominator * Nat.pow 2 shift) = units * denominator := by
    rw [Nat.mul_left_comm, ← hpower, Nat.mul_comm]
  constructor
  · refine Nat.le_antisymm hplaces (le_excessPlaces_of_le ?_)
    -- The quotient is so close to the power of two that it exceeds half of it.
    have hhalf : 2 ^ 52 * Nat.pow 2 shift ≤ numerator / denominator := by
      rw [Nat.le_div_iff_mul_le hpos, Nat.mul_assoc]
      rw [hpower, Nat.mul_assoc] at hlow
      have hless := Nat.mul_pos hstep hpos
      unfold maxSignificand at hlow
      omega
    unfold maxSignificand
    omega
  · unfold roundedSignificand
    rw [← hpower] at hnumerator
    rw [Nat.mul_comm (Nat.pow 2 shift)] at hlow
    refine roundToEven_eq_of_near (Nat.mul_pos hpos hstep) ?_ ?_ (.inl (by decide))
    · rw [hproduct]
      omega
    · rw [hproduct]
      omega

/-- A quotient near a magnitude is rounded to a significand that is the magnitude at the excess
places of the quotient. -/
theorem Near.roundedSignificand_mul {units numerator denominator : Nat}
    (h : Near units numerator denominator) (hpos : 0 < denominator)
    (hdvd : Nat.pow 2 (excessPlaces units) ∣ units) :
    roundedSignificand numerator denominator (excessPlaces (numerator / denominator)) *
      Nat.pow 2 (excessPlaces (numerator / denominator)) = units := by
  have hle : excessPlaces (numerator / denominator) ≤ excessPlaces units := by
    refine excessPlaces_le_of_lt
      (Nat.lt_of_lt_of_le ((Nat.div_lt_iff_lt_mul hpos).2 (h.lt hpos)) ?_)
    -- The magnitude has a whole step left to the greatest significand.
    have hlt := lt_maxSignificand_mul units
    obtain ⟨significand, hunits⟩ := hdvd
    generalize Nat.pow 2 (excessPlaces units) = step at *
    rw [hunits, Nat.mul_comm maxSignificand] at hlt ⊢
    rw [← Nat.mul_succ]
    exact Nat.mul_le_mul_left step (Nat.lt_of_mul_lt_mul_left hlt)
  rcases Nat.lt_or_eq_of_le hle with hlt | heq
  · obtain ⟨shift, hshift⟩ := Nat.exists_eq_succ_of_ne_zero (show excessPlaces units ≠ 0 by omega)
    have hplaces : excessPlaces (numerator / denominator) ≤ shift := by omega
    have hpower := h.eq_power hpos hdvd hshift hplaces
    obtain ⟨hexcess, hsignificand⟩ := h.roundedSignificand_eq_max hpos hshift hpower hplaces
    rw [hexcess, hsignificand, ← hpower]
  · obtain ⟨significand, hunits⟩ := hdvd
    rw [Nat.mul_comm] at hunits
    rw [heq, h.roundedSignificand_eq hpos hunits, ← hunits]

namespace Binary64

/-- A quotient near a magnitude is rounded to it. -/
theorem round_eq_of_near (negative : Bool) {units numerator denominator : Nat}
    (hunits : Representable units) (hpos : 0 < denominator)
    (h : Near units numerator denominator) :
    round negative numerator denominator = .finite negative units hunits := by
  have hdvd : Nat.pow 2 (excessPlaces units) ∣ units := by
    obtain ⟨⟨significand, shift, hle, heq⟩, -⟩ := hunits
    rw [heq]
    exact pow_excessPlaces_dvd significand shift hle
  exact ofScaled_eq_finite negative _ (h.roundedSignificand_mul hpos hdvd) hunits

end Binary64

end AuditedRules
