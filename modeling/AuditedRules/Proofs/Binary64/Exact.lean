import AuditedRules.Binary64.Basic

/-!
# Numbers that need no rounding

A magnitude that is representable is rounded to itself (`round_eq_finite`). It is a significand
shifted left, and the excess places that rounding cuts off are no more than that shift, or one more
for the greatest significand, which is itself a power of two. So the places cut off are zero.

For a double that is a whole number of magnitude at most `2^53`, that integer as a double is the
double again, except that a negative zero comes back positive (`ofInt_eq_canonical`). An integer
that is no such value is rounded, and does not overflow when it is less than `2^1023`
(`isFinite_ofInt`).
-/

namespace AuditedRules

/-! ## Rounding -/

/-- A multiple of the denominator needs no rounding. -/
theorem roundToEven_mul_self (n denominator : Nat) (h : 0 < denominator) :
    roundToEven (n * denominator) denominator = n := by
  unfold roundToEven
  rw [Nat.mul_mod_left, Nat.mul_div_cancel n h]
  exact if_pos h

/-- A significand of at most `2^53`, shifted left, is zero in its excess places. -/
theorem pow_excessPlaces_dvd (significand shift : Nat) (h : significand ≤ maxSignificand) :
    Nat.pow 2 (excessPlaces (significand * Nat.pow 2 shift)) ∣ significand * Nat.pow 2 shift := by
  unfold excessPlaces
  rcases Nat.eq_zero_or_pos significand with hzero | hpos
  · rw [hzero, Nat.zero_mul]
    exact Nat.dvd_zero _
  have hne : significand * Nat.pow 2 shift ≠ 0 :=
    Nat.mul_ne_zero (Nat.ne_of_gt hpos) (Nat.ne_of_gt (Nat.two_pow_pos shift))
  rcases Nat.lt_or_eq_of_le h with hlt | heq
  · have hlog : (significand * Nat.pow 2 shift).log2 < 53 + shift := by
      rw [Nat.log2_lt hne, Nat.pow_add]
      exact Nat.mul_lt_mul_of_pos_right hlt (Nat.two_pow_pos shift)
    exact Nat.dvd_mul_left_of_dvd (Nat.pow_dvd_pow 2 (by omega)) significand
  · -- The greatest significand is `2^53`, which is one place more.
    have hpow : significand * Nat.pow 2 shift = 2 ^ (53 + shift) := by
      rw [heq, Nat.pow_add]
      rfl
    rw [hpow, Nat.log2_two_pow]
    exact Nat.pow_dvd_pow 2 (by omega)

namespace Binary64

/-- A significand at a shift is the finite double that it makes, when that is representable. -/
theorem ofScaled_eq_finite (negative : Bool) {significand shift units : Nat}
    (hle : significand ≤ maxSignificand) (hunits : significand * Nat.pow 2 shift = units)
    (h : Representable units) :
    ofScaled negative significand shift hle = .finite negative units h := by
  subst hunits
  exact dif_pos h.2

/-- A representable magnitude is rounded to itself. -/
theorem round_eq_finite (negative : Bool) {units : Nat} (h : Representable units) :
    round negative units 1 = .finite negative units h := by
  have hdvd : Nat.pow 2 (excessPlaces (units / 1)) ∣ units := by
    obtain ⟨⟨significand, shift, hle, hunits⟩, -⟩ := h
    rw [Nat.div_one, hunits]
    exact pow_excessPlaces_dvd significand shift hle
  -- Zero places are cut off, so the significand at their shift is the magnitude again.
  refine ofScaled_eq_finite negative _ ?_ h
  unfold roundedSignificand
  generalize excessPlaces (units / 1) = shift at hdvd
  obtain ⟨n, hn⟩ := hdvd
  have hexact : roundToEven (n * Nat.pow 2 shift) (Nat.pow 2 shift) = n :=
    roundToEven_mul_self n _ (Nat.two_pow_pos shift)
  rw [Nat.one_mul, hn, Nat.mul_comm _ n, hexact]

/-! ## Whole numbers -/

/-- The value, with a zero taken as the positive one. -/
def canonical (x : Binary64) : Binary64 :=
  if x.isZero then zero false else x

/-- One is some units. -/
theorem unitsPerOne_pos : 0 < unitsPerOne := by
  unfold unitsPerOne
  generalize 1074 = places
  exact Nat.two_pow_pos places

/-- The sign does not count for the magnitude. -/
theorem natAbs_signedUnits (negative : Bool) (n : Nat) : (signedUnits negative n).natAbs = n := by
  cases negative with
  | false => rfl
  | true => exact Int.natAbs_neg n

/-- A magnitude other than zero keeps its sign. -/
theorem signedUnits_neg_iff {negative : Bool} {n : Nat} (h : n ≠ 0) :
    decide (signedUnits negative n < 0) = negative := by
  unfold signedUnits
  cases negative with
  | false => exact decide_eq_false (by simp)
  | true =>
    refine decide_eq_true ?_
    rw [if_pos rfl]
    omega

/-- Zero has no sign as an integer. -/
theorem signedUnits_zero (negative : Bool) : signedUnits negative 0 = 0 := by
  cases negative <;> rfl

/-- The integer zero is the positive zero as a double. -/
theorem ofInt_zero : ofInt 0 = zero false := by
  unfold ofInt
  rw [Int.natAbs_zero, Nat.zero_mul]
  exact round_eq_finite false _

/-- A whole number that is representable is the double of the integer. -/
theorem ofInt_signedUnits (negative : Bool) {n units : Nat} (hn : n ≠ 0)
    (hunits : units = n * unitsPerOne) (h : Representable units) :
    ofInt (signedUnits negative n) = .finite negative units h := by
  unfold ofInt
  rw [natAbs_signedUnits, signedUnits_neg_iff hn, ← hunits, round_eq_finite negative h]

/-- A value that is an integer is a whole number of ones with its sign. -/
theorem exists_of_exactInt? {negative : Bool} {units : Nat} {h : Representable units} {i : Int}
    (hi : (finite negative units h).exactInt? = some i) :
    ∃ n, units = n * unitsPerOne ∧ i = signedUnits negative n := by
  unfold exactInt? at hi
  dsimp only at hi
  split at hi
  · rename_i hwhole
    rw [Option.some.injEq] at hi
    refine ⟨units / unitsPerOne, ?_, hi.symm⟩
    rw [Nat.div_mul_cancel (Nat.dvd_of_mod_eq_zero hwhole.1)]
  · cases hi

/-- An integer that a double is has magnitude at most `2^53`. -/
theorem natAbs_le_of_exactInt? {x : Binary64} {i : Int} (h : x.exactInt? = some i) :
    i.natAbs ≤ maxSignificand := by
  cases x with
  | nan => cases h
  | infinity negative => cases h
  | finite negative units representable =>
    unfold exactInt? at h
    dsimp only at h
    split at h
    · rename_i hwhole
      rw [Option.some.injEq] at h
      rw [← h, natAbs_signedUnits]
      exact Nat.div_le_of_le_mul (Nat.mul_comm _ _ ▸ hwhole.2)
    · cases h

/-- The integer that a value is, is as a double the value with its zero positive. -/
theorem ofInt_eq_canonical {x : Binary64} {i : Int} (h : x.exactInt? = some i) :
    ofInt i = x.canonical := by
  cases x with
  | nan => cases h
  | infinity negative => cases h
  | finite negative units representable =>
    obtain ⟨n, hunits, hi⟩ := exists_of_exactInt? h
    rw [hi]
    unfold canonical isZero
    rcases Nat.eq_zero_or_pos n with hzero | hpos
    · rw [hzero, Nat.zero_mul] at hunits
      subst hunits
      rw [hzero, signedUnits_zero, ofInt_zero]
      rfl
    · have hne : units ≠ 0 := by
        rw [hunits]
        exact Nat.ne_of_gt (Nat.mul_pos hpos unitsPerOne_pos)
      rw [ofInt_signedUnits negative (Nat.ne_of_gt hpos) hunits representable,
        if_neg (by simpa using hne)]

/-- There are two zeros. -/
theorem isZero_iff {x : Binary64} : x.isZero = true ↔ ∃ negative, x = zero negative := by
  constructor
  · intro h
    cases x with
    | finite negative units representable =>
      have hunits : units = 0 := eq_of_beq h
      subst hunits
      exact ⟨negative, rfl⟩
    | _ => cases h
  · rintro ⟨negative, rfl⟩
    rfl

/-- A zero is the integer zero. -/
theorem exactInt?_zero (negative : Bool) : (zero negative).exactInt? = some 0 := by
  unfold zero exactInt?
  dsimp only
  rw [if_pos ⟨Nat.zero_mod _, Nat.zero_le _⟩, Nat.zero_div, signedUnits_zero]

/-- A finite value equals itself with its zero positive. -/
theorem canonical_eq {x : Binary64} (h : x.isFinite) : x.canonical.eq x = true := by
  unfold canonical
  split
  · rename_i hzero
    obtain ⟨negative, rfl⟩ := isZero_iff.1 hzero
    cases negative <;> rfl
  · cases x with
    | finite negative units representable => exact beq_self_eq_true _
    | _ => cases h

/-- Taking a zero as positive does not change which integer the value is. -/
theorem exactInt?_canonical (x : Binary64) : x.canonical.exactInt? = x.exactInt? := by
  unfold canonical
  split
  · rename_i hzero
    obtain ⟨negative, rfl⟩ := isZero_iff.1 hzero
    rw [exactInt?_zero, exactInt?_zero]
  · rfl

/-- What is no integer is no zero. -/
theorem canonical_of_exactInt?_eq_none {x : Binary64} (h : x.exactInt? = none) :
    x.canonical = x := by
  unfold canonical
  refine if_neg fun hzero => ?_
  obtain ⟨negative, rfl⟩ := isZero_iff.1 hzero
  rw [exactInt?_zero] at h
  cases h

/-! ## Integers that do not overflow -/

/-- A power of two below the bound does not overflow. -/
theorem pow_lt_unitsOverflow {places : Nat} (h : places < 2098) :
    Nat.pow 2 places < unitsOverflow := by
  unfold unitsOverflow
  generalize 2098 = bound at h ⊢
  exact Nat.pow_lt_pow_right (by decide) h

/-- A significand that is shifted by few enough places does not overflow. -/
theorem isFinite_ofScaled (negative : Bool) {significand shift : Nat}
    (hle : significand ≤ maxSignificand) (hshift : shift ≤ 2044) :
    (ofScaled negative significand shift hle).isFinite := by
  have hmagnitude : significand * Nat.pow 2 shift < unitsOverflow :=
    calc significand * Nat.pow 2 shift
        ≤ Nat.pow 2 53 * Nat.pow 2 shift := Nat.mul_le_mul_right _ hle
      _ = Nat.pow 2 (53 + shift) := (Nat.pow_add 2 53 shift).symm
      _ < unitsOverflow := pow_lt_unitsOverflow (by omega)
  rw [ofScaled_eq_finite negative hle rfl ⟨⟨significand, shift, hle, rfl⟩, hmagnitude⟩]
  rfl

/-- An integer of less than `2^1023` does not overflow. -/
theorem isFinite_ofInt {i : Int} {places : Nat} (h : i.natAbs < Nat.pow 2 places)
    (hplaces : places ≤ 1023) : (ofInt i).isFinite := by
  have hshift : excessPlaces (i.natAbs * unitsPerOne / 1) ≤ 2044 := by
    unfold excessPlaces
    rw [Nat.div_one]
    rcases Nat.eq_zero_or_pos i.natAbs with hzero | hpos
    · rw [hzero, Nat.zero_mul, Nat.log2_zero]
      exact Nat.zero_le _
    -- One is `2^1074` units.
    have hlog : (i.natAbs * unitsPerOne).log2 < places + 1074 := by
      unfold unitsPerOne
      generalize 1074 = unit
      have hunit : 0 < Nat.pow 2 unit := Nat.two_pow_pos unit
      rw [Nat.log2_lt (Nat.ne_of_gt (Nat.mul_pos hpos hunit)), Nat.pow_add]
      exact Nat.mul_lt_mul_of_pos_right h hunit
    omega
  unfold ofInt round
  exact isFinite_ofScaled _ _ hshift

end Binary64

end AuditedRules
