import AuditedRules.Binary64.Reading
import AuditedRules.Proofs.Binary64.Rounding

/-!
# The decimal that is written is read back

The decimal that is chosen for a magnitude lies among the reals that round to it
(`Shortest.readsBack_decimal`), whatever the search went through: every candidate is tested, and the
exact value, which is left when no candidate passes, is at no end of the interval.

Reading a decimal is rounding its exact value, except that decimals with far too great or too small
exponents are cut off first. A decimal that is read back is within these bounds, since a magnitude
is a positive number of units below the bound on overflow. So any decimal of that value gives the
magnitude (`Binary64.ofDecimal_eq_finite`), also one with other digits and another exponent.
-/

namespace AuditedRules

namespace Shortest

/-! ## The interval -/

/-- The lower end is the magnitude less the distance below. -/
theorem lowerEnd_eq (units : Nat) :
    lowerEnd units = (4 * units - gapBelow units) * Nat.pow 5 places := rfl

/-- The upper end is half a step above the magnitude. -/
theorem upperEnd_eq (units : Nat) :
    upperEnd units = (4 * units + 2 * Nat.pow 2 (excessPlaces units)) * Nat.pow 5 places := rfl

/-- One in units of the least positive double is some of the decimal units. -/
theorem pow_places_pos : 0 < Nat.pow 5 places := by
  generalize places = exponent
  exact Nat.pow_pos (by decide)

/-- What is read back lies between the ends, and at an end only when the significand is even. -/
theorem readsBack_iff {units candidate : Nat} :
    readsBack units candidate = true ↔
      lowerEnd units ≤ 4 * candidate ∧ 4 * candidate ≤ upperEnd units ∧
        (units / Nat.pow 2 (excessPlaces units) % 2 = 0 ∨
          lowerEnd units < 4 * candidate ∧ 4 * candidate < upperEnd units) := by
  unfold readsBack
  generalize lowerEnd units = low, upperEnd units = high
  dsimp only
  cases hends : endsIncluded units with
  | true =>
    have heven : units / Nat.pow 2 (excessPlaces units) % 2 = 0 := eq_of_beq hends
    rw [if_pos rfl, decide_eq_true_iff]
    exact ⟨fun h => ⟨h.1, h.2, .inl heven⟩, fun h => ⟨h.1, h.2.1⟩⟩
  | false =>
    have hodd : units / Nat.pow 2 (excessPlaces units) % 2 ≠ 0 := by
      intro heven
      have hincluded : endsIncluded units = true := beq_iff_eq.2 heven
      rw [hends] at hincluded
      cases hincluded
    rw [if_neg Bool.false_ne_true, decide_eq_true_iff]
    constructor
    · intro h
      exact ⟨Nat.le_of_lt h.1, Nat.le_of_lt h.2, .inr h⟩
    · rintro ⟨-, -, h | h⟩
      · exact absurd h hodd
      · exact h

/-- A step is no greater than the magnitude. -/
theorem pow_excessPlaces_le {units : Nat} (hpos : 0 < units) :
    Nat.pow 2 (excessPlaces units) ≤ units := by
  rcases Nat.eq_zero_or_pos (excessPlaces units) with hnone | hsome
  · rw [hnone]
    exact hpos
  · have hhalf := maxSignificand_mul_le (Nat.ne_of_gt hsome)
    unfold maxSignificand at hhalf
    omega

/-- What is read back is not less than half of the least positive double. -/
theorem pow_places_le_of_readsBack {units candidate : Nat} (hpos : 0 < units)
    (h : readsBack units candidate = true) : Nat.pow 5 places ≤ 2 * candidate := by
  obtain ⟨hlow, -, -⟩ := readsBack_iff.1 h
  have hgap := gapBelow_le units
  have hstep := pow_excessPlaces_le hpos
  have hends : 2 * Nat.pow 5 places ≤ lowerEnd units := by
    rw [lowerEnd_eq]
    exact Nat.mul_le_mul_right _ (by omega)
  omega

/-- What is read back is less than twice the bound on overflow. -/
theorem lt_of_readsBack {units candidate : Nat} (hpos : 0 < units)
    (hbound : units < unitsOverflow) (h : readsBack units candidate = true) :
    candidate < 2 * unitsOverflow * Nat.pow 5 places := by
  obtain ⟨-, hhigh, -⟩ := readsBack_iff.1 h
  have hstep := pow_excessPlaces_le hpos
  have hends : upperEnd units < 6 * unitsOverflow * Nat.pow 5 places := by
    rw [upperEnd_eq]
    exact Nat.mul_lt_mul_of_pos_right (by omega) pow_places_pos
  rw [Nat.mul_assoc] at hends ⊢
  omega

/-- A quotient of the value of a candidate that is read back is near the magnitude. -/
theorem near_of_readsBack {units candidate numerator denominator : Nat} (hpos : 0 < denominator)
    (hvalue : numerator * Nat.pow 5 places = candidate * denominator)
    (h : readsBack units candidate = true) : Near units numerator denominator := by
  obtain ⟨hlow, hhigh, hties⟩ := readsBack_iff.1 h
  rw [lowerEnd_eq] at hlow hties
  rw [upperEnd_eq] at hhigh hties
  have hunit := pow_places_pos
  generalize Nat.pow 5 places = unit at *
  have hscaled : 4 * candidate * denominator = 4 * numerator * unit := by
    rw [Nat.mul_assoc, ← hvalue, Nat.mul_assoc]
  -- Multiplied by the denominator, both sides are whole numbers of the same units.
  have hle : ∀ n, n * unit ≤ 4 * candidate ↔ n * denominator ≤ 4 * numerator := by
    intro n
    rw [← Nat.mul_le_mul_right_iff hpos, hscaled, Nat.mul_right_comm,
      Nat.mul_le_mul_right_iff hunit]
  have hge : ∀ n, 4 * candidate ≤ n * unit ↔ 4 * numerator ≤ n * denominator := by
    intro n
    rw [← Nat.mul_le_mul_right_iff hpos, hscaled, Nat.mul_right_comm n,
      Nat.mul_le_mul_right_iff hunit]
  rw [hle] at hlow
  rw [hge] at hhigh
  rw [← Nat.not_le, ← Nat.not_le, hge, hle, Nat.not_le, Nat.not_le] at hties
  rw [Nat.sub_mul, Nat.mul_assoc] at hlow hties
  rw [Nat.add_mul, Nat.mul_assoc, Nat.mul_assoc] at hhigh hties
  exact ⟨by omega, hhigh, hties.imp_right fun h => ⟨by omega, h.2⟩⟩

/-! ## The search -/

/-- The magnitude itself is read back. -/
theorem readsBack_exact {units : Nat} (hpos : 0 < units) :
    readsBack units (units * Nat.pow 5 places) = true := by
  have hunit := pow_places_pos
  have hlow : lowerEnd units < 4 * (units * Nat.pow 5 places) := by
    rw [lowerEnd_eq, ← Nat.mul_assoc]
    have hgap := gapBelow_pos units
    exact Nat.mul_lt_mul_of_pos_right (by omega) hunit
  have hhigh : 4 * (units * Nat.pow 5 places) < upperEnd units := by
    rw [upperEnd_eq, ← Nat.mul_assoc]
    have hstep : 0 < Nat.pow 2 (excessPlaces units) := Nat.two_pow_pos _
    exact Nat.mul_lt_mul_of_pos_right (by omega) hunit
  exact readsBack_iff.2 ⟨Nat.le_of_lt hlow, Nat.le_of_lt hhigh, .inr ⟨hlow, hhigh⟩⟩

/-- The nearer of two multiples is one of them. -/
theorem nearer_eq_or (tie : TieRule) (exact grid below : Nat) :
    nearer tie exact grid below = below ∨ nearer tie exact grid below = below + 1 := by
  unfold nearer
  dsimp only
  split
  · exact .inl rfl
  · split
    · exact .inr rfl
    · cases tie with
      | up => exact .inr rfl
      | even =>
        dsimp only
        split
        · exact .inl rfl
        · exact .inr rfl

/-- A multiple that is chosen on a grid is read back. -/
theorem readsBack_of_onGrid? {tie : TieRule} {units exact grid multiple : Nat}
    (h : onGrid? tie units exact grid = some multiple) :
    readsBack units (multiple * grid) = true := by
  unfold onGrid? at h
  dsimp only at h
  generalize hbelow : readsBack units (exact / grid * grid) = below at h
  generalize habove : readsBack units ((exact / grid + 1) * grid) = above at h
  split at h
  · rw [Option.some.injEq] at h
    rcases nearer_eq_or tie exact grid (exact / grid) with hnearer | hnearer
    · rw [← h, hnearer, hbelow]
    · rw [← h, hnearer, habove]
  · rw [Option.some.injEq] at h
    rw [← h, hbelow]
  · rw [Option.some.injEq] at h
    rw [← h, habove]
  · cases h

/-- What the search finds is read back. -/
theorem readsBack_of_search {tie : TieRule} {units exact length remaining multiple zeros : Nat}
    (h : search tie units exact length remaining = some (multiple, zeros)) :
    readsBack units (multiple * Nat.pow 10 zeros) = true := by
  induction remaining with
  | zero => cases h
  | succ remaining ih =>
    unfold search at h
    dsimp only at h
    split at h
    · rename_i found hfound
      cases h
      exact readsBack_of_onGrid? hfound
    · exact ih h

/-- Moving zeros of the digits into the exponent keeps the value. -/
theorem stripZeros_spec (fuel digits : Nat) (exponent : Int) :
    ∃ moved : Nat, (stripZeros fuel digits exponent).exponent = exponent + moved ∧
      (stripZeros fuel digits exponent).digits * Nat.pow 10 moved = digits := by
  induction fuel generalizing digits exponent with
  | zero => exact ⟨0, (Int.add_zero exponent).symm, Nat.mul_one digits⟩
  | succ fuel ih =>
    unfold stripZeros
    split
    · rename_i hzero
      obtain ⟨moved, hexponent, hdigits⟩ := ih (digits / 10) (exponent + 1)
      refine ⟨moved + 1, by omega, ?_⟩
      have hpow : Nat.pow 10 (moved + 1) = Nat.pow 10 moved * 10 := Nat.pow_succ ..
      rw [hpow, ← Nat.mul_assoc, hdigits]
      omega
    · exact ⟨0, (Int.add_zero exponent).symm, Nat.mul_one digits⟩

/-- The number of decimal units of a decimal whose last digit is no smaller than one of them. -/
def inPlaces (digits : Nat) (exponent : Int) : Nat :=
  digits * Nat.pow 10 (exponent + places).toNat

/-- Zeros after the digits count like an exponent. -/
theorem inPlaces_mul_pow (digits shift : Nat) {exponent : Int} (h : -(places : Int) ≤ exponent) :
    inPlaces (digits * Nat.pow 10 shift) exponent = inPlaces digits (exponent + shift) := by
  have hplaces : (exponent + shift + places).toNat = shift + (exponent + places).toNat := by omega
  have hpow : Nat.pow 10 (shift + (exponent + places).toNat) =
      Nat.pow 10 shift * Nat.pow 10 (exponent + places).toNat := Nat.pow_add ..
  unfold inPlaces
  rw [hplaces, hpow, Nat.mul_assoc]

/-- The decimal that is chosen for a magnitude is read back, and is a whole number of decimal
units. -/
theorem readsBack_decimal (tie : TieRule) {units : Nat} (hpos : 0 < units) :
    -(places : Int) ≤ (decimal tie units).exponent ∧
      readsBack units (inPlaces (decimal tie units).digits (decimal tie units).exponent) =
        true := by
  unfold decimal inPlaces
  dsimp only
  split
  · rename_i multiple zeros hfound
    obtain ⟨moved, hexponent, hdigits⟩ := stripZeros_spec 20 multiple ((zeros : Int) - places)
    have hplaces : ((zeros : Int) - places + moved + places).toNat = moved + zeros := by omega
    have hpow : Nat.pow 10 (moved + zeros) = Nat.pow 10 moved * Nat.pow 10 zeros :=
      Nat.pow_add 10 moved zeros
    rw [hexponent, hplaces, hpow, ← Nat.mul_assoc, hdigits]
    exact ⟨by omega, readsBack_of_search hfound⟩
  · have hplaces : (-(places : Int) + places).toNat = 0 := by omega
    have hexact : ∀ n : Nat, n * Nat.pow 10 0 = n := Nat.mul_one
    dsimp only
    rw [hplaces, hexact]
    exact ⟨Int.le_refl _, readsBack_exact hpos⟩

end Shortest

namespace Binary64

open Shortest

/-! ## Reading -/

/-- A power of ten is one of two and of five. -/
theorem pow_ten (exponent : Nat) : Nat.pow 10 exponent = Nat.pow 2 exponent * Nat.pow 5 exponent :=
  Nat.mul_pow 2 5 exponent

/-- The digits of a number tell between which powers of ten it is. -/
theorem pow_length_bounds {n : Nat} (hpos : 0 < n) :
    Nat.pow 10 ((Nat.toDigits 10 n).length - 1) ≤ n ∧
      n < Nat.pow 10 (Nat.toDigits 10 n).length := by
  have hlength : 0 < (Nat.toDigits 10 n).length := Nat.length_toDigits_pos
  constructor
  · rcases Nat.eq_zero_or_pos ((Nat.toDigits 10 n).length - 1) with hone | hmore
    · rw [hone]
      exact hpos
    · refine Nat.not_lt.1 fun hlt => ?_
      have hshort := (Nat.length_toDigits_le_iff (by decide) hmore).2 hlt
      omega
  · exact (Nat.length_toDigits_le_iff (by decide) hlength).1 (Nat.le_refl _)

/-- Powers of two bases compare as their smaller powers do. -/
theorem pow_mul_le_pow_mul {a b m n : Nat} (h : Nat.pow a m ≤ Nat.pow b n) (k : Nat) :
    Nat.pow a (m * k) ≤ Nat.pow b (n * k) :=
  calc Nat.pow a (m * k) = Nat.pow (Nat.pow a m) k := Nat.pow_mul ..
    _ ≤ Nat.pow (Nat.pow b n) k := Nat.pow_le_pow_left h k
    _ = Nat.pow b (n * k) := (Nat.pow_mul ..).symm

/-- Twice the bound on overflow is no more than `10^310` in decimal units. -/
theorem unitsOverflow_mul_le {exponent : Nat} (h : 310 + places ≤ exponent) :
    2 * unitsOverflow * Nat.pow 5 places ≤ Nat.pow 10 exponent := by
  obtain ⟨tens, htens, rfl⟩ : ∃ tens, 62 * 5 ≤ tens ∧ exponent = tens + places :=
    ⟨exponent - places, by omega, by omega⟩
  have hbase := pow_mul_le_pow_mul (a := 2) (b := 10) (m := 205) (n := 62) (by decide) 5
  have hexponents : 2098 + 1 = 205 * 5 + places := rfl
  unfold unitsOverflow
  generalize 2098 = bound, places = unit, 205 * 5 = twos, 62 * 5 = least at *
  have hleast : Nat.pow 2 twos ≤ Nat.pow 10 tens :=
    Nat.le_trans hbase (Nat.pow_le_pow_right (by decide) htens)
  calc 2 * Nat.pow 2 bound * Nat.pow 5 unit
      = Nat.pow 2 (twos + unit) * Nat.pow 5 unit := by
        rw [← hexponents, Nat.mul_comm 2]
        rfl
    _ = Nat.pow 2 twos * (Nat.pow 2 unit * Nat.pow 5 unit) := by
        rw [← Nat.mul_assoc]
        exact congrArg (· * _) (Nat.pow_add 2 twos unit)
    _ = Nat.pow 2 twos * Nat.pow 10 unit := by rw [pow_ten]
    _ ≤ Nat.pow 10 tens * Nat.pow 10 unit := Nat.mul_le_mul_right _ hleast
    _ = Nat.pow 10 (tens + unit) := (Nat.pow_add 10 tens unit).symm

/-- Twice `10^-401` is no more than the least positive double. -/
theorem two_mul_pow_ten_le {exponent : Nat} (h : exponent + 401 ≤ places) :
    2 * Nat.pow 10 exponent ≤ Nat.pow 5 places := by
  have htwos : exponent + 1 ≤ 2 * 401 := by
    unfold places at h
    omega
  generalize places = unit at h
  have hbase := pow_mul_le_pow_mul (a := 2) (b := 5) (m := 2) (n := 1) (by decide) 401
  rw [Nat.one_mul] at hbase
  generalize 401 = fives at h htwos hbase
  have hpow : Nat.pow 2 (exponent + 1) ≤ Nat.pow 5 fives :=
    Nat.le_trans (Nat.pow_le_pow_right (by decide) htwos) hbase
  calc 2 * Nat.pow 10 exponent
      = Nat.pow 2 (exponent + 1) * Nat.pow 5 exponent := by
        rw [pow_ten, ← Nat.mul_assoc, Nat.mul_comm 2]
        rfl
    _ ≤ Nat.pow 5 fives * Nat.pow 5 exponent := Nat.mul_le_mul_right _ hpow
    _ = Nat.pow 5 (fives + exponent) := (Nat.pow_add 5 fives exponent).symm
    _ ≤ Nat.pow 5 unit := Nat.pow_le_pow_right (by decide) (by omega)

/-- A decimal that is read back has no exponent beyond the greater bound. -/
theorem length_add_exponent_le {units digits : Nat} {exponent : Int} (hpos : 0 < units)
    (hbound : units < unitsOverflow) (hdigits : 0 < digits)
    (h : readsBack units (inPlaces digits exponent) = true) :
    ((Nat.toDigits 10 digits).length : Int) + exponent ≤ 310 := by
  refine Int.not_lt.1 fun hlong => ?_
  have hless := lt_of_readsBack hpos hbound h
  have hlow := (pow_length_bounds hdigits).1
  unfold inPlaces at hless
  generalize (Nat.toDigits 10 digits).length = length at *
  have hmore : Nat.pow 10 (length - 1 + (exponent + places).toNat) ≤
      digits * Nat.pow 10 (exponent + places).toNat :=
    calc Nat.pow 10 (length - 1 + (exponent + places).toNat)
        = Nat.pow 10 (length - 1) * Nat.pow 10 (exponent + places).toNat := Nat.pow_add ..
      _ ≤ digits * Nat.pow 10 (exponent + places).toNat := Nat.mul_le_mul_right _ hlow
  have hplaces : 310 + places ≤ length - 1 + (exponent + places).toNat := by omega
  have hbeyond := unitsOverflow_mul_le hplaces
  omega

/-- A decimal that is read back has no exponent below the lesser bound. -/
theorem le_length_add_exponent {units digits : Nat} {exponent : Int} (hpos : 0 < units)
    (hdigits : 0 < digits) (hplaces : -(places : Int) ≤ exponent)
    (h : readsBack units (inPlaces digits exponent) = true) :
    -400 ≤ ((Nat.toDigits 10 digits).length : Int) + exponent := by
  refine Int.not_lt.1 fun hshort => ?_
  have hleast := pow_places_le_of_readsBack hpos h
  have hhigh := (pow_length_bounds hdigits).2
  unfold inPlaces at hleast
  generalize (Nat.toDigits 10 digits).length = length at *
  have hless : digits * Nat.pow 10 (exponent + places).toNat <
      Nat.pow 10 (length + (exponent + places).toNat) :=
    calc digits * Nat.pow 10 (exponent + places).toNat
        < Nat.pow 10 length * Nat.pow 10 (exponent + places).toNat :=
          Nat.mul_lt_mul_of_pos_right hhigh (Nat.pow_pos (by decide))
      _ = Nat.pow 10 (length + (exponent + places).toNat) := (Nat.pow_add ..).symm
  have hdigitPlaces : length + (exponent + places).toNat + 401 ≤ places := by omega
  have hbelow := two_mul_pow_ten_le hdigitPlaces
  omega

/-- A decimal that is read back is positive. -/
theorem digits_pos_of_readsBack {units digits : Nat} {exponent : Int} (hpos : 0 < units)
    (h : readsBack units (inPlaces digits exponent) = true) : 0 < digits := by
  refine Nat.pos_of_ne_zero fun hzero => ?_
  have hleast := pow_places_le_of_readsBack hpos h
  have hunit := pow_places_pos
  unfold inPlaces at hleast
  rw [hzero, Nat.zero_mul] at hleast
  omega

/-- Any decimal whose value is read back as a magnitude is read as that magnitude. -/
theorem ofDecimal_eq_finite (negative : Bool) {units digits : Nat} {exponent : Int}
    (hunits : Representable units) (hpos : 0 < units) (hplaces : -(places : Int) ≤ exponent)
    (h : readsBack units (inPlaces digits exponent) = true) :
    ofDecimal negative digits exponent = .finite negative units hunits := by
  have hdigits := digits_pos_of_readsBack hpos h
  have hhigh := length_add_exponent_le hpos hunits.2 hdigits h
  have hlow := le_length_add_exponent hpos hdigits hplaces h
  unfold ofDecimal
  dsimp only
  rw [if_neg (Nat.ne_of_gt hdigits), if_neg (Int.not_lt.2 hhigh), if_neg (Int.not_lt.2 hlow)]
  have hten : 0 < Nat.pow 10 (-exponent).toNat := Nat.pow_pos (by decide)
  refine round_eq_of_near negative hunits hten (near_of_readsBack hten ?_ h)
  -- Both sides are the digits with as many zeros.
  have hzeros : exponent.toNat + places = (exponent + places).toNat + (-exponent).toNat := by omega
  have hone : unitsPerOne = Nat.pow 2 places := by
    have hplaces : 1074 = places := rfl
    unfold unitsPerOne
    generalize 1074 = unit at hplaces ⊢
    rw [hplaces]
  unfold inPlaces
  generalize places = unit at *
  calc digits * Nat.pow 10 exponent.toNat * unitsPerOne * Nat.pow 5 unit
      = digits * (Nat.pow 10 exponent.toNat * Nat.pow 10 unit) := by
        rw [hone, Nat.mul_assoc, ← pow_ten, Nat.mul_assoc]
    _ = digits * Nat.pow 10 (exponent.toNat + unit) :=
        congrArg (digits * ·) (Nat.pow_add 10 exponent.toNat unit).symm
    _ = digits * (Nat.pow 10 (exponent + unit).toNat * Nat.pow 10 (-exponent).toNat) := by
        rw [hzeros]
        exact congrArg (digits * ·) (Nat.pow_add 10 (exponent + unit).toNat (-exponent).toNat)
    _ = digits * Nat.pow 10 (exponent + unit).toNat * Nat.pow 10 (-exponent).toNat :=
        (Nat.mul_assoc ..).symm

/-- A small whole number is read as the double of the integer. -/
theorem ofDecimal_eq_ofInt (negative : Bool) {n : Nat} (hn : n ≠ 0) (hsmall : n < Nat.pow 10 20) :
    ofDecimal negative n 0 = ofInt (signedUnits negative n) := by
  have hlength : (Nat.toDigits 10 n).length ≤ 20 :=
    (Nat.length_toDigits_le_iff (by decide) (by decide)).2 hsmall
  unfold ofDecimal ofInt
  dsimp only
  rw [if_neg hn, if_neg (by omega), if_neg (by omega), natAbs_signedUnits, signedUnits_neg_iff hn,
    Int.neg_zero]
  show round negative (n * 1 * unitsPerOne) 1 = _
  rw [Nat.mul_one]

end Binary64

end AuditedRules
