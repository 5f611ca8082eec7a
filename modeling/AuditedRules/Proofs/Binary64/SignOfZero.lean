import AuditedRules.Binary64.Notation
import AuditedRules.Proofs.Binary64.Exact

/-!
# The sign of zero

No operation on doubles tells the two zeros apart by more than the sign of a zero that it gives;
only a division by zero does, and gives infinities of either sign. An operation on two doubles is a
function of their canonical values as soon as it gives the same for both zeros on either side
(`apply_canonical`), so each operation is one case analysis of the other operand.
-/

namespace AuditedRules.Binary64

/-! ## Canonical values -/

/-- A value is canonical, or it is a zero. -/
theorem canonical_eq_or (x : Binary64) :
    x.canonical = x ∨ ∃ negative, x = zero negative ∧ x.canonical = zero false := by
  unfold canonical
  split
  · rename_i hzero
    obtain ⟨negative, hx⟩ := isZero_iff.1 hzero
    exact .inr ⟨negative, hx, rfl⟩
  · exact .inl rfl

/-- The canonical zero is positive. -/
theorem canonical_zero (negative : Bool) : (zero negative).canonical = zero false :=
  if_pos rfl

/-- Both zeros are taken as the same. -/
theorem canonical_zero_eq (negative negative' : Bool) :
    (zero negative).canonical = (zero negative').canonical := by
  rw [canonical_zero, canonical_zero]

/-- Taking a zero as positive twice is taking it so once. -/
theorem canonical_canonical (x : Binary64) : x.canonical.canonical = x.canonical := by
  rcases x.canonical_eq_or with hx | ⟨negative, -, hx⟩
  · rw [hx, hx]
  · rw [hx, canonical_zero]

/-- Taking a zero as positive makes no value a zero that is none. -/
theorem isZero_canonical (x : Binary64) : x.canonical.isZero = x.isZero := by
  rcases x.canonical_eq_or with hx | ⟨negative, rfl, hx⟩
  · rw [hx]
  · rw [hx]
    rfl

/-- A function of two values that is the same for both zeros on either side depends on their
canonical values only. -/
theorem apply_canonical {γ : Type} {f : Binary64 → Binary64 → γ}
    (left : ∀ negative y, f (zero negative) y = f (zero false) y)
    (right : ∀ negative x, f x (zero negative) = f x (zero false)) (x y : Binary64) :
    f x.canonical y.canonical = f x y := by
  have hleft : f x.canonical y.canonical = f x y.canonical := by
    rcases x.canonical_eq_or with hx | ⟨negative, rfl, hx⟩
    · rw [hx]
    · rw [hx, left negative]
  rcases y.canonical_eq_or with hy | ⟨negative, rfl, hy⟩
  · rw [hleft, hy]
  · rw [hleft, hy, right negative]

/-! ## Order -/

/-- Equality does not see the sign of zero. -/
theorem eq_canonical_canonical (x y : Binary64) : x.canonical.eq y.canonical = x.eq y := by
  refine apply_canonical (fun negative y => ?_) (fun negative x => ?_) x y
  · cases y <;> simp only [zero, eq, signedUnits_zero]
  · cases x <;> simp only [zero, eq, signedUnits_zero]

/-- A finite value equals what is the same as it with zeros taken as positive. -/
theorem eq_iff_canonical_eq {x y : Binary64} (h : x.isFinite) :
    x.eq y = true ↔ x.canonical = y.canonical := by
  cases x with
  | nan => cases h
  | infinity s => cases h
  | finite s u hu =>
    constructor
    · intro heq
      cases y with
      | nan => cases heq
      | infinity t => cases heq
      | finite t v hv =>
        have hsigned : signedUnits s u = signedUnits t v := eq_of_beq heq
        have hunits : u = v := by rw [← natAbs_signedUnits s u, hsigned, natAbs_signedUnits]
        subst hunits
        rcases Nat.eq_zero_or_pos u with rfl | hpos
        · exact canonical_zero_eq s t
        · have hs : decide (signedUnits s u < 0) = s := signedUnits_neg_iff (Nat.ne_of_gt hpos)
          have ht : decide (signedUnits t u < 0) = t := signedUnits_neg_iff (Nat.ne_of_gt hpos)
          rw [hsigned, ht] at hs
          rw [hs]
    · intro hcanonical
      rw [← eq_canonical_canonical, ← hcanonical, eq_canonical_canonical]
      exact beq_self_eq_true (signedUnits s u)

/-- Strict order does not see the sign of zero. -/
theorem lt_canonical_canonical (x y : Binary64) : x.canonical.lt y.canonical = x.lt y := by
  refine apply_canonical (fun negative y => ?_) (fun negative x => ?_) x y
  · cases y <;> simp only [zero, lt, signedUnits_zero]
  · cases x <;> simp only [zero, lt, signedUnits_zero]

/-- Order does not see the sign of zero. -/
theorem le_canonical_canonical (x y : Binary64) : x.canonical.le y.canonical = x.le y := by
  unfold le
  rw [lt_canonical_canonical, eq_canonical_canonical]

/-! ## Arithmetic -/

/-- Nothing is rounded to a zero. -/
theorem round_zero (negative : Bool) (denominator : Nat) :
    round negative 0 denominator = zero negative := by
  have hsignificand : ∀ shift, roundedSignificand 0 denominator shift * Nat.pow 2 shift = 0 := by
    intro shift
    have hnone : roundToEven 0 (denominator * Nat.pow 2 shift) = 0 := by
      simp [roundToEven]
    unfold roundedSignificand
    rw [hnone, Nat.zero_mul]
  unfold round zero
  exact ofScaled_eq_finite negative _ (hsignificand _) _

/-- In a sum only the sign of a sum of zero depends on the sign of a zero. -/
theorem add_canonical_canonical (x y : Binary64) :
    (x.canonical.add y.canonical).canonical = (x.add y).canonical := by
  refine apply_canonical (f := fun x y => (x.add y).canonical) (fun negative y => ?_)
    (fun negative x => ?_) x y
  · cases y with
    | nan => rfl
    | infinity t => rfl
    | finite t v h =>
      simp only [zero, add, addFinite, signedUnits_zero]
      split
      · exact canonical_zero_eq _ _
      · rfl
  · cases x with
    | nan => rfl
    | infinity s => rfl
    | finite s u h =>
      simp only [zero, add, addFinite, signedUnits_zero]
      split
      · exact canonical_zero_eq _ _
      · rfl

/-- Negation gives the same for canonical values up to the sign of zero. -/
theorem canonical_neg_canonical (x : Binary64) : x.canonical.neg.canonical = x.neg.canonical := by
  rcases x.canonical_eq_or with hx | ⟨negative, rfl, hx⟩
  · rw [hx]
  · rw [hx]
    exact canonical_zero_eq _ _

/-- In a difference only the sign of a difference of zero depends on the sign of a zero. -/
theorem sub_canonical_canonical (x y : Binary64) :
    (x.canonical.sub y.canonical).canonical = (x.sub y).canonical := by
  unfold sub
  rw [← add_canonical_canonical, canonical_canonical, canonical_neg_canonical,
    add_canonical_canonical]

/-- In a product only the sign of a product of zero depends on the sign of a zero. -/
theorem mul_canonical_canonical (x y : Binary64) :
    (x.canonical.mul y.canonical).canonical = (x.mul y).canonical := by
  refine apply_canonical (f := fun x y => (x.mul y).canonical) (fun negative y => ?_)
    (fun negative x => ?_) x y
  · cases y with
    | nan => rfl
    | infinity t => rfl
    | finite t v h =>
      simp only [zero, mul, Nat.zero_mul, round_zero]
      exact canonical_zero_eq _ _
  · cases x with
    | nan => rfl
    | infinity s => rfl
    | finite s u h =>
      simp only [zero, mul, Nat.mul_zero, round_zero]
      exact canonical_zero_eq _ _

/-- In a quotient with a divisor that is no zero, only the sign of a quotient of zero depends on the
sign of a zero. -/
theorem div_canonical_canonical (x : Binary64) {y : Binary64} (hy : y.isZero = false) :
    (x.canonical.div y.canonical).canonical = (x.div y).canonical := by
  have hdivisor : y.canonical = y := if_neg (by simp [hy])
  rw [hdivisor]
  rcases x.canonical_eq_or with hx | ⟨negative, rfl, hx⟩
  · rw [hx]
  · rw [hx]
    cases y with
    | nan => rfl
    | infinity t => exact canonical_zero_eq _ _
    | finite t v h =>
      have hv : v ≠ 0 := by simpa [isZero] using hy
      simp only [zero, div, Nat.zero_mul, if_neg hv, round_zero]
      exact canonical_zero_eq _ _

/-! ## Text -/

/-- The text for people does not show the sign of zero. -/
theorem display_canonical (x : Binary64) : x.canonical.display = x.display := by
  unfold display
  rw [exactInt?_canonical]
  cases hx : x.exactInt? with
  | some i => rfl
  | none => rw [canonical_of_exactInt?_eq_none hx]

end AuditedRules.Binary64
