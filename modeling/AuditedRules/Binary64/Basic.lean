/-!
# Double-precision numbers

A double is NaN, an infinity, or a finite value. Every finite double is a whole number of units of
`2^-1074`, the least positive one, so its magnitude is kept as that natural number: sums,
differences and comparisons of finite values are integer arithmetic, and a product or a quotient is
one exact fraction of naturals. An operation computes the exact result and rounds it once, to the
nearest representable magnitude and on a tie to the one with the even significand.

A natural number of units is representable when it is a significand of at most `2^53` times a power
of two, and lies below `2^2098` units, which is `2^1024`.
-/

namespace AuditedRules

/-- The number of units of `2^-1074` that make one. -/
def unitsPerOne : Nat := Nat.pow 2 1074

/-- The least number of units that is too large for a finite double. -/
def unitsOverflow : Nat := Nat.pow 2 2098

/-- The greatest significand, `2^53`; all naturals up to it are doubles. -/
def maxSignificand : Nat := 9007199254740992

/-- Zero units are below the bound. -/
theorem unitsOverflow_pos : 0 < unitsOverflow := by
  unfold unitsOverflow
  generalize 2098 = places
  exact Nat.two_pow_pos places

/-- A number of units is representable when a significand of at most `2^53`, shifted left, gives it
and it does not overflow. -/
def Representable (units : Nat) : Prop :=
  (∃ significand shift, significand ≤ maxSignificand ∧ units = significand * Nat.pow 2 shift) ∧
    units < unitsOverflow

/-- A double: NaN, an infinity, or a sign with a representable magnitude in units of `2^-1074`. -/
inductive Binary64
  | nan
  | infinity (negative : Bool)
  | finite (negative : Bool) (units : Nat) (representable : Representable units)
deriving DecidableEq

/-! ## Rounding -/

/-- The number of binary places that a magnitude of `quotient` units has beyond 53. -/
def excessPlaces (quotient : Nat) : Nat :=
  quotient.log2 - 52

/-- The whole number nearest to `numerator / denominator`, the even one on a tie. -/
def roundToEven (numerator denominator : Nat) : Nat :=
  let floor := numerator / denominator
  let doubled := 2 * (numerator % denominator)
  if doubled < denominator then floor
  else if denominator < doubled then floor + 1
  else if floor % 2 = 0 then floor
  else floor + 1

/-- The significand to which `numerator / denominator` units round, at the given shift. -/
def roundedSignificand (numerator denominator shift : Nat) : Nat :=
  roundToEven numerator (denominator * Nat.pow 2 shift)

/-- Shifted by its excess places, a quotient rounds to a significand. -/
theorem roundedSignificand_le (numerator denominator : Nat) :
    roundedSignificand numerator denominator (excessPlaces (numerator / denominator))
      ≤ maxSignificand := by
  unfold roundedSignificand roundToEven excessPlaces maxSignificand
  generalize hs : (numerator / denominator).log2 - 52 = shift
  have hlt : numerator / (denominator * Nat.pow 2 shift) < 9007199254740992 := by
    rw [← Nat.div_div_eq_div_mul]
    rw [Nat.pow_eq, Nat.div_lt_iff_lt_mul (Nat.two_pow_pos _),
      show 9007199254740992 = 2 ^ 53 from rfl, ← Nat.pow_add]
    refine Nat.lt_of_lt_of_le (Nat.lt_log2_self (n := numerator / denominator)) ?_
    exact Nat.pow_le_pow_right (by decide) (by omega)
  dsimp only
  split
  · omega
  · split
    · omega
    · split <;> omega

namespace Binary64

/-- The magnitude `significand * 2^shift` with a sign: the infinity of that sign when it
overflows. -/
def ofScaled (negative : Bool) (significand shift : Nat) (h : significand ≤ maxSignificand) :
    Binary64 :=
  if bounded : significand * Nat.pow 2 shift < unitsOverflow then
    .finite negative (significand * Nat.pow 2 shift) ⟨⟨significand, shift, h, rfl⟩, bounded⟩
  else
    .infinity negative

/-- The double nearest to `numerator / denominator` units, with a sign. -/
def round (negative : Bool) (numerator denominator : Nat) : Binary64 :=
  ofScaled negative
    (roundedSignificand numerator denominator (excessPlaces (numerator / denominator)))
    (excessPlaces (numerator / denominator))
    (roundedSignificand_le numerator denominator)

/-- The zero of a sign. -/
def zero (negative : Bool) : Binary64 :=
  .finite negative 0 ⟨⟨0, 0, Nat.zero_le _, rfl⟩, unitsOverflow_pos⟩

instance : Inhabited Binary64 := ⟨zero false⟩

/-- The double nearest to an integer. -/
def ofInt (i : Int) : Binary64 :=
  round (decide (i < 0)) (i.natAbs * unitsPerOne) 1

/-! ## Classes of values -/

/-- Neither NaN nor an infinity. -/
def isFinite : Binary64 → Bool
  | .finite .. => true
  | _ => false

/-- A zero of either sign. -/
def isZero : Binary64 → Bool
  | .finite _ units _ => units == 0
  | _ => false

/-- The number of units with its sign; both zeros are `0`. -/
def signedUnits (negative : Bool) (units : Nat) : Int :=
  if negative then -(units : Int) else units

/-- The integer that a finite value is, if it is one of magnitude at most `2^53`; within that bound
every integer is a double, and both zeros are the integer `0`. -/
def exactInt? : Binary64 → Option Int
  | .finite negative units _ =>
    if units % unitsPerOne = 0 ∧ units ≤ maxSignificand * unitsPerOne then
      some (signedUnits negative (units / unitsPerOne))
    else
      none
  | _ => none

/-! ## Order -/

/-- Equality of values: NaN equals nothing, and the two zeros are equal. -/
def eq : Binary64 → Binary64 → Bool
  | .infinity s, .infinity t => s == t
  | .finite s u _, .finite t v _ => signedUnits s u == signedUnits t v
  | _, _ => false

/-- Strict order of values; nothing is below or above NaN. -/
def lt : Binary64 → Binary64 → Bool
  | .nan, _ => false
  | _, .nan => false
  | .infinity s, .infinity t => s && !t
  | .infinity s, .finite .. => s
  | .finite .., .infinity t => !t
  | .finite s u _, .finite t v _ => decide (signedUnits s u < signedUnits t v)

/-- Below or equal. -/
def le (x y : Binary64) : Bool :=
  x.lt y || x.eq y

/-! ## Arithmetic -/

/-- The value with the other sign. -/
def neg : Binary64 → Binary64
  | .nan => .nan
  | .infinity s => .infinity (!s)
  | .finite s u h => .finite (!s) u h

/-- A sum of two finite values: exact, then rounded. A sum of zero is negative only when both
summands are. -/
def addFinite (s : Bool) (u : Nat) (t : Bool) (v : Nat) : Binary64 :=
  let sum := signedUnits s u + signedUnits t v
  if sum = 0 then zero (s && t) else round (decide (sum < 0)) sum.natAbs 1

/-- The sum; infinities of opposite sign have none. -/
def add : Binary64 → Binary64 → Binary64
  | .nan, _ => .nan
  | _, .nan => .nan
  | .infinity s, .infinity t => if s = t then .infinity s else .nan
  | .infinity s, .finite .. => .infinity s
  | .finite .., .infinity t => .infinity t
  | .finite s u _, .finite t v _ => addFinite s u t v

/-- The difference, as the sum with the negated subtrahend. -/
def sub (x y : Binary64) : Binary64 :=
  x.add y.neg

/-- The product; a zero and an infinity have none. -/
def mul : Binary64 → Binary64 → Binary64
  | .nan, _ => .nan
  | _, .nan => .nan
  | .infinity s, .infinity t => .infinity (s != t)
  | .infinity s, .finite t v _ => if v = 0 then .nan else .infinity (s != t)
  | .finite s u _, .infinity t => if u = 0 then .nan else .infinity (s != t)
  | .finite s u _, .finite t v _ => round (s != t) (u * v) unitsPerOne

/-- The quotient; two zeros or two infinities have none, and a zero divisor gives an infinity. -/
def div : Binary64 → Binary64 → Binary64
  | .nan, _ => .nan
  | _, .nan => .nan
  | .infinity _, .infinity _ => .nan
  | .infinity s, .finite t _ _ => .infinity (s != t)
  | .finite s _ _, .infinity t => zero (s != t)
  | .finite s u _, .finite t v _ =>
    if v = 0 then
      if u = 0 then .nan else .infinity (s != t)
    else
      -- The units of the divisor cancel those of the dividend.
      round (s != t) (u * unitsPerOne) v

end Binary64

end AuditedRules
