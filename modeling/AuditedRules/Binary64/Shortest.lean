import AuditedRules.Binary64.Basic

/-!
# The fewest digits that read back

Since `2^-1074` is `5^1074 / 10^1074`, every finite double is also a whole number of units of
`10^-1074`. In these decimal units the reals that round to a magnitude form an interval with whole
end points, once all is multiplied by four, and a decimal with few digits is a multiple of a power
of ten. So choosing digits is a search over naturals: for one, two, … seventeen digits, the two
multiples next to the value are tried, the first length with a hit wins, and of two hits the nearer.
An exact tie is decided by the caller's rule.

Whatever is chosen lies in the interval; were no length to fit, the exact value would be given.
-/

namespace AuditedRules

/-- What happens when two decimals of the fewest digits are equally near. -/
inductive TieRule
  | even
  | up
deriving DecidableEq

/-- A positive decimal, `digits * 10^exponent`. -/
structure Decimal where
  /-- The digits, as one number. -/
  digits : Nat
  /-- The power of ten. -/
  exponent : Int
deriving DecidableEq

namespace Shortest

/-- The number of decimal places in which every finite double is exact. -/
def places : Nat := 1074

/-- The power of two that divides a magnitude's significand from its units. -/
def shiftOf (units : Nat) : Nat :=
  excessPlaces units

/-- Four times the lower end of the reals that round to a magnitude, in decimal units. The value
below a power of two is only half as far away as the value above. -/
def lowerEnd (units : Nat) : Nat :=
  let shift := shiftOf units
  let step := Nat.pow 2 shift
  -- Among the doubles of the least exponent there is no shorter gap.
  let gap := if shift ≠ 0 ∧ units = Nat.pow 2 (52 + shift) then step else 2 * step
  (4 * units - gap) * Nat.pow 5 places

/-- Four times the upper end of the reals that round to a magnitude, in decimal units. -/
def upperEnd (units : Nat) : Nat :=
  (4 * units + 2 * Nat.pow 2 (shiftOf units)) * Nat.pow 5 places

/-- The ends themselves round to the magnitude when its significand is even. -/
def endsIncluded (units : Nat) : Bool :=
  units / Nat.pow 2 (shiftOf units) % 2 == 0

/-- A number of decimal units rounds to the magnitude. -/
def readsBack (units candidate : Nat) : Bool :=
  let c := 4 * candidate
  if endsIncluded units then
    decide (lowerEnd units ≤ c ∧ c ≤ upperEnd units)
  else
    decide (lowerEnd units < c ∧ c < upperEnd units)

/-- Of two multiples of `grid` that both read back, the nearer, and on a tie the one that the rule
names. -/
def nearer (tie : TieRule) (exact grid below : Nat) : Nat :=
  let doubled := 2 * (exact - below * grid)
  if doubled < grid then below
  else if grid < doubled then below + 1
  else match tie with
    | .up => below + 1
    | .even => if below % 2 = 0 then below else below + 1

/-- The multiple of `grid` to be written for a magnitude, if one of the two next to it reads
back. -/
def onGrid? (tie : TieRule) (units exact grid : Nat) : Option Nat :=
  let below := exact / grid
  match readsBack units (below * grid), readsBack units ((below + 1) * grid) with
  | true, true => some (nearer tie exact grid below)
  | true, false => some below
  | false, true => some (below + 1)
  | false, false => none

/-- Searches the lengths from `17 - remaining + 1` digits on; `length` is the number of digits of
the exact value in decimal units. The answer is a multiple and the power of ten that it counts. -/
def search (tie : TieRule) (units exact length : Nat) : Nat → Option (Nat × Nat)
  | 0 => none
  | remaining + 1 =>
    let zeros := length - (17 - remaining)
    match onGrid? tie units exact (Nat.pow 10 zeros) with
    | some multiple => some (multiple, zeros)
    | none => search tie units exact length remaining

/-- Moves trailing zeros of the digits into the exponent. -/
def stripZeros : Nat → Nat → Int → Decimal
  | 0, digits, exponent => ⟨digits, exponent⟩
  | fuel + 1, digits, exponent =>
    if digits % 10 = 0 then stripZeros fuel (digits / 10) (exponent + 1) else ⟨digits, exponent⟩

/-- The decimal to be written for a positive magnitude. -/
def decimal (tie : TieRule) (units : Nat) : Decimal :=
  let exact := units * Nat.pow 5 places
  let length := (Nat.toDigits 10 exact).length
  match search tie units exact length 17 with
  | some (multiple, zeros) => stripZeros 20 multiple ((zeros : Int) - places)
  | none => ⟨exact, -places⟩

end Shortest

end AuditedRules
