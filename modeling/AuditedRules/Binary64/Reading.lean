import AuditedRules.Binary64.Basic

/-!
# Reading a decimal as a double

`digits * 10^exponent` is rounded once from its exact value. Exponents beyond the range of doubles
are cut off first, so that no huge power is computed: a positive decimal of at least `10^310` is
infinite, and one below `10^-400` is zero.
-/

namespace AuditedRules.Binary64

/-- The double nearest to `digits * 10^exponent`, with a sign. -/
def ofDecimal (negative : Bool) (digits : Nat) (exponent : Int) : Binary64 :=
  let length : Int := (Nat.toDigits 10 digits).length
  if digits = 0 then zero negative
  else if 310 < length + exponent then .infinity negative
  else if length + exponent < -400 then zero negative
  else
    round negative (digits * Nat.pow 10 exponent.toNat * unitsPerOne)
      (Nat.pow 10 (-exponent).toNat)

/-- The value of a run of decimal digits. -/
def digitsValue (digits : List Char) : Nat :=
  digits.foldl (fun n c => 10 * n + (c.toNat - '0'.toNat)) 0

/-- A decimal given by the digits before and after its point and its written exponent. -/
def ofParts (negative : Bool) (whole fraction : List Char) (exponent : Int) : Binary64 :=
  ofDecimal negative (digitsValue (whole ++ fraction)) (exponent - fraction.length)

end AuditedRules.Binary64
