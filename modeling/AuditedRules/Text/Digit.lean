/-!
# Digits

Numerals in a radix of at most sixteen; the letters of the higher digits are of either case.
-/

namespace AuditedRules.Text

/-- The value of a hexadecimal digit. -/
def hexValue? (c : Char) : Option Nat :=
  if c.isDigit then some (c.toNat - '0'.toNat)
  else if 'a' ≤ c && c ≤ 'f' then some (c.toNat - 'a'.toNat + 10)
  else if 'A' ≤ c && c ≤ 'F' then some (c.toNat - 'A'.toNat + 10)
  else none

/-- The value of a digit in a radix of at most sixteen. -/
def digitValue? (radix : Nat) (c : Char) : Option Nat :=
  (hexValue? c).filter (· < radix)

/-- The number that a numeral continues to, after the digits read so far gave `n`. -/
def continueNumeral? (radix n : Nat) : List Char → Option Nat
  | [] => some n
  | c :: rest => (digitValue? radix c).bind fun d => continueNumeral? radix (n * radix + d) rest

/-- The number of a numeral without sign; it has at least one digit. -/
def numeral? (radix : Nat) (digits : List Char) : Option Nat :=
  if digits.isEmpty then none else continueNumeral? radix 0 digits

end AuditedRules.Text
