import AuditedRules.Binary64.Shortest

/-!
# Written forms of a double

A chosen decimal is laid out by one record of decisions: between which exponents of the leading
digit it is written without an exponent, whether a whole number keeps `.0`, and how an exact tie of
digits goes. An exponent is always signed and has no leading zeros.
-/

namespace AuditedRules

/-- How doubles are written. -/
structure NumberStyle where
  /-- Which of two equally near shortest decimals is written. -/
  tie : TieRule
  /-- The exponents of the leading digit at which no exponent is written, as a half-open range;
  with no range an exponent is never written. -/
  positional : Option (Int × Int)
  /-- A whole number written without an exponent ends in `.0`. -/
  pointZero : Bool

namespace NumberStyle

/-- The digits of a natural number. -/
def digitsOf (n : Nat) : List Char :=
  Nat.toDigits 10 n

/-- An integer in decimal digits. -/
def integer (i : Int) : List Char :=
  if i < 0 then '-' :: digitsOf i.natAbs else digitsOf i.natAbs

/-- Digits with the point after the first `lead` of them, filled with zeros on either side. -/
def placePoint (style : NumberStyle) (digits : List Char) (lead : Int) : List Char :=
  if lead ≤ 0 then
    '0' :: '.' :: (List.replicate lead.natAbs '0' ++ digits)
  else if lead.toNat < digits.length then
    digits.take lead.toNat ++ '.' :: digits.drop lead.toNat
  else
    digits ++ List.replicate (lead.toNat - digits.length) '0' ++
      (if style.pointZero then ['.', '0'] else [])

/-- Digits in scientific form, the leading digit standing for `10^exponent`. -/
def scientific (digits : List Char) (exponent : Int) : List Char :=
  let mantissa := match digits with
    | first :: second :: rest => first :: '.' :: second :: rest
    | short => short
  let sign := if exponent < 0 then '-' else '+'
  mantissa ++ 'e' :: sign :: digitsOf exponent.natAbs

/-- A decimal is written without an exponent when its leading digit's exponent is in range. -/
def isPositional (style : NumberStyle) (exponent : Int) : Bool :=
  match style.positional with
  | none => true
  | some (low, high) => decide (low ≤ exponent ∧ exponent < high)

/-- A positive decimal. -/
def decimal (style : NumberStyle) (d : Decimal) : List Char :=
  let digits := digitsOf d.digits
  let lead := (digits.length : Int) + d.exponent
  if style.isPositional (lead - 1) then style.placePoint digits lead
  else scientific digits (lead - 1)

/-- A magnitude in units of `2^-1074`. -/
def magnitude (style : NumberStyle) (units : Nat) : List Char :=
  if units = 0 then
    if style.pointZero then ['0', '.', '0'] else ['0']
  else
    style.decimal (Shortest.decimal style.tie units)

/-- A finite value with its sign. -/
def finite (style : NumberStyle) (negative : Bool) (units : Nat) : List Char :=
  if negative then '-' :: style.magnitude units else style.magnitude units

end NumberStyle

/-- Numbers in documents: without an exponent from `10^-5` up to `10^16`, whole ones with `.0`. -/
def NumberStyle.document : NumberStyle where
  tie := .even
  positional := some (-5, 16)
  pointZero := true

/-- Numbers shown to people: never an exponent. -/
def NumberStyle.shown : NumberStyle where
  tie := .up
  positional := none
  pointZero := false

/-- The words for the values that are not finite. -/
def Binary64.specialWord : Binary64 → String
  | .nan => "NaN"
  | .infinity true => "-Infinity"
  | .infinity false => "Infinity"
  | .finite .. => ""

/-- A number as shown to people: an exact integer in its digits, else the fewest digits that read
back, without an exponent. -/
def Binary64.display (x : Binary64) : String :=
  match x.exactInt? with
  | some i => String.ofList (NumberStyle.integer i)
  | none => match x with
    | .finite negative units _ => String.ofList (NumberStyle.shown.finite negative units)
    | special => special.specialWord

end AuditedRules
