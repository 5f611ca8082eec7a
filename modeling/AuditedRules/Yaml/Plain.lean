import AuditedRules.Binary64.Reading
import AuditedRules.Text.Digit

/-!
# Texts without quotes in YAML

What a text without quotes means follows from its spelling: nothing, or one of the words for null,
is null; two words in three spellings are the booleans; then come integers, decimal or with `0x`,
`0o`, `0b`, and other numbers. Anything else is a string, and so is a decimal with superfluous
leading zeros and a number too large for a double.

An integer that needs more than 64 bits but at most 128 is recognised as such: what reads the
document decides whether it can use it.
-/

namespace AuditedRules

/-- A leaf of a document. -/
inductive Scalar
  | null
  | bool (value : Bool)
  /-- An integer of at most 64 bits. -/
  | integer (value : Int)
  /-- An integer of more than 64 and at most 128 bits. -/
  | wide (value : Int)
  | float (value : Binary64)
  | string (text : String)
deriving DecidableEq

namespace Yaml

/-- The words for null, and no text at all. -/
def isNullWord (text : String) : Bool :=
  text == "" || text == "~" || text == "null" || text == "Null" || text == "NULL"

/-- The words for the booleans. -/
def boolWord? (text : String) : Option Bool :=
  if text == "true" || text == "True" || text == "TRUE" then some true
  else if text == "false" || text == "False" || text == "FALSE" then some false
  else none

/-- A numeral without sign, decimal or with a mark for its radix. -/
def magnitude? : List Char → Option Nat
  | '0' :: 'x' :: digits => Text.numeral? 16 digits
  | '0' :: 'o' :: digits => Text.numeral? 8 digits
  | '0' :: 'b' :: digits => Text.numeral? 2 digits
  | digits => Text.numeral? 10 digits

/-- Decimal digits that start with a superfluous zero. -/
def hasLeadingZero : List Char → Bool
  | '0' :: rest => !rest.isEmpty && rest.all Char.isDigit
  | _ => false

/-- An integer, as far as 64 or else 128 bits hold it: with a minus sign as a signed one, otherwise
as one without sign. -/
def sizedInteger? (negative : Bool) (n : Nat) : Option Scalar :=
  if negative then
    if n ≤ Nat.pow 2 63 then some (.integer (-(n : Int)))
    else if n ≤ Nat.pow 2 127 then some (.wide (-(n : Int)))
    else none
  else if n < Nat.pow 2 64 then some (.integer n)
  else if n < Nat.pow 2 128 then some (.wide n)
  else none

/-- The exponent that a text is, from its marker on; no text at all is the exponent zero. -/
def exponent? : List Char → Option Int
  | [] => some 0
  | marker :: rest =>
    if marker == 'e' || marker == 'E' then
      match rest with
      | '-' :: digits => (Text.numeral? 10 digits).map fun n => -(n : Int)
      | '+' :: digits => (Text.numeral? 10 digits).map fun n => (n : Int)
      | digits => (Text.numeral? 10 digits).map fun n => (n : Int)
    else none

/-- The digits after the point at the front of a text, and the text after them. -/
def splitFraction : List Char → List Char × List Char
  | '.' :: rest => (rest.takeWhile Char.isDigit, rest.dropWhile Char.isDigit)
  | rest => ([], rest)

/-- A finite number in decimal digits, with a point or an exponent or neither. -/
def decimal? (negative : Bool) (unsigned : List Char) : Option Binary64 :=
  let whole := unsigned.takeWhile Char.isDigit
  let (fraction, rest) := splitFraction (unsigned.dropWhile Char.isDigit)
  if whole.isEmpty && fraction.isEmpty then none
  else (exponent? rest).bind fun exponent =>
    let x := Binary64.ofParts negative whole fraction exponent
    if x.isFinite then some x else none

/-- A number with a sign that has been taken off, as an integer or else as a double. -/
def number? (negative : Bool) (unsigned : List Char) : Option Scalar :=
  if hasLeadingZero unsigned then none
  else match (magnitude? unsigned).bind (sizedInteger? negative) with
    | some i => some i
    | none => (decimal? negative unsigned).map .float

/-- The words for the doubles that are not finite. -/
def specialWord? (text : String) : Option Binary64 :=
  if [".inf", ".Inf", ".INF", "+.inf", "+.Inf", "+.INF"].contains text then some (.infinity false)
  else if ["-.inf", "-.Inf", "-.INF"].contains text then some (.infinity true)
  else if [".nan", ".NaN", ".NAN"].contains text then some .nan
  else none

/-- A number with an optional sign. -/
def signedNumber? : List Char → Option Scalar
  | '+' :: unsigned => number? false unsigned
  | '-' :: unsigned => number? true unsigned
  | unsigned => number? false unsigned

end Yaml

/-- What a text without quotes means. -/
def Scalar.ofPlain (text : String) : Scalar :=
  if Yaml.isNullWord text then .null
  else match Yaml.boolWord? text with
    | some b => .bool b
    | none => match Yaml.specialWord? text with
      | some x => .float x
      | none => (Yaml.signedNumber? text.toList).getD (.string text)

end AuditedRules
