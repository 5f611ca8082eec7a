import AuditedRules.Json.Basic
import AuditedRules.Text.Digit

/-!
# Tokens of JSON text

The text is cut into tokens from left to right. The first character that cannot belong to a token
ends the list with `bad`, so what comes before it can still be read.

A number without point and exponent is an integer when it fits into 64 bits, signed if it has a
minus sign and unsigned otherwise; a larger one, and `-0`, is a double. A number that overflows to
an infinity is a token without a value, and so is a string with an escape for half of a surrogate
pair.

By default the double that is read is the one nearest to the decimal that stands in the text. A
faster reader may miss it by a few places, so how the parts of a number are read is a parameter.
-/

namespace AuditedRules.Json

/-- A token of JSON text. -/
inductive Token
  | null
  | bool (value : Bool)
  /-- A number, if a double can hold it. -/
  | number (value : Option DocumentNumber)
  /-- A string, if its escapes stand for characters. -/
  | string (text : Option String)
  | openArray
  | closeArray
  | openObject
  | closeObject
  | comma
  | colon
  /-- The text cannot be cut any further. -/
  | bad

/-- The blanks between tokens. -/
def isSpace (c : Char) : Bool :=
  c == ' ' || c == '\t' || c == '\n' || c == '\r'

/-! ## Numbers -/

/-- The greatest integer without sign that fits into 64 bits. -/
def maxUnsigned : Nat := 18446744073709551615

/-- The greatest magnitude of a negative integer that fits into 64 bits. -/
def maxNegative : Nat := 9223372036854775808

/-- The exponent at the front of a text, if it starts there and has digits: `none` when the marker
has no digits after it. -/
def takeExponent : List Char → Option (Option Int × List Char)
  | c :: rest =>
    if c == 'e' || c == 'E' then
      let (negative, rest) := match rest with
        | '+' :: rest => (false, rest)
        | '-' :: rest => (true, rest)
        | rest => (false, rest)
      let digits := rest.takeWhile Char.isDigit
      if digits.isEmpty then none
      else
        let n := (Binary64.digitsValue digits : Int)
        some (some (if negative then -n else n), rest.dropWhile Char.isDigit)
    else some (none, c :: rest)
  | [] => some (none, [])

/-- The digits after the point at the front of a text, if a point stands there: `none` when it has
no digits after it. -/
def takeFraction : List Char → Option (Option (List Char) × List Char)
  | '.' :: rest =>
    let digits := rest.takeWhile Char.isDigit
    if digits.isEmpty then none else some (some digits, rest.dropWhile Char.isDigit)
  | rest => some (none, rest)

/-- A whole number written without point and exponent. -/
def wholeNumber (negative : Bool) (n : Nat) : Option DocumentNumber :=
  if negative then
    if n = 0 then some (.float (.zero true))
    else if n ≤ maxNegative then some (.int (-(n : Int)))
    else finiteNumber (.ofDecimal true n 0)
  else if n ≤ maxUnsigned then some (.int n)
  else finiteNumber (.ofDecimal false n 0)
where
  /-- A double, unless it overflowed. -/
  finiteNumber (x : Binary64) : Option DocumentNumber :=
    if x.isFinite then some (.float x) else none

/-- What the parts of a number are read as: whether it has a minus sign, the digits of its whole
part, those behind its point, and its exponent. A number that cannot be held has no value. -/
abbrev NumberReading : Type :=
  Bool → List Char → Option (List Char) → Option Int → Option DocumentNumber

/-- A number from its parts, a double being the nearest one. -/
def numberOfParts (negative : Bool) (whole : List Char) (fraction : Option (List Char))
    (exponent : Option Int) : Option DocumentNumber :=
  match fraction, exponent with
  | none, none => wholeNumber negative (Binary64.digitsValue whole)
  | fraction, exponent =>
    wholeNumber.finiteNumber (.ofParts negative whole (fraction.getD []) (exponent.getD 0))

/-- The number after a sign, and the text after it. A whole part of several digits does not start
with zero. -/
def takeNumber (negative : Bool) (text : List Char) (reading : NumberReading := numberOfParts) :
    Option (Token × List Char) := do
  let whole := text.takeWhile Char.isDigit
  if whole.isEmpty || (whole.head? == some '0' && whole.length != 1) then none
  else
    let (fraction, rest) ← takeFraction (text.dropWhile Char.isDigit)
    let (exponent, rest) ← takeExponent rest
    some (.number (reading negative whole fraction exponent), rest)

/-! ## Strings -/

/-- Four hexadecimal digits. -/
def takeHex4 : List Char → Option (Nat × List Char)
  | a :: b :: c :: d :: rest => do
    let a ← Text.hexValue? a
    let b ← Text.hexValue? b
    let c ← Text.hexValue? c
    let d ← Text.hexValue? d
    some (((a * 16 + b) * 16 + c) * 16 + d, rest)
  | _ => none

/-- The first half of a surrogate pair. -/
def isHighSurrogate (n : Nat) : Bool := 0xD800 ≤ n && n < 0xDC00

/-- The second half of a surrogate pair. -/
def isLowSurrogate (n : Nat) : Bool := 0xDC00 ≤ n && n < 0xE000

/-- The character that an escape of four digits begins, and the text after it. A character beyond
the first `2^16` takes two such escapes; half of such a pair is no character. `none` stands for an
escape without four digits. -/
def takeUnicode (text : List Char) : Option (Option Char × List Char) := do
  let (n, rest) ← takeHex4 text
  if isHighSurrogate n then
    match rest with
    | '\\' :: 'u' :: more =>
      let (m, after) ← takeHex4 more
      if isLowSurrogate m then
        some (some (Char.ofNat (0x10000 + (n - 0xD800) * 0x400 + (m - 0xDC00))), after)
      else
        -- The second escape is left to be read for itself.
        some (none, rest)
    | rest => some (none, rest)
  else if isLowSurrogate n then some (none, rest)
  else some (some (Char.ofNat n), rest)

/-- The character that a one-letter escape stands for. -/
def shortEscape? : Char → Option Char
  | '"' => some '"'
  | '\\' => some '\\'
  | '/' => some '/'
  | 'b' => some '\x08'
  | 'f' => some '\x0c'
  | 'n' => some '\n'
  | 'r' => some '\r'
  | 't' => some '\t'
  | _ => none

/-- The string after its opening quote, and the text after its closing quote. `read` holds the
characters so far in reverse order, as long as all escapes stood for characters. The bound exceeds
the length of the text. -/
def takeString : Nat → List Char → Option (List Char) → Option (Token × List Char)
  | 0, _, _ => none
  | _ + 1, [], _ => none
  | bound + 1, c :: rest, read =>
    if c == '"' then some (.string (read.map fun cs => String.ofList cs.reverse), rest)
    else if c == '\\' then
      match rest with
      | 'u' :: digits => do
        let (char, rest) ← takeUnicode digits
        takeString bound rest (do some ((← char) :: (← read)))
      | letter :: rest => do
        let char ← shortEscape? letter
        takeString bound rest (read.map (char :: ·))
      | [] => none
    else if c.toNat < 32 then none
    else takeString bound rest (read.map (c :: ·))

/-! ## Texts -/

/-- The token at the front of a text that starts with `c`, and the text after it. The bound exceeds
the length of `rest`. -/
def takeToken (bound : Nat) (c : Char) (rest : List Char)
    (reading : NumberReading := numberOfParts) : Option (Token × List Char) :=
  match c, rest with
  | '[', rest => some (.openArray, rest)
  | ']', rest => some (.closeArray, rest)
  | '\x7b', rest => some (.openObject, rest)
  | '\x7d', rest => some (.closeObject, rest)
  | ',', rest => some (.comma, rest)
  | ':', rest => some (.colon, rest)
  | '"', rest => takeString bound rest (some [])
  | 'n', 'u' :: 'l' :: 'l' :: rest => some (.null, rest)
  | 't', 'r' :: 'u' :: 'e' :: rest => some (.bool true, rest)
  | 'f', 'a' :: 'l' :: 's' :: 'e' :: rest => some (.bool false, rest)
  | '-', rest => takeNumber true rest reading
  | c, rest => takeNumber false (c :: rest) reading

/-- The tokens of a text. The bound exceeds the length of the text. -/
def tokensWithin (bound : Nat) (text : List Char) (reading : NumberReading := numberOfParts) :
    List Token :=
  match bound, text with
  | 0, _ => [.bad]
  | _ + 1, [] => []
  | bound + 1, c :: rest =>
    if isSpace c then tokensWithin bound rest reading
    else match takeToken (bound + 1) c rest reading with
      | some (token, rest) => token :: tokensWithin bound rest reading
      | none => [.bad]

/-- The tokens of a text. -/
def tokens (text : List Char) (reading : NumberReading := numberOfParts) : List Token :=
  tokensWithin (text.length + 1) text reading

end AuditedRules.Json
