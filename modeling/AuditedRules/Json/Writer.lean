import AuditedRules.Json.Basic
import AuditedRules.Binary64.Notation

/-!
# Writing JSON

Two layouts: compact, without any blank, and indented by two spaces a level, where an empty array or
object stays on one line. In a string the quote, the backslash and the control characters are
escaped, the latter by their short names where they have one; all other characters stand for
themselves. A double that is not finite is written as null.

The compact writer puts its text in front of what is to follow, so that a written value can be
followed by any text.
-/

namespace AuditedRules.Json

/-- A hexadecimal digit, in lower case. -/
def hexDigit (n : Nat) : Char :=
  if n < 10 then Char.ofNat ('0'.toNat + n) else Char.ofNat ('a'.toNat + n - 10)

/-- A character inside a string. -/
def escapeChar (c : Char) : List Char :=
  if c = '"' then ['\\', '"']
  else if c = '\\' then ['\\', '\\']
  else if c = '\n' then ['\\', 'n']
  else if c = '\r' then ['\\', 'r']
  else if c = '\t' then ['\\', 't']
  else if c = '\x08' then ['\\', 'b']
  else if c = '\x0c' then ['\\', 'f']
  else if c.toNat < 32 then
    ['\\', 'u', '0', '0', hexDigit (c.toNat / 16), hexDigit (c.toNat % 16)]
  else [c]

/-- A string in quotes, followed by `rest`. -/
def writeString (s : String) (rest : List Char) : List Char :=
  '"' :: (s.toList.flatMap escapeChar ++ '"' :: rest)

/-- A number. -/
def numberText : DocumentNumber → List Char
  | .int i => NumberStyle.integer i
  | .float (.finite negative units _) => NumberStyle.document.finite negative units
  | .float _ => ['n', 'u', 'l', 'l']

/-! ## Compact -/

mutual

/-- A value without blanks, followed by `rest`. -/
def write : Json → List Char → List Char
  | .null, rest => 'n' :: 'u' :: 'l' :: 'l' :: rest
  | .bool true, rest => 't' :: 'r' :: 'u' :: 'e' :: rest
  | .bool false, rest => 'f' :: 'a' :: 'l' :: 's' :: 'e' :: rest
  | .number n, rest => numberText n ++ rest
  | .string s, rest => writeString s rest
  | .array [], rest => '[' :: ']' :: rest
  | .array (item :: items), rest => '[' :: write item (writeItems items rest)
  | .object [], rest => '\x7b' :: '\x7d' :: rest
  | .object ((name, value) :: members), rest =>
    '\x7b' :: writeString name (':' :: write value (writeMembers members rest))

/-- The further items of an array and its closing bracket. -/
def writeItems : List Json → List Char → List Char
  | [], rest => ']' :: rest
  | item :: items, rest => ',' :: write item (writeItems items rest)

/-- The further members of an object and its closing brace. -/
def writeMembers : List (String × Json) → List Char → List Char
  | [], rest => '\x7d' :: rest
  | (name, value) :: members, rest =>
    ',' :: writeString name (':' :: write value (writeMembers members rest))

end

/-- The compact text of a value. -/
def compact (v : Json) : String :=
  String.ofList (v.write [])

/-! ## Indented -/

/-- A new line, indented to a level. -/
def newLine (level : Nat) (rest : List Char) : List Char :=
  '\n' :: (List.replicate (2 * level) ' ' ++ rest)

mutual

/-- A value at a level of indentation, followed by `rest`. -/
def writeIndented (level : Nat) : Json → List Char → List Char
  | .array (item :: items), rest =>
    '[' :: newLine (level + 1)
      (writeIndented (level + 1) item (indentedItems level items rest))
  | .object ((name, value) :: members), rest =>
    '\x7b' :: newLine (level + 1) (writeString name
      (':' :: ' ' :: writeIndented (level + 1) value (indentedMembers level members rest)))
  | .null, rest => write .null rest
  | .bool b, rest => write (.bool b) rest
  | .number n, rest => write (.number n) rest
  | .string s, rest => write (.string s) rest
  | .array [], rest => write (.array []) rest
  | .object [], rest => write (.object []) rest

/-- The further items of an array at a level and its closing bracket. -/
def indentedItems (level : Nat) : List Json → List Char → List Char
  | [], rest => newLine level (']' :: rest)
  | item :: items, rest =>
    ',' :: newLine (level + 1) (writeIndented (level + 1) item (indentedItems level items rest))

/-- The further members of an object at a level and its closing brace. -/
def indentedMembers (level : Nat) : List (String × Json) → List Char → List Char
  | [], rest => newLine level ('\x7d' :: rest)
  | (name, value) :: members, rest =>
    ',' :: newLine (level + 1) (writeString name
      (':' :: ' ' :: writeIndented (level + 1) value (indentedMembers level members rest)))

end

/-- The text of a value indented by two spaces a level. -/
def pretty (v : Json) : String :=
  String.ofList (v.writeIndented 0 [])

end AuditedRules.Json
