import AuditedRules.Text.Unprintable

/-!
# Texts quoted in messages

A text that a message mentions stands in double quotes. Quotes, backslashes and characters that
would not show are written as escapes, by a letter or by their number in hexadecimal digits.
-/

namespace AuditedRules.Text

/-- A character inside a quoted text. -/
def quotedChar (c : Char) : List Char :=
  if c = '\t' then ['\\', 't']
  else if c = '\n' then ['\\', 'n']
  else if c = '\r' then ['\\', 'r']
  else if c = '\x00' then ['\\', '0']
  else if c = '"' then ['\\', '"']
  else if c = '\\' then ['\\', '\\']
  else if isUnprintable c then
    '\\' :: 'u' :: '\x7b' :: (Nat.toDigits 16 c.toNat ++ ['\x7d'])
  else [c]

/-- A text in quotes. -/
def quoted (text : String) : String :=
  String.ofList ('"' :: (text.toList.flatMap quotedChar ++ ['"']))

end AuditedRules.Text
