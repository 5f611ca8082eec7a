import AuditedRules.Json.Basic

/-!
# What a text says, as far as it can be read

A document is the tree that a text in JSON or YAML describes. Decoding goes through it in the order
of the text and stops at the first problem, so the tree also says where reading had to stop: a value
that is not there is `broken`, and a sequence or mapping whose end was not reached is not `closed`.
Everything before such a place was read and keeps its meaning.

Some text is well-formed and still stands for no value, such as a number too large for a double. It
is `unreadable`: an error where its value is asked for, and no error where it is skipped.
-/

namespace AuditedRules

/-- The two formats that documents are written in. -/
inductive Format
  | json
  | yaml
deriving DecidableEq

/-- The tree that a text describes. -/
inductive Document
  | null
  | bool (value : Bool)
  | number (value : DocumentNumber)
  /-- A text in quotes, or in block form. -/
  | string (text : String)
  /-- A text without quotes, whose type follows from its spelling. -/
  | plain (text : String)
  | sequence (items : List Document) (closed : Bool)
  | mapping (members : List (Document × Document)) (closed : Bool)
  /-- Well-formed text that stands for no value. -/
  | unreadable
  /-- Here a value should be, and there is none. -/
  | broken

namespace Document

instance : Inhabited Document := ⟨broken⟩

mutual

/-- The text of the value is well-formed and complete, whatever it says. -/
def isComplete : Document → Bool
  | .sequence items closed => areComplete items && closed
  | .mapping members closed => membersComplete members && closed
  | .broken => false
  | .null => true
  | .bool _ => true
  | .number _ => true
  | .string _ => true
  | .plain _ => true
  | .unreadable => true

/-- All items are complete. -/
def areComplete : List Document → Bool
  | [] => true
  | item :: items => isComplete item && areComplete items

/-- All keys and values are complete. -/
def membersComplete : List (Document × Document) → Bool
  | [] => true
  | (key, value) :: members => isComplete key && (isComplete value && membersComplete members)

end

end Document

/-- The result of reading a text: the tree of its document, and whether there is more text after it
than blanks and comments. -/
structure Reading where
  /-- The document. -/
  root : Document
  /-- Something follows the document. -/
  trailing : Bool

end AuditedRules
