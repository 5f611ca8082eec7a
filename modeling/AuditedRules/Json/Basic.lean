import AuditedRules.Binary64.Reading
import AuditedRules.OrderedMap

/-!
# JSON values

A JSON value with its numbers as documents distinguish them: a whole number written without point
and exponent is an integer, any other number is a double. An object keeps its members in a list;
values read from text have them in ascending order of names without repetition, and records built
here list them in the order in which they are to be written.
-/

namespace AuditedRules

/-- A number in a document. -/
inductive DocumentNumber
  /-- A whole number written without point and exponent. -/
  | int (value : Int)
  /-- A number that is not written as a whole number, or does not fit into 64 bits. -/
  | float (value : Binary64)
deriving DecidableEq

/-- The double that a number stands for. -/
def DocumentNumber.toBinary64 : DocumentNumber → Binary64
  | .int i => .ofInt i
  | .float x => x

/-- A JSON value. -/
inductive Json
  | null
  | bool (value : Bool)
  | number (value : DocumentNumber)
  | string (text : String)
  | array (items : List Json)
  | object (members : List (String × Json))

namespace Json

instance : Inhabited Json := ⟨null⟩

/-- An object whose members are put into ascending order of names; the last member of a name
counts. -/
def ofMembers (members : List (String × Json)) : Json :=
  .object (members.foldl (fun entries m => setEntry m.1 m.2 entries) [])

/-- The member of a name, if the value is an object that has it. -/
def get? (name : String) : Json → Option Json
  | .object members => entryValue? name members
  | _ => none

/-- The text of a string value. -/
def string? : Json → Option String
  | .string s => some s
  | _ => none

/-- A value that is absent is written as null. -/
def ofOption (value : Option Json) : Json :=
  value.getD .null

/-- An optional text. -/
def ofText? (text : Option String) : Json :=
  ofOption (text.map .string)

end Json

/-- The six kinds of JSON values, as they are named in messages. -/
inductive Json.Kind
  | null
  | boolean
  | number
  | string
  | array
  | object
deriving DecidableEq

/-- The name of a kind. -/
def Json.Kind.name : Json.Kind → String
  | .null => "null"
  | .boolean => "boolean"
  | .number => "number"
  | .string => "string"
  | .array => "array"
  | .object => "object"

/-- The kind of a value. -/
def Json.kind : Json → Json.Kind
  | .null => .null
  | .bool _ => .boolean
  | .number _ => .number
  | .string _ => .string
  | .array _ => .array
  | .object _ => .object

end AuditedRules
