import AuditedRules.Document.Decoder
import AuditedRules.Json.Writer

/-!
# Runtime values

The values that records hold and predicates compute: booleans, doubles and strings. Nothing is
converted from one type to another; values of different types are unequal.
-/

namespace AuditedRules

/-- The types of runtime values. -/
inductive ValueType
  | number
  | string
  | boolean
deriving DecidableEq

/-- The name of a type. -/
def ValueType.name : ValueType → String
  | .number => "number"
  | .string => "string"
  | .boolean => "boolean"

/-- A runtime value. -/
inductive Value
  | bool (value : Bool)
  | number (value : Binary64)
  | string (text : String)
deriving DecidableEq

namespace Value

instance : Inhabited Value := ⟨.bool false⟩

/-- The type of a value. -/
def type : Value → ValueType
  | .bool _ => .boolean
  | .number _ => .number
  | .string _ => .string

/-- The number that a value is. -/
def number? : Value → Option Binary64
  | .number x => some x
  | _ => none

/-- The truth value that stands for a value: `false`, zero, NaN and the empty string are false,
everything else is true. -/
def truthy : Value → Bool
  | .bool b => b
  | .number x => !x.isZero && x != .nan
  | .string s => s != ""

/-- Equality of values. Values of different types are unequal, the two zeros are equal, and NaN
equals nothing. -/
def strictEq : Value → Value → Bool
  | .bool a, .bool b => a == b
  | .number x, .number y => x.eq y
  | .string s, .string t => s == t
  | _, _ => false

/-- The text of a value for people. -/
def display : Value → String
  | .bool b => toString b
  | .number x => x.display
  | .string s => s

/-- The value of a JSON scalar other than null. -/
def ofJson? : Json → Option Value
  | .bool b => some (.bool b)
  | .number n => some (.number n.toBinary64)
  | .string s => some (.string s)
  | _ => none

/-- The JSON form of a value. A whole number of magnitude at most `2^53` is an integer, and a number
that is not finite is null. -/
def toJson : Value → Json
  | .bool b => .bool b
  | .number x => match x.exactInt? with
    | some i => .number (.int i)
    | none => if x.isFinite then .number (.float x) else .null
  | .string s => .string s

/-- Reads a runtime value. -/
def decoder : Decoder Value := fun format levels document =>
  match document.scalar? with
  | some (.bool b) => .ok (.bool b)
  | some (.integer i) => .ok (.number (.ofInt i))
  | some (.float x) => .ok (.number x)
  | some (.string s) => .ok (.string s)
  | _ => do
    let _ ← Decoder.skim format levels document
    .error (.mismatch [] .noValue)

end Value

end AuditedRules
