import AuditedRules.Binary64.Notation
import AuditedRules.Document.Scalar
import AuditedRules.Text.Quoted

/-!
# What can be wrong with a document

Either the text is malformed, or it is nested too deep to be read, or it is a document of another
shape than the one asked for. A mismatch of the last kind knows the place inside the document where
it was met, and has a message.
-/

namespace AuditedRules

/-- One step down into a document. -/
inductive Place
  | member (name : String)
  | item (index : Nat)
deriving DecidableEq

/-- The path of a place: names separated by points, indices in brackets. -/
def Place.path : List Place → String
  | [] => ""
  | .member name :: rest => name ++ further rest
  | .item index :: rest => "[" ++ toString index ++ "]" ++ further rest
where
  /-- The path of further steps. -/
  further : List Place → String
    | [] => ""
    | .member name :: rest => "." ++ name ++ further rest
    | .item index :: rest => "[" ++ toString index ++ "]" ++ further rest

/-- What stands in a document in place of what was expected. -/
inductive Found
  | scalar (value : Scalar)
  | sequence
  | mapping
deriving DecidableEq

/-- How a document differs from the shape asked for. -/
inductive Mismatch
  /-- A value of another type. -/
  | invalidType (found : Found) (expected : String)
  /-- A required member of a record is not there. -/
  | missingField (name : String)
  /-- A member of a record is there twice. -/
  | duplicateField (name : String)
  /-- A word that is none of the options. -/
  | unknownVariant (given : String) (options : List String)
  /-- A record written as a sequence ends before a required element. -/
  | tooShort (length : Nat) (record : String) (elements : Nat)
  /-- No runtime value. -/
  | noValue
  /-- A number that a JSON value cannot hold. -/
  | outOfRange
  /-- The contents are rejected. -/
  | rejected (message : String)
deriving DecidableEq

/-- Why a document could not be read as what was asked for. -/
inductive Fault
  | malformed
  | tooDeep
  | mismatch (place : List Place) (mismatch : Mismatch)
deriving DecidableEq

/-- A fault met inside a part of a document, as seen from outside. -/
def Fault.within (step : Place) : Fault → Fault
  | .mismatch place m => .mismatch (step :: place) m
  | fault => fault

/-- Doubles named in messages on YAML documents: never an exponent, and always a point. -/
def NumberStyle.pointed : NumberStyle where
  tie := .up
  positional := none
  pointZero := true

/-- A double as messages on a format spell it. -/
def Format.floatText (format : Format) : Binary64 → String
  | .finite negative units _ => match format with
    | .json => String.ofList (NumberStyle.document.finite negative units)
    | .yaml => String.ofList (NumberStyle.pointed.finite negative units)
  | .infinity false => "inf"
  | .infinity true => "-inf"
  | .nan => "NaN"

/-- A word in backquotes. -/
def backquoted (text : String) : String :=
  "`" ++ text ++ "`"

/-- What was found, in words. -/
def Found.describe (format : Format) : Found → String
  | .scalar .null => match format with
    | .json => "null"
    | .yaml => "unit value"
  | .scalar (.bool b) => "boolean " ++ backquoted (toString b)
  | .scalar (.integer i) => "integer " ++ backquoted (String.ofList (NumberStyle.integer i))
  | .scalar (.wide i) =>
    "integer " ++ backquoted (String.ofList (NumberStyle.integer i)) ++
      (if i < 0 then " as i128" else " as u128")
  | .scalar (.float x) => "floating point " ++ backquoted (format.floatText x)
  | .scalar (.string s) => "string " ++ Text.quoted s
  | .sequence => "sequence"
  | .mapping => "map"

/-- The options of a choice, in words. -/
def describeOptions : List String → String
  | [] => "there are no variants"
  | [a] => "expected " ++ backquoted a
  | [a, b] => "expected " ++ backquoted a ++ " or " ++ backquoted b
  | options => "expected one of " ++ String.intercalate ", " (options.map backquoted)

/-- The message of a mismatch in a document of a format. -/
def Mismatch.message (format : Format) : Mismatch → String
  | .invalidType found expected =>
    "invalid type: " ++ found.describe format ++ ", expected " ++ expected
  | .missingField name => "missing field " ++ backquoted name
  | .duplicateField name => "duplicate field " ++ backquoted name
  | .unknownVariant given options =>
    "unknown variant " ++ backquoted given ++ ", " ++ describeOptions options
  | .tooShort length record elements =>
    "invalid length " ++ toString length ++ ", expected struct " ++ record ++ " with " ++
      toString elements ++ (if elements = 1 then " element" else " elements")
  | .noValue => "data did not match any variant of untagged enum Value"
  | .outOfRange => "JSON number out of range"
  | .rejected message => message

end AuditedRules
