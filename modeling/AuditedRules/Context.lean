import AuditedRules.Json.Reader
import AuditedRules.Predicate.Basic

/-!
# Contexts

A context gives values to the names of fields. Each evaluation gets one, and only reads it. A
context has a JSON form, an object of scalars; of other JSON values none is a context.
-/

namespace AuditedRules

/-- A finite map from names of fields to values. -/
abbrev Context := OrderedMap Value

/-- Why a JSON text is no context. -/
inductive ContextError
  /-- The value is no object. -/
  | notAnObject
  /-- A member is null, an array or an object. -/
  | unsupportedValue (key : String) (found : Json.Kind)
  /-- The text is no JSON. -/
  | unreadable (fault : Fault)
deriving DecidableEq

/-- The message of an error; a text that is no JSON has no message here. -/
def ContextError.message : ContextError → String
  | .notAnObject => "context must be a JSON object"
  | .unsupportedValue key found => "field '" ++ key ++ "' has unsupported value type " ++ found.name
  | .unreadable _ => ""

namespace Context

/-- The context with the members of an object, taken in their order, added to it. -/
def insertMembers (context : Context) : List (String × Json) → Except ContextError Context
  | [] => .ok context
  | (key, json) :: rest => match Value.ofJson? json with
    | some value => insertMembers (context.insert key value) rest
    | none => .error (.unsupportedValue key json.kind)

/-- The context that a JSON value is. -/
def ofJson : Json → Except ContextError Context
  | .object members => insertMembers .empty members
  | _ => .error .notAnObject

/-- The context that a JSON text is. -/
def ofText (text : String) : Except ContextError Context :=
  match (Json.read text).decode .json Decoder.json with
  | .ok value => ofJson value
  | .error fault => .error (.unreadable fault)

/-- The JSON form of a context. -/
def toJson (context : Context) : Json :=
  .object (context.entries.map fun entry => (entry.1, entry.2.toJson))

/-- Two contexts define the same names, with equal values. -/
def same (a b : Context) : Bool :=
  a.keys == b.keys && a.entries.all fun entry =>
    match b.get? entry.1 with
    | some value => entry.2.strictEq value
    | none => false

/-- Reads a context inside a document; of members with the same name the last counts. -/
def decoder : Decoder Context := fun format levels document =>
  (Decoder.mapping Value.decoder format levels document).map .ofList

end Context

end AuditedRules
