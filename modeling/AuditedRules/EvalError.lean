import AuditedRules.Value

/-!
# Why a predicate has no value

Text may be no JSON, JSON may be no predicate, and a predicate may fail on the record that it is
applied to. The causes are kept apart, each with what its message mentions.
-/

namespace AuditedRules

/-- The three types of nodes that have an operator. -/
inductive NodeKind
  | arithmetic
  | comparison
  | logical
deriving DecidableEq

/-- The name of a type of nodes. -/
def NodeKind.name : NodeKind → String
  | .arithmetic => "arithmetic"
  | .comparison => "comparison"
  | .logical => "logical"

/-- Why a JSON value is no predicate. -/
inductive GrammarFault
  /-- It has more levels than the limit. -/
  | tooDeep (limit : Nat)
  /-- A node is no object. -/
  | notAnObject (found : Json.Kind)
  /-- A node has no type, or one that is no text. -/
  | missingType
  /-- The type of a node is none of the five names. -/
  | unknownType (name : String)
  /-- A constant has no value that is a number, a string or a boolean. -/
  | noConstant
  /-- A field has no name that is a string. -/
  | noFieldName
  /-- A node has no operator, or one that is no text. -/
  | missingOperator (kind : NodeKind)
  /-- The type of the node has no operator of the name. -/
  | unknownOperator (kind : NodeKind) (name : String)
  /-- An operand is not there. -/
  | missingOperand (kind : NodeKind) (name : String)
  /-- A negation has a second operand. -/
  | secondOperand
deriving DecidableEq

/-- Why a predicate has no value. -/
inductive EvalError
  /-- The text is no JSON. -/
  | unreadable
  /-- The JSON value is no predicate. -/
  | grammar (fault : GrammarFault)
  /-- The record does not define a field. -/
  | missingField (name : String)
  /-- A number is divided by zero. -/
  | divisionByZero
  /-- An operator on numbers meets other values. -/
  | typeMismatch (op : String) (left right : ValueType)
  /-- The predicate has more levels than the limit. -/
  | depthExceeded (limit : Nat)
deriving DecidableEq

/-- A text in plain double quotes. -/
def inQuotes (text : String) : String :=
  "\"" ++ text ++ "\""

/-- The message of a limit on depth. -/
def depthMessage (limit : Nat) : String :=
  "AST exceeds maximum depth of " ++ toString limit

/-- The message of a grammar fault. -/
def GrammarFault.message : GrammarFault → String
  | .tooDeep limit => depthMessage limit
  | .notAnObject found => "expected a node object, found " ++ found.name
  | .missingType => "node is missing a string " ++ inQuotes "type"
  | .unknownType name => "unknown node type " ++ inQuotes name
  | .noConstant => "const value must be a number, string or boolean"
  | .noFieldName => "field node requires a string " ++ inQuotes "name"
  | .missingOperator kind => kind.name ++ " node requires a string " ++ inQuotes "op"
  | .unknownOperator kind name => "unknown " ++ kind.name ++ " operator " ++ inQuotes name
  | .missingOperand kind name => kind.name ++ " node is missing " ++ inQuotes name
  | .secondOperand =>
    inQuotes "not" ++ " takes a single operand but " ++ inQuotes "right" ++ " is present"

namespace EvalError

/-- The message of an error. -/
def message : EvalError → String
  | .unreadable => "Invalid JSON"
  | .grammar fault => "Malformed AST: " ++ fault.message
  | .missingField name => "Field " ++ inQuotes name ++ " not found in context"
  | .divisionByZero => "Division by zero"
  | .typeMismatch op left right =>
    "Type mismatch: '" ++ op ++ "' expects numbers, got " ++ left.name ++ " and " ++ right.name
  | .depthExceeded limit => depthMessage limit

/-- The short name of the kind of an error. -/
def kind : EvalError → String
  | .unreadable => "parse"
  | .grammar _ => "grammar"
  | .missingField _ => "missing_field"
  | .divisionByZero => "division_by_zero"
  | .typeMismatch .. => "type_mismatch"
  | .depthExceeded _ => "depth_exceeded"

end EvalError

end AuditedRules
