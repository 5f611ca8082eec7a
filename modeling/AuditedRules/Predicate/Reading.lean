import AuditedRules.EvalError
import AuditedRules.Json.Reader
import AuditedRules.Predicate.Basic

/-!
# Reading predicates

A JSON value is read as a predicate when it fits one of the six shapes at every node and has no more
levels than a given limit. The nodes are looked at from the root down and from left to right, the
type of a node before its members and its operator before its operands, and the first thing that
does not fit is the answer. Members that a shape does not mention are ignored; only a negation may
not have the member `right`.
-/

namespace AuditedRules

/-- The number of levels that are accepted where no other limit is given. -/
def defaultLimit : Nat := 64

namespace Predicate

/-- The member of a node that has to be a text. -/
def textMember? (node : Json) (name : String) : Option String :=
  (node.get? name).bind Json.string?

/-- The operator's name in a node. -/
def operatorName (node : Json) (kind : NodeKind) : Except GrammarFault String :=
  match textMember? node "op" with
  | some op => .ok op
  | none => .error (.missingOperator kind)

/-- The operator of a node, as found by name. -/
def operator {α : Type} (node : Json) (kind : NodeKind) (ofName? : String → Option α) :
    Except GrammarFault α := do
  let name ← operatorName node kind
  match ofName? name with
  | some op => .ok op
  | none => .error (.unknownOperator kind name)

/-- The operand under a name, read by `read`. -/
def operand (read : Json → Except GrammarFault Predicate) (node : Json) (kind : NodeKind)
    (name : String) : Except GrammarFault Predicate :=
  match node.get? name with
  | some value => read value
  | none => .error (.missingOperand kind name)

/-- The two operands of a node, read by `read`. -/
def bothOperands (read : Json → Except GrammarFault Predicate) (node : Json) (kind : NodeKind) :
    Except GrammarFault (Predicate × Predicate) := do
  let left ← operand read node kind "left"
  let right ← operand read node kind "right"
  .ok (left, right)

/-- A node of type `logical`: a negation or a node with two operands. -/
def logicalNode (read : Json → Except GrammarFault Predicate) (node : Json) :
    Except GrammarFault Predicate := do
  let name ← operatorName node .logical
  if name = "not" then
    if (node.get? "right").isSome then .error .secondOperand
    else
      let inner ← operand read node .logical "left"
      .ok (.not inner)
  else match LogicalOp.ofName? name with
    | some op => do
      let (left, right) ← bothOperands read node .logical
      .ok (.logical op left right)
    | none => .error (.unknownOperator .logical name)

/-- A node of the type of a name, with its operands read by `read`. -/
def nodeOfType (read : Json → Except GrammarFault Predicate) (node : Json) (type : String) :
    Except GrammarFault Predicate :=
  if type = "const" then
    match (node.get? "value").bind Value.ofJson? with
    | some value => .ok (.const value)
    | none => .error .noConstant
  else if type = "field" then
    match textMember? node "name" with
    | some name => .ok (.field name)
    | none => .error .noFieldName
  else if type = "arithmetic" then do
    let op ← operator node .arithmetic ArithmeticOp.ofName?
    let (left, right) ← bothOperands read node .arithmetic
    .ok (.arithmetic op left right)
  else if type = "comparison" then do
    let op ← operator node .comparison ComparisonOp.ofName?
    let (left, right) ← bothOperands read node .comparison
    .ok (.comparison op left right)
  else if type = "logical" then logicalNode read node
  else .error (.unknownType type)

/-- Reads a node that may have so many further levels, under an overall limit. -/
def ofNode (limit : Nat) : Nat → Json → Except GrammarFault Predicate
  | 0, _ => .error (.tooDeep limit)
  | levels + 1, node => match node with
    | .object _ => match textMember? node "type" with
      | some type => nodeOfType (fun operand => ofNode limit levels operand) node type
      | none => .error .missingType
    | other => .error (.notAnObject other.kind)

/-- The predicate that a JSON value is, if it has at most `limit` levels. -/
def ofJson (limit : Nat) (value : Json) : Except EvalError Predicate :=
  (ofNode limit limit value).mapError .grammar

/-- The predicate that a JSON text is, if it has at most `limit` levels. Text that is nested too
deep to be read at all exceeds the limit as well. -/
def ofText (limit : Nat) (text : String) : Except EvalError Predicate :=
  match (Json.read text).decode .json Decoder.json with
  | .ok value => ofJson limit value
  | .error .tooDeep => .error (.grammar (.tooDeep limit))
  | .error _ => .error .unreadable

/-- Reads a predicate of at most the default number of levels inside a document. -/
def decoder : Decoder Predicate := fun format levels document => do
  let value ← Decoder.json format levels document
  (ofJson defaultLimit value).mapError fun e => .mismatch [] (.rejected e.message)

end Predicate

end AuditedRules
