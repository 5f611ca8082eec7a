import AuditedRules.Predicate.Basic

/-!
# Predicates as JSON

A node is an object with the name of its shape under `type`. The members of each object are in
ascending order of their names. Since a node with two operands and a negation are both `logical` by
type, the operator tells them apart, and a negation has no member `right`.
-/

namespace AuditedRules.Predicate

/-- A node with two operands. -/
def binaryJson (kind op : String) (left right : Json) : Json :=
  .object [("left", left), ("op", .string op), ("right", right), ("type", .string kind)]

/-- The JSON form of a predicate. -/
def toJson : Predicate → Json
  | .const value => .object [("type", .string "const"), ("value", value.toJson)]
  | .field name => .object [("name", .string name), ("type", .string "field")]
  | .arithmetic op left right => binaryJson "arithmetic" op.name left.toJson right.toJson
  | .comparison op left right => binaryJson "comparison" op.name left.toJson right.toJson
  | .logical op left right => binaryJson "logical" op.name left.toJson right.toJson
  | .not operand =>
    .object [("left", operand.toJson), ("op", .string "not"), ("type", .string "logical")]

end AuditedRules.Predicate
