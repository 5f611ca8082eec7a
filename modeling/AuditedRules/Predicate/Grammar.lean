import AuditedRules.Predicate.Basic

/-!
# The grammar of predicates as a JSON Schema

The schema is given to whoever writes predicates, so that what they write stays within the six
shapes. It lists the shapes as alternatives, of which a node fits exactly one: `not` is told from
`and` and `or` by its operator, and forbids the member `right`.
-/

namespace AuditedRules.Predicate.Grammar

/-- An object whose members are given in any order. -/
def object (members : List (String × Json)) : Json :=
  .ofMembers members

/-- A list of texts. -/
def texts (words : List String) : Json :=
  .array (words.map .string)

/-- The schema that only one text fits. -/
def exactly (word : String) : Json :=
  object [("const", .string word)]

/-- The schema of a node, by reference. -/
def node : Json :=
  object [("$ref", .string "#/$defs/node")]

/-- The schema of an object with required members. -/
def shape (properties : List (String × Json)) : List (String × Json) :=
  [("type", .string "object"), ("properties", object properties),
    ("required", texts (properties.map (·.1)))]

/-- The schema of a node with two operands and one of some operators. -/
def binary (kind : String) (ops : List String) : Json :=
  object (shape [("type", exactly kind), ("op", object [("enum", texts ops)]), ("left", node),
    ("right", node)])

/-- The schemas of the six shapes. -/
def shapes : List Json :=
  [object (shape [("type", exactly "const"),
      ("value", object [("type", texts ["number", "string", "boolean"])])]),
    object (shape [("type", exactly "field"), ("name", object [("type", .string "string")])]),
    binary "arithmetic" (ArithmeticOp.all.map (·.name)),
    binary "comparison" (ComparisonOp.all.map (·.name)),
    binary "logical" (LogicalOp.all.map (·.name)),
    object (shape [("type", exactly "logical"), ("op", exactly "not"), ("left", node)] ++
      [("not", object [("required", texts ["right"])])])]

/-- The schema of a predicate. -/
def schema : Json :=
  object [("$schema", .string "https://json-schema.org/draft/2020-12/schema"),
    ("title", .string "Predicate AST node"),
    ("$defs", object [("node", object [("oneOf", .array shapes)])]),
    ("$ref", .string "#/$defs/node")]

end AuditedRules.Predicate.Grammar
