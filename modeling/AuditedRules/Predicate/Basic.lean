import AuditedRules.Value

/-!
# Predicates

A predicate is a tree of six shapes: constants, fields of the record that is checked, arithmetic,
comparisons, `and`/`or`, and `not`. Negation has a shape of its own, so that a negation with two
operands cannot be written down.

The depth and the fields of a tree are found by walking it with an explicit stack, so no depth of
nesting is too much for them. The total size of the trees on the stack is what makes the walks end.
-/

namespace AuditedRules

/-- Operators on two numbers that give a number. -/
inductive ArithmeticOp
  | add
  | sub
  | mul
  | div
deriving DecidableEq

/-- Operators that compare two values. -/
inductive ComparisonOp
  | greater
  | less
  | greaterOrEqual
  | lessOrEqual
  | equal
  | notEqual
deriving DecidableEq

/-- Operators on two truth values. -/
inductive LogicalOp
  | and
  | or
deriving DecidableEq

namespace ArithmeticOp

/-- The operators in the order in which the grammar lists them. -/
def all : List ArithmeticOp := [.add, .sub, .mul, .div]

/-- The name of an operator, which is also its sign. -/
def name : ArithmeticOp → String
  | .add => "+"
  | .sub => "-"
  | .mul => "*"
  | .div => "/"

/-- The operator of a name. -/
def ofName? (name : String) : Option ArithmeticOp :=
  all.find? fun op => op.name == name

end ArithmeticOp

namespace ComparisonOp

/-- The operators in the order in which the grammar lists them. -/
def all : List ComparisonOp :=
  [.greater, .less, .greaterOrEqual, .lessOrEqual, .equal, .notEqual]

/-- The name of an operator in documents. -/
def name : ComparisonOp → String
  | .greater => ">"
  | .less => "<"
  | .greaterOrEqual => ">="
  | .lessOrEqual => "<="
  | .equal => "eq"
  | .notEqual => "ne"

/-- The sign of an operator for people. -/
def symbol : ComparisonOp → String
  | .equal => "="
  | .notEqual => "≠"
  | op => op.name

/-- The operator of a name. -/
def ofName? (name : String) : Option ComparisonOp :=
  all.find? fun op => op.name == name

end ComparisonOp

namespace LogicalOp

/-- The operators in the order in which the grammar lists them. -/
def all : List LogicalOp := [.and, .or]

/-- The name of an operator. -/
def name : LogicalOp → String
  | .and => "and"
  | .or => "or"

/-- The word that people read for an operator. -/
def word : LogicalOp → String
  | .and => "AND"
  | .or => "OR"

/-- The operator of a name. -/
def ofName? (name : String) : Option LogicalOp :=
  all.find? fun op => op.name == name

/-- The truth value of two truth values. -/
def apply : LogicalOp → Bool → Bool → Bool
  | .and, a, b => a && b
  | .or, a, b => a || b

end LogicalOp

/-- A predicate. -/
inductive Predicate
  | const (value : Value)
  | field (name : String)
  | arithmetic (op : ArithmeticOp) (left right : Predicate)
  | comparison (op : ComparisonOp) (left right : Predicate)
  | logical (op : LogicalOp) (left right : Predicate)
  | not (operand : Predicate)
deriving DecidableEq

namespace Predicate

instance : Inhabited Predicate := ⟨.const default⟩

/-- The direct operands, left before right. -/
def operands : Predicate → List Predicate
  | .const _ => []
  | .field _ => []
  | .arithmetic _ left right => [left, right]
  | .comparison _ left right => [left, right]
  | .logical _ left right => [left, right]
  | .not operand => [operand]

/-- The number of nodes. -/
def size : Predicate → Nat
  | .const _ => 1
  | .field _ => 1
  | .arithmetic _ left right => left.size + right.size + 1
  | .comparison _ left right => left.size + right.size + 1
  | .logical _ left right => left.size + right.size + 1
  | .not operand => operand.size + 1

/-- The nodes of a list of trees. -/
def totalSize : List Predicate → Nat
  | [] => 0
  | p :: rest => p.size + totalSize rest

/-- The operands together have one node less than the tree. -/
theorem totalSize_operands (p : Predicate) : totalSize p.operands + 1 = p.size := by
  cases p <;> simp [totalSize, operands, size]

/-- The nodes of two lists of trees. -/
theorem totalSize_append (trees others : List Predicate) :
    totalSize (trees ++ others) = totalSize trees + totalSize others := by
  induction trees with
  | nil => simp [totalSize]
  | cons p rest ih => simp [totalSize, ih, Nat.add_assoc]

/-! ## Depth -/

/-- The greatest level that `deepest` or a tree of the stack reaches, where each tree of the stack
comes with the level of its root. -/
def deepestLevel (stack : List (Predicate × Nat)) (deepest : Nat) : Nat :=
  match stack with
  | [] => deepest
  | (p, level) :: rest =>
    deepestLevel (p.operands.map (fun operand => (operand, level + 1)) ++ rest) (max deepest level)
termination_by totalSize (stack.map (·.1))
decreasing_by
  have := totalSize_operands p
  simp [totalSize, totalSize_append, Function.comp_def]
  omega

/-- The number of levels; a leaf alone has one. -/
def depth (p : Predicate) : Nat :=
  deepestLevel [(p, 1)] 0

/-! ## Fields -/

/-- Adds a name at the end of a list unless it is there already. -/
def addName (names : List String) (name : String) : List String :=
  if names.contains name then names else names ++ [name]

/-- The names with those of the root of a tree added. -/
def addRootName (names : List String) : Predicate → List String
  | .field name => addName names name
  | _ => names

/-- The names with those of the trees on the stack added, from left to right. -/
def gatherNames (stack : List Predicate) (names : List String) : List String :=
  match stack with
  | [] => names
  | p :: rest => gatherNames (p.operands ++ rest) (addRootName names p)
termination_by totalSize stack
decreasing_by
  have := totalSize_operands p
  simp only [totalSize, totalSize_append]
  omega

/-- The names of the fields that a predicate refers to, each once, in the order of their first
occurrence. -/
def fieldNames (p : Predicate) : List String :=
  gatherNames [p] []

end Predicate

end AuditedRules
