import AuditedRules.Predicate.Basic

/-!
# Predicates as text

A predicate is shown to people in infix form with all its parentheses, for instance
`(invoice_amount > 10000)`; a negation is `NOT` before its operand.

The text is put together by a machine with two stacks, so no depth of nesting is too much. The first
stack holds what is still to be done: trees to be shown, and nodes whose operands' texts are ready.
The second holds the finished texts. Every tree adds exactly one text to the second stack.
-/

namespace AuditedRules.Predicate

/-- The text of a constant; strings stand in quotes. -/
def constantText : Value → List Char
  | .string s => '"' :: (s.toList ++ ['"'])
  | value => value.display.toList

/-- Two texts around an operator, in parentheses. -/
def infixText (left : List Char) (op : String) (right : List Char) : List Char :=
  '(' :: (left ++ ' ' :: (op.toList ++ ' ' :: (right ++ [')'])))

/-- The text of a negation. -/
def negationText (operand : List Char) : List Char :=
  "NOT ".toList ++ operand

/-- A thing to do: show a tree, or put the texts of a node's operands together. -/
inductive Step
  | visit (p : Predicate)
  | combine (p : Predicate)

/-- The number of steps that a step leads to, itself included. -/
def Step.weight : Step → Nat
  | .visit p => 2 * p.size
  | .combine _ => 1

/-- The number of steps that a list of steps leads to. -/
def totalWeight : List Step → Nat
  | [] => 0
  | step :: rest => step.weight + totalWeight rest

/-- The steps that two lists of steps lead to. -/
theorem totalWeight_append (steps others : List Step) :
    totalWeight (steps ++ others) = totalWeight steps + totalWeight others := by
  induction steps with
  | nil => simp [totalWeight]
  | cons step rest ih => simp [totalWeight, ih, Nat.add_assoc]

/-- Showing the operands of a tree takes two steps less than showing the tree. -/
theorem totalWeight_visits (p : Predicate) :
    totalWeight (p.operands.map .visit) + 2 = 2 * p.size := by
  cases p <;> simp [totalWeight, operands, size, Step.weight] <;> omega

/-- Takes the topmost text, or an empty one from an empty stack. -/
def popText : List (List Char) → List Char × List (List Char)
  | [] => ([], [])
  | text :: rest => (text, rest)

/-- Replaces the texts of a node's operands on top of the stack by the text of the node. The right
operand's text lies above the left one's. -/
def combined (p : Predicate) (done : List (List Char)) : List (List Char) :=
  let (right, rest) := popText done
  match p with
  | .const _ => right :: rest
  | .field _ => right :: rest
  | .not _ => negationText right :: rest
  | .arithmetic op _ _ =>
    let (left, rest) := popText rest
    infixText left op.name right :: rest
  | .comparison op _ _ =>
    let (left, rest) := popText rest
    infixText left op.symbol right :: rest
  | .logical op _ _ =>
    let (left, rest) := popText rest
    infixText left op.word right :: rest

/-- The text of a tree without operands. -/
def leafText? : Predicate → Option (List Char)
  | .const value => some (constantText value)
  | .field name => some name.toList
  | _ => none

/-- Does all steps and gives the finished texts. -/
def runSteps (steps : List Step) (done : List (List Char)) : List (List Char) :=
  match steps with
  | [] => done
  | .combine p :: rest => runSteps rest (combined p done)
  | .visit p :: rest => match leafText? p with
    | some text => runSteps rest (text :: done)
    -- The node is put together once both operands have left their texts.
    | none => runSteps (p.operands.map .visit ++ .combine p :: rest) done
termination_by totalWeight steps
decreasing_by
  all_goals
    have := totalWeight_visits p
    simp only [totalWeight, totalWeight_append, Step.weight] at *
    omega

/-- The text of a predicate, as characters. -/
def renderedText (p : Predicate) : List Char :=
  (popText (runSteps [.visit p] [])).1

/-- The text of a predicate. -/
def render (p : Predicate) : String :=
  String.ofList p.renderedText

end AuditedRules.Predicate
