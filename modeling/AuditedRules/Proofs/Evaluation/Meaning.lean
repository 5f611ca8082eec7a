import AuditedRules.Proofs.Evaluation.Operators
import AuditedRules.Proofs.Evaluation.Order

/-!
# What a predicate means

`Predicate.value?` gives the value of a predicate by plain recursion: each node has the value that
its shape says, if its operands have values of the types that it takes. There are no levels, no
trace, no errors, and no order among the operands. Nothing in it is taken from the evaluator: the
operators have their meanings here (`ArithmeticOp.number?`, `ComparisonOp.outcome?`, and `&&` and
`||` for `and` and `or`), and so have truth (`Value.isTrue`) and equality (`Value.equals`). The
steps of the evaluator are shown to agree with each of them.

The evaluator finds this value (`value?_eq_some_iff`), and fails where there is none
(`toOption_evaluateUnbounded`).
-/

namespace AuditedRules

/-! ## Values -/

/-- Whether a value stands for true. A number does unless it is zero or NaN, and a text does unless
it is empty. -/
def Value.isTrue : Value → Bool
  | .bool b => b
  | .number (.finite _ units _) => decide (units ≠ 0)
  | .number (.infinity _) => true
  | .number .nan => false
  | .string s => decide (s ≠ "")

/-- Whether two values are equal: they are of one type, and equal as booleans, as numbers or as
texts. -/
def Value.equals : Value → Value → Bool
  | .bool a, .bool b => decide (a = b)
  | .number x, .number y => x.eq y
  | .string s, .string t => decide (s = t)
  | _, _ => false

/-- The evaluator takes for true the values that stand for true. -/
theorem Value.truthy_eq_isTrue (value : Value) : value.truthy = value.isTrue := by
  refine Bool.eq_iff_iff.2 ?_
  cases value with
  | bool b => rfl
  | number x => cases x <;> simp [truthy, isTrue, Binary64.isZero]
  | string s => simp [truthy, isTrue]

/-- The evaluator takes for equal the values that are equal. -/
theorem Value.strictEq_eq_equals (left right : Value) :
    left.strictEq right = left.equals right := by
  cases left <;> cases right <;> rfl

/-! ## Operators -/

/-- The number that an operator gives on two numbers; a division by zero gives none. -/
def ArithmeticOp.number? (op : ArithmeticOp) (x y : Binary64) : Option Binary64 :=
  match op with
  | .add => some (x.add y)
  | .sub => some (x.sub y)
  | .mul => some (x.mul y)
  | .div => if y.isZero then none else some (x.div y)

/-- The outcome of a comparison; only numbers are in an order. -/
def ComparisonOp.outcome? (op : ComparisonOp) (left right : Value) : Option Bool :=
  match op, left, right with
  | .equal, _, _ => some (left.equals right)
  | .notEqual, _, _ => some (!left.equals right)
  | .greater, .number x, .number y => some (y.lt x)
  | .less, .number x, .number y => some (x.lt y)
  | .greaterOrEqual, .number x, .number y => some (y.le x)
  | .lessOrEqual, .number x, .number y => some (x.le y)
  | _, _, _ => none

/-- On two numbers an operator gives its number, if there is one. -/
theorem ArithmeticOp.toOption_apply (op : ArithmeticOp) (x y : Binary64) :
    (op.apply (.number x) (.number y)).toOption = op.number? x y := by
  cases op with
  | div =>
    show (if y.isZero = true then _ else _ : Except EvalError Binary64).toOption = _
    unfold number?
    cases y.isZero <;> rfl
  | _ => rfl

/-- A comparison has its outcome, if there is one. -/
theorem ComparisonOp.toOption_apply (op : ComparisonOp) (left right : Value) :
    (op.apply left right).toOption = op.outcome? left right := by
  cases op with
  | equal => exact congrArg some (left.strictEq_eq_equals right)
  | notEqual => exact congrArg (some !·) (left.strictEq_eq_equals right)
  -- The others take two numbers only.
  | _ => cases left <;> cases right <;> rfl

/-- `and` decides whether both values stand for true, and `or` whether one of them does. -/
theorem LogicalOp.apply_truthy (op : LogicalOp) (left right : Value) :
    op.apply left.truthy right.truthy = match op with
      | .and => left.isTrue && right.isTrue
      | .or => left.isTrue || right.isTrue := by
  rw [left.truthy_eq_isTrue, right.truthy_eq_isTrue]
  cases op <;> rfl

namespace Predicate

/-! ## Predicates -/

/-- The value of a predicate under a context, if it has one. -/
def value? (context : Context) : Predicate → Option Value
  | .const value => some value
  | .field name => context.get? name
  | .arithmetic op left right => match left.value? context, right.value? context with
    | some (.number x), some (.number y) => (op.number? x y).map .number
    | _, _ => none
  | .comparison op left right => match left.value? context, right.value? context with
    | some l, some r => (op.outcome? l r).map .bool
    | _, _ => none
  | .logical op left right => match left.value? context, right.value? context with
    | some l, some r => some (.bool (match op with
      | .and => l.isTrue && r.isTrue
      | .or => l.isTrue || r.isTrue))
    | _, _ => none
  | .not operand => (operand.value? context).map fun inner => .bool !inner.isTrue

variable {context : Context} {p : Predicate}

/-- The evaluator finds the value of a predicate, or fails where it has none. -/
theorem toOption_evaluateUnbounded (context : Context) (p : Predicate) :
    (p.evaluateUnbounded context).toOption.map (·.value) = p.value? context := by
  induction p with
  | const value => rfl
  | field name =>
    rw [evaluateUnbounded, value?]
    cases context.get? name <;> rfl
  | arithmetic op left right ihl ihr =>
    rw [evaluateUnbounded, value?, ← ihl, ← ihr]
    cases left.evaluateUnbounded context with
    | error e => rfl
    | ok l =>
      cases right.evaluateUnbounded context with
      | error e =>
        obtain ⟨value, trace⟩ := l
        cases value <;> rfl
      | ok r =>
        obtain ⟨⟨x⟩ | ⟨x⟩ | ⟨x⟩, l⟩ := l <;> obtain ⟨⟨y⟩ | ⟨y⟩ | ⟨y⟩, r⟩ := r
        case number.number =>
          show Option.map _ (op.apply (.number x) (.number y) >>= _).toOption =
            (op.number? x y).map _
          rw [← op.toOption_apply]
          cases op.apply (.number x) (.number y) <;> rfl
        -- All other operands are of types that the operator does not take.
        all_goals rfl
  | comparison op left right ihl ihr =>
    rw [evaluateUnbounded, value?, ← ihl, ← ihr]
    cases left.evaluateUnbounded context with
    | error e => rfl
    | ok l =>
      cases right.evaluateUnbounded context with
      | error e => rfl
      | ok r =>
        show Option.map _ (op.apply l.value r.value >>= _).toOption =
          (op.outcome? l.value r.value).map _
        rw [← op.toOption_apply]
        cases op.apply l.value r.value <;> rfl
  | logical op left right ihl ihr =>
    rw [evaluateUnbounded, value?, ← ihl, ← ihr]
    cases left.evaluateUnbounded context with
    | error e => rfl
    | ok l =>
      cases right.evaluateUnbounded context with
      | error e => rfl
      | ok r =>
        exact congrArg (fun b => some (Value.bool b)) (op.apply_truthy l.value r.value)
  | not operand ih =>
    rw [evaluateUnbounded, value?, ← ih]
    cases operand.evaluateUnbounded context with
    | error e => rfl
    | ok inner => exact congrArg (fun b => some (Value.bool !b)) inner.value.truthy_eq_isTrue

/-- A predicate has the value that its evaluation gives. -/
theorem value?_eq_some_iff {value : Value} :
    p.value? context = some value ↔ ∃ trace, p.evaluateUnbounded context = .ok ⟨value, trace⟩ := by
  rw [← toOption_evaluateUnbounded]
  cases p.evaluateUnbounded context with
  | error e => simp [Except.toOption]
  | ok e =>
    obtain ⟨found, trace⟩ := e
    simp [Except.toOption]

end Predicate

end AuditedRules
