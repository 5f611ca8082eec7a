import AuditedRules.Predicate.Reading
import AuditedRules.Trace

/-!
# Evaluation

A predicate is evaluated against a context from left to right, operands before their operator. Both
operands of `and` and `or` are always evaluated, so the trace shows every node even where one
operand decides. The first step that fails ends the evaluation: a field that the context does not
define, an operator on numbers that meets other values, a division by zero of either sign, or a node
below the limit on depth.

The answer to a caller is always a result: a failure becomes a result that does not pass and names
the error.
-/

namespace AuditedRules

/-- The value of a node with its trace. -/
structure Evaluated where
  /-- The value of the node. -/
  value : Value
  /-- The trace, of which the first entry is that of the node. -/
  trace : Trace

/-! ## Steps -/

/-- Two numbers, as an operator on numbers needs them. -/
def bothNumbers (op : String) (left right : Value) : Except EvalError (Binary64 × Binary64) :=
  match left.number?, right.number? with
  | some x, some y => .ok (x, y)
  | _, _ => .error (.typeMismatch op left.type right.type)

/-- The number that an arithmetic operator gives. -/
def ArithmeticOp.apply (op : ArithmeticOp) (left right : Value) : Except EvalError Binary64 := do
  let (x, y) ← bothNumbers op.name left right
  match op with
  | .add => .ok (x.add y)
  | .sub => .ok (x.sub y)
  | .mul => .ok (x.mul y)
  | .div => if y.isZero then .error .divisionByZero else .ok (x.div y)

/-- The outcome of a comparison. Equality is defined on all values, order on numbers. -/
def ComparisonOp.apply (op : ComparisonOp) (left right : Value) : Except EvalError Bool :=
  match op with
  | .equal => .ok (left.strictEq right)
  | .notEqual => .ok (!left.strictEq right)
  | .greater => do
    let (x, y) ← bothNumbers op.name left right
    .ok (y.lt x)
  | .less => do
    let (x, y) ← bothNumbers op.name left right
    .ok (x.lt y)
  | .greaterOrEqual => do
    let (x, y) ← bothNumbers op.name left right
    .ok (y.le x)
  | .lessOrEqual => do
    let (x, y) ← bothNumbers op.name left right
    .ok (x.le y)

/-- A node that decides something, with its trace. -/
def Evaluated.decision (label : String) (pass : Bool) (operands : List Trace) : Evaluated :=
  ⟨.bool pass, .decision label pass operands⟩

namespace Predicate

/-- The value and the trace of a node that may have so many further levels, under an overall
limit. -/
def evaluateNode (context : Context) (limit : Nat) : Nat → Predicate → Except EvalError Evaluated
  | 0, _ => .error (.depthExceeded limit)
  | levels + 1, p => match p with
    | .const value => .ok ⟨value, .leaf "const" value⟩
    | .field name => match context.get? name with
      | some value => .ok ⟨value, .leaf ("field: " ++ name) value⟩
      | none => .error (.missingField name)
    | .arithmetic op left right => do
      let l ← evaluateNode context limit levels left
      let r ← evaluateNode context limit levels right
      let x ← op.apply l.value r.value
      .ok ⟨.number x, .computed (op.name ++ " (arithmetic)") (.number x) [l.trace, r.trace]⟩
    | .comparison op left right => do
      let l ← evaluateNode context limit levels left
      let r ← evaluateNode context limit levels right
      let pass ← op.apply l.value r.value
      .ok (.decision (op.symbol ++ " (comparison)") pass [l.trace, r.trace])
    | .logical op left right => do
      let l ← evaluateNode context limit levels left
      let r ← evaluateNode context limit levels right
      .ok (.decision (op.name ++ " (logical)") (op.apply l.value.truthy r.value.truthy)
        [l.trace, r.trace])
    | .not operand => do
      let inner ← evaluateNode context limit levels operand
      .ok (.decision "not (logical)" (!inner.value.truthy) [inner.trace])

/-- The value and the trace of a predicate, or why it has none. -/
def tryEvaluate (p : Predicate) (context : Context) (limit : Nat) : Except EvalError Evaluated :=
  p.evaluateNode context limit limit

end Predicate

/-! ## Results -/

/-- What an evaluation answers. -/
structure EvalResult where
  /-- The value stands for true; false for a failure. -/
  pass : Bool
  /-- The value, unless the evaluation failed. -/
  value : Option Value
  /-- The trace, of a single entry for a failure. -/
  trace : Trace
  /-- The message of a failure. -/
  error : Option String

namespace EvalResult

instance : Inhabited EvalResult := ⟨⟨false, none, default, none⟩⟩

/-- The result of an evaluation with a value. -/
def success (e : Evaluated) : EvalResult :=
  ⟨e.value.truthy, some e.value, e.trace, none⟩

/-- The result of an evaluation that failed. -/
def failure (e : EvalError) : EvalResult :=
  ⟨false, none, .failed e.message, some e.message⟩

/-- The result for a text that is no JSON. -/
def unread (text : String) : EvalResult :=
  ⟨false, none, .unread text, some EvalError.unreadable.message⟩

/-- The evaluation failed. -/
def isError (r : EvalResult) : Bool :=
  r.error.isSome

/-- The result of an evaluation. -/
def ofEvaluated : Except EvalError Evaluated → EvalResult
  | .ok e => success e
  | .error e => failure e

/-- The JSON form of a result, its members in the order of the fields. Without an error there is no
such member. -/
def toJson (r : EvalResult) : Json :=
  .object ([("pass", .bool r.pass), ("value", .ofOption (r.value.map Value.toJson)),
    ("trace", r.trace.toJson)] ++ (r.error.map fun e => ("error", Json.string e)).toList)

/-- Reads a result. -/
def decoder : Decoder EvalResult :=
  .record "EvalResult"
    [.required "pass" .boolean fun pass r => { r with pass },
      .defaulted "value" (.optional Value.decoder) fun value r => { r with value },
      .required "trace" Trace.decoder fun trace r => { r with trace },
      .defaulted "error" (.optional .text) fun error r => { r with error }]
    default

end EvalResult

/-! ## Ways to evaluate -/

/-- Evaluates a predicate. -/
def Predicate.evaluate (p : Predicate) (context : Context) (limit : Nat) : EvalResult :=
  .ofEvaluated (p.tryEvaluate context limit)

/-- Evaluates the predicate that a JSON value is. -/
def evaluateJson (ast : Json) (context : Context) (limit : Nat) : EvalResult :=
  match Predicate.ofJson limit ast with
  | .ok p => p.evaluate context limit
  | .error e => .failure e

/-- Evaluates the predicate that a JSON text is. The trace of a text that is no JSON carries the
text. -/
def evaluateText (text : String) (context : Context) (limit : Nat) : EvalResult :=
  match Predicate.ofText limit text with
  | .ok p => p.evaluate context limit
  | .error .unreadable => .unread text
  | .error e => .failure e

end AuditedRules
