import AuditedRules.Proofs.Evaluation.Audit
import AuditedRules.Proofs.Evaluation.Failures
import AuditedRules.Service

/-!
# What every result says

However an evaluation is asked for (`Inquiry`), the parts of the result go together
(`EvalResult.Consistent`). A value is the value of the trace, and it decides whether the result
passes; an error leaves nothing but its message, in the result and in the single entry of the trace.
A text takes the place of the message where it was no JSON.

A trace with a value starts with the label of a node, and no node has the label of an error: the
name of a field stands behind a prefix (`Predicate.label_ne`). So the label of the first entry tells
errors from values.
-/

namespace AuditedRules

/-! ## Labels -/

/-- A text of another first letter is another text. -/
theorem ne_of_head? {a b : String} (h : a.toList.head? ≠ b.toList.head?) : a ≠ b :=
  fun hab => h (congrArg (fun text => text.toList.head?) hab)

/-- No node has the label of an entry for an error. -/
theorem Predicate.label_ne (p : Predicate) : p.label ≠ "error" ∧ p.label ≠ "parse error" := by
  cases p with
  | const value => simp [label]
  | field name =>
    have hhead : ("field: " ++ name).toList.head? = some 'f' := EvalError.head?_append rfl name
    constructor
    · refine ne_of_head? ?_
      rw [label, hhead]
      decide
    · refine ne_of_head? ?_
      rw [label, hhead]
      decide
  | arithmetic op left right =>
    show op.name ++ " (arithmetic)" ≠ "error" ∧ op.name ++ " (arithmetic)" ≠ "parse error"
    cases op <;> decide
  | comparison op left right =>
    show op.symbol ++ " (comparison)" ≠ "error" ∧ op.symbol ++ " (comparison)" ≠ "parse error"
    cases op <;> decide
  | logical op left right =>
    show op.name ++ " (logical)" ≠ "error" ∧ op.name ++ " (logical)" ≠ "parse error"
    cases op <;> decide
  | not operand => simp [label]

/-! ## Consistent results -/

/-- A text is no JSON, and that is not because it is nested too deep to be read. -/
def NoJson (text : String) : Prop :=
  ∃ fault, (Json.read text).decode .json Decoder.json = .error fault ∧ fault ≠ .tooDeep

/-- The parts of a result go together. The predicate may have been given as a text. -/
inductive EvalResult.Consistent (given : Option String) (r : EvalResult) : Prop
  /-- There is a value, and no error. -/
  | value (v : Value) (error : r.error = none) (value : r.value = some v)
      (pass : r.pass = v.truthy) (trace : r.trace.value = v)
      (outcome : ∀ b, r.trace.pass = some b → v = .bool b)
      (label : r.trace.label ≠ "error" ∧ r.trace.label ≠ "parse error")
  /-- There is an error, and the trace has its message. -/
  | failed (e : EvalError) (error : r.error = some e.message) (pass : r.pass = false)
      (value : r.value = none) (trace : r.trace = .leaf "error" (.string e.message))
  /-- There is an error because the text is no JSON, and the trace has the text. -/
  | unread (text : String) (hgiven : given = some text) (noJson : NoJson text)
      (error : r.error = some "Invalid JSON") (pass : r.pass = false) (value : r.value = none)
      (trace : r.trace = .leaf "parse error" (.string text))

namespace EvalResult

/-- The label of the first entry tells whether there is an error. -/
theorem Consistent.label_iff {given : Option String} {r : EvalResult} (h : r.Consistent given) :
    r.trace.label = "error" ∨ r.trace.label = "parse error" ↔ r.isError = true := by
  unfold isError
  cases h with
  | value v error value pass trace outcome label =>
    rw [error]
    exact iff_of_false (not_or.2 label) Bool.false_ne_true
  | failed e error pass value trace =>
    rw [error, trace]
    exact iff_of_true (.inl rfl) rfl
  | unread text hgiven noJson error pass value trace =>
    rw [error, trace]
    exact iff_of_true (.inr rfl) rfl

/-- The result of an error is consistent. -/
theorem consistent_failure (given : Option String) (e : EvalError) :
    (failure e).Consistent given :=
  .failed e rfl rfl rfl rfl

end EvalResult

/-! ## Ways to ask -/

/-- A way to ask for an evaluation. -/
inductive Inquiry
  /-- A predicate. -/
  | node (p : Predicate)
  /-- A JSON value. -/
  | json (ast : Json)
  /-- A JSON text. -/
  | text (contents : String)
  /-- A rule. -/
  | rule (r : Rule)
  /-- What a request holds, a JSON text or a JSON value. -/
  | request (ast : Json)

namespace Inquiry

/-- The result of an evaluation. -/
def result (context : Context) (limit : Nat) : Inquiry → EvalResult
  | .node p => p.evaluate context limit
  | .json ast => evaluateJson ast context limit
  | .text contents => evaluateText contents context limit
  | .rule r => r.evaluate context limit
  | .request ast => Service.evaluateAst ast context limit

/-- The text that is given in place of a predicate. -/
def text? : Inquiry → Option String
  | .text contents => some contents
  | .request ast => ast.string?
  | _ => none

end Inquiry

variable {context : Context} {limit : Nat}

/-- The result of evaluating a predicate is consistent. -/
theorem Predicate.consistent_evaluate (p : Predicate) (context : Context) (limit : Nat)
    (given : Option String) : (p.evaluate context limit).Consistent given := by
  unfold evaluate tryEvaluate
  cases hevaluate : evaluateNode context limit limit p with
  | error e => exact EvalResult.consistent_failure given e
  | ok e =>
    have hvalue := value_trace hevaluate
    have hjustified := justified_trace hevaluate
    refine .value e.value rfl rfl rfl hvalue (fun b hb => ?_) ?_
    · -- Only a node that decides something has an outcome, which is its value.
      have hpass : e.trace.pass = some b := hb
      cases hdecision : p.isDecision with
      | true =>
        obtain ⟨pass, htruth, hsame⟩ := hjustified.decision hdecision
        rw [hpass, Option.some.injEq] at hsame
        rw [← hvalue, htruth, hsame]
      | false =>
        rw [hjustified.computed hdecision] at hpass
        cases hpass
    · show e.trace.label ≠ "error" ∧ e.trace.label ≠ "parse error"
      rw [hjustified.label]
      exact p.label_ne

/-- A JSON value that is not read is a grammar fault. -/
theorem Predicate.exists_grammar_of_ofJson {ast : Json} {e : EvalError}
    (h : ofJson limit ast = .error e) : ∃ fault, e = .grammar fault := by
  have hnone : ∀ p, ofJson limit ast ≠ .ok p := by
    intro p hp
    rw [hp] at h
    cases h
  obtain ⟨fault, hfault⟩ := ofJson_error hnone
  rw [h] at hfault
  exact ⟨fault, Except.error.inj hfault⟩

/-- The result of evaluating a JSON value is consistent. -/
theorem consistent_evaluateJson (ast : Json) (context : Context) (limit : Nat)
    (given : Option String) : (evaluateJson ast context limit).Consistent given := by
  unfold evaluateJson
  cases Predicate.ofJson limit ast with
  | error e => exact EvalResult.consistent_failure given e
  | ok p => exact p.consistent_evaluate context limit given

/-- A text that is refused as unreadable is no JSON. -/
theorem Predicate.noJson_of_ofText {text : String}
    (h : ofText limit text = .error .unreadable) : NoJson text := by
  unfold ofText at h
  cases hdecode : (Json.read text).decode .json Decoder.json with
  | ok value =>
    rw [hdecode] at h
    obtain ⟨fault, hfault⟩ := exists_grammar_of_ofJson h
    cases hfault
  | error fault =>
    refine ⟨fault, hdecode, ?_⟩
    rintro rfl
    rw [hdecode] at h
    cases h

/-- The result of evaluating a text is consistent. -/
theorem consistent_evaluateText (text : String) (context : Context) (limit : Nat) :
    (evaluateText text context limit).Consistent (some text) := by
  unfold evaluateText
  split
  · exact Predicate.consistent_evaluate _ context limit _
  · rename_i hread
    exact .unread text rfl (Predicate.noJson_of_ofText hread) rfl rfl rfl rfl
  · exact EvalResult.consistent_failure _ _

/-- Every result is consistent. -/
theorem Inquiry.consistent_result (inquiry : Inquiry) (context : Context) (limit : Nat) :
    (inquiry.result context limit).Consistent inquiry.text? := by
  cases inquiry with
  | node p => exact p.consistent_evaluate context limit none
  | json ast => exact consistent_evaluateJson ast context limit none
  | text contents => exact consistent_evaluateText contents context limit
  | rule r => exact r.predicate.consistent_evaluate context limit none
  | request ast =>
    cases ast with
    | string contents => exact consistent_evaluateText contents context limit
    | _ => exact consistent_evaluateJson _ context limit none

/-- Every result is consistent, and the label of the first entry of its trace is that of an error
exactly when there is one. An evaluation fails because a field is missing, the types of operands do
not fit, a number is divided by zero or the limit is exceeded, and reading a JSON value fails with a
grammar fault. -/
theorem results_consistent (context : Context) (limit : Nat) :
    (∀ inquiry : Inquiry, (inquiry.result context limit).Consistent inquiry.text? ∧
      ((inquiry.result context limit).trace.label = "error" ∨
        (inquiry.result context limit).trace.label = "parse error" ↔
          (inquiry.result context limit).isError = true)) ∧
    (∀ p e, Predicate.tryEvaluate p context limit = .error e →
      p.Failure context e ∨ e = .depthExceeded limit) ∧
    ∀ ast e, Predicate.ofJson limit ast = .error e → ∃ fault, e = .grammar fault := by
  refine ⟨fun inquiry => ?_, fun p e h => Predicate.failure_of_evaluateNode h,
    fun ast e h => Predicate.exists_grammar_of_ofJson h⟩
  have hconsistent := inquiry.consistent_result context limit
  exact ⟨hconsistent, hconsistent.label_iff⟩

/-- A field with the name of an error is no error while the context defines it, and its absence is
one; null is no predicate. -/
theorem results_consistent_field_error :
    let p : Predicate := .field "error"
    let context : Context := .ofList [("error", .string "Invalid JSON")]
    (¬ (p.evaluate context 1).trace.label = "error") ∧
      (∃ e, p.tryEvaluate (.ofList []) 1 = .error e ∧ p.Failure (.ofList []) e) ∧
      ∃ e fault, Predicate.ofJson 1 .null = .error e ∧ e = .grammar fault := by
  intro p context
  obtain ⟨hdefined, -, hgrammar⟩ := results_consistent context 1
  obtain ⟨-, hfailures, -⟩ := results_consistent (.ofList []) 1
  refine ⟨fun hlabel => ?_, ⟨_, rfl, ?_⟩, ?_⟩
  · have herror := (hdefined (.node p)).2.1 (.inl hlabel)
    cases herror
  · rcases hfailures p (.missingField "error") rfl with hfailure | hdepth
    · exact hfailure
    · cases hdepth
  · obtain ⟨fault, hfault⟩ := hgrammar .null _ rfl
    exact ⟨_, fault, rfl, hfault⟩

end AuditedRules
