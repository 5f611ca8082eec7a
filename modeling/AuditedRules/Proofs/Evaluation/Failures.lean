import AuditedRules.Proofs.Evaluation.Limit
import AuditedRules.Proofs.Evaluation.Observation

/-!
# Which failures are left

Within its limit an evaluation fails for one of three reasons: one of its fields is missing, an
operator on numbers meets other values, or a number is divided by zero (`Failure`). A step of a
field leaf is the only one that asks for a field, so where the context defines the fields of the
predicate the first reason does not occur. It defines them when it defines the names of a catalog
that allows the predicate.

A result shows a failure by its message. Messages of different kinds of errors start with different
letters, so that no failure can be taken for one of another kind (`kind_eq_of_message_eq`).
-/

namespace AuditedRules

/-! ## Messages -/

namespace EvalError

/-- The letter that the message of an error starts with. -/
def initial : EvalError → Char
  | .unreadable => 'I'
  | .grammar _ => 'M'
  | .missingField _ => 'F'
  | .divisionByZero => 'D'
  | .typeMismatch .. => 'T'
  | .depthExceeded _ => 'A'

/-- The name of the kind of errors whose messages start with a letter. -/
def kindOfInitial : Char → String
  | 'I' => "parse"
  | 'M' => "grammar"
  | 'F' => "missing_field"
  | 'D' => "division_by_zero"
  | 'T' => "type_mismatch"
  | _ => "depth_exceeded"

/-- The letter that a message starts with tells the kind of its error. -/
theorem kind_eq (e : EvalError) : e.kind = kindOfInitial e.initial := by
  cases e <;> rfl

/-- The letter of a text is that of its first part. -/
theorem head?_append {first : String} {letter : Char} (h : first.toList.head? = some letter)
    (rest : String) : (first ++ rest).toList.head? = some letter := by
  rw [String.toList_append, List.head?_append, h, Option.some_or]

/-- The message of an error starts with its letter. -/
theorem head?_message (e : EvalError) : e.message.toList.head? = some e.initial := by
  cases e with
  | unreadable => rfl
  | grammar fault => exact head?_append rfl _
  | missingField name => exact head?_append (head?_append rfl _) _
  | divisionByZero => rfl
  | typeMismatch op left right =>
    exact head?_append (head?_append (head?_append (head?_append (head?_append rfl _) _) _) _) _
  | depthExceeded limit => exact head?_append rfl _

/-- Errors with the same message are of the same kind. -/
theorem kind_eq_of_message_eq {e e' : EvalError} (h : e.message = e'.message) :
    e.kind = e'.kind := by
  have hinitial : e.initial = e'.initial := by
    have hhead := e.head?_message
    rw [h, head?_message] at hhead
    exact (Option.some.inj hhead).symm
  rw [kind_eq, kind_eq, hinitial]

end EvalError

/-- Results that show the same failure are of errors of the same kind. -/
theorem EvalResult.kind_eq_of_failure_eq {e e' : EvalError} (h : failure e = failure e') :
    e.kind = e'.kind :=
  EvalError.kind_eq_of_message_eq (Option.some.inj (congrArg EvalResult.error h))

/-! ## Failures within the limit -/

/-- A context gives values to some names. -/
def Context.Defines (context : Context) (names : List String) : Prop :=
  ∀ name ∈ names, (context.get? name).isSome = true

namespace Predicate

variable {context : Context} {limit : Nat} {p : Predicate}

/-- What an evaluation within the limit can fail with. -/
inductive Failure (p : Predicate) (context : Context) : EvalError → Prop
  | missingField {name : String} (hname : name ∈ p.fieldLeaves)
    (hmissing : context.get? name = none) : Failure p context (.missingField name)
  | typeMismatch {op : String} {left right : ValueType} :
    Failure p context (.typeMismatch op left right)
  | divisionByZero : Failure p context .divisionByZero

/-- The failure of an operand is one of the node. -/
theorem Failure.of_operand {q : Predicate} {e : EvalError} (h : q.Failure context e)
    (hq : q ∈ p.operands) : p.Failure context e := by
  cases h with
  | missingField hname hmissing =>
    exact .missingField (mem_fieldLeaves_of_mem_operands hq hname) hmissing
  | typeMismatch => exact .typeMismatch
  | divisionByZero => exact .divisionByZero

/-- The step of a node fails for one of the three reasons. -/
theorem failure_of_operate {values : List Value} {e : EvalError}
    (h : p.operate context values = .error e) : p.Failure context e := by
  rcases operate_error_cases h with ⟨name, rfl, hget, rfl⟩ | ⟨op, left, right, rfl⟩ | rfl
  · exact .missingField List.mem_cons_self hget
  · exact .typeMismatch
  · exact .divisionByZero

/-- An evaluation fails for one of the three reasons or because of the limit. -/
theorem failure_of_evaluateNode {levels : Nat} {e : EvalError}
    (h : evaluateNode context limit levels p = .error e) :
    p.Failure context e ∨ e = .depthExceeded limit := by
  induction p using operands_induction generalizing levels with
  | node p ih =>
    cases levels with
    | zero =>
      cases h
      exact .inr rfl
    | succ levels =>
      rw [evaluateNode_succ] at h
      rcases bind_eq_error_iff.1 h with hoperands | ⟨operands, -, h⟩
      · -- It is the failure of an operand.
        have hfailure := failure?_eq_some_iff.2 hoperands
        rw [failure?_mapM] at hfailure
        obtain ⟨q, hq, hfails⟩ := List.exists_of_findSome?_eq_some hfailure
        exact (ih q hq (failure?_eq_some_iff.1 hfails)).imp_left (·.of_operand hq)
      · rcases bind_eq_error_iff.1 h with hstep | ⟨value, -, h⟩
        · exact .inl (failure_of_operate hstep)
        · cases h

/-- Without a limit an evaluation fails for one of the three reasons. -/
theorem failure_of_evaluateUnbounded {e : EvalError} (h : p.evaluateUnbounded context = .error e) :
    p.Failure context e := by
  -- With as many levels as the predicate has, the limit is no reason.
  have hnode : evaluateNode context p.height p.height p = .error e := by
    rw [evaluateNode_eq_evaluateUnbounded (Nat.le_refl _)]
    exact h
  rcases failure_of_evaluateNode hnode with hfailure | rfl
  · exact hfailure
  · exact absurd h (evaluateUnbounded_ne_depthExceeded context p _)

/-- Within the limit an evaluation has a value, or fails for one of the three reasons. -/
theorem evaluate_cases (h : p.depth ≤ limit) (context : Context) :
    (p.evaluate context limit).isError = false ∨
      ∃ e, p.evaluate context limit = .failure e ∧ p.Failure context e := by
  unfold evaluate
  rw [tryEvaluate_eq_evaluateUnbounded h]
  cases hevaluate : p.evaluateUnbounded context with
  | ok evaluated => exact .inl rfl
  | error e => exact .inr ⟨e, rfl, failure_of_evaluateUnbounded hevaluate⟩

/-- Within the limit no result shows a failure of depth. -/
theorem evaluate_ne_depthExceeded (h : p.depth ≤ limit) (context : Context) (bound : Nat) :
    p.evaluate context limit ≠ .failure (.depthExceeded bound) := by
  intro hdepth
  rcases evaluate_cases h context with hvalue | ⟨e, he, hfailure⟩
  · rw [hdepth] at hvalue
    cases hvalue
  · have hkind : e.kind = (EvalError.depthExceeded bound).kind :=
      EvalResult.kind_eq_of_failure_eq (he.symm.trans hdepth)
    cases hfailure <;> simp [EvalError.kind] at hkind

end Predicate

/-- A result is a value, a type mismatch or a division by zero. -/
def EvalResult.Settled (result : EvalResult) : Prop :=
  result.isError = false ∨ result = .failure .divisionByZero ∨
    ∃ op left right, result = .failure (.typeMismatch op left right)

/-- A settled result shows no missing field. -/
theorem EvalResult.Settled.ne_missingField {result : EvalResult} (h : result.Settled)
    (name : String) : result ≠ .failure (.missingField name) := by
  rintro rfl
  rcases h with hvalue | hzero | ⟨op, left, right, htypes⟩
  · cases hvalue
  · have hkind := kind_eq_of_failure_eq hzero
    simp [EvalError.kind] at hkind
  · have hkind := kind_eq_of_failure_eq htypes
    simp [EvalError.kind] at hkind

/-- Where the context defines what a catalog lists, no field is missing for a predicate that the
catalog allows. -/
theorem FieldCatalog.settled_of_defines {catalog : FieldCatalog} {p : Predicate} {limit : Nat}
    (hcatalog : catalog.isEmpty = false) (hallowed : catalog.firstUnknown? p = none)
    (hdepth : p.depth ≤ limit) {context : Context} (hdefines : context.Defines catalog.names) :
    (p.evaluate context limit).Settled := by
  rcases Predicate.evaluate_cases hdepth context with hvalue | ⟨e, he, hfailure⟩
  · exact .inl hvalue
  · cases hfailure with
    | missingField hname hmissing =>
      have hcontains := (firstUnknown?_eq_none_iff hcatalog).1 hallowed _
        (Predicate.mem_fieldNames_iff.2 hname)
      have hdefined := hdefines _ (contains_iff_mem_names.1 hcontains)
      rw [hmissing] at hdefined
      cases hdefined
    | typeMismatch => exact .inr (.inr ⟨_, _, _, he⟩)
    | divisionByZero => exact .inr (.inl he)

end AuditedRules
