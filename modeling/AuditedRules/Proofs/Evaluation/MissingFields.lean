import AuditedRules.Proofs.Evaluation.Failures

/-!
# Which field is missing

The fields of a predicate are known before it is evaluated. An evaluation that succeeds has come to
all of them, so the context defines them all. One that fails with a missing field has come to the
leaves from left to right and names the first one that the context does not define, which is also
the first such name of the fields, listed once each in the order of the leaves.

Other failures may end the evaluation before a missing field is met, be it the limit on levels or
the step of some node. So only the two outcomes that tell of the fields are followed through the
tree: success (`firstMissing?_of_ok`), and the missing field itself, before which all operands
succeed (`firstMissing?_of_error`).
-/

namespace AuditedRules

/-- The message of a missing field tells which one it is. -/
theorem EvalError.eq_of_missingField_message {name name' : String}
    (h : (missingField name).message = (missingField name').message) : name = name' := by
  unfold message inQuotes at h
  rwa [String.append_left_inj, String.append_right_inj, String.append_left_inj,
    String.append_right_inj] at h

namespace Predicate

variable {context : Context} {limit levels : Nat} {p : Predicate} {name : String}

/-! ## Results -/

/-- A result shows a missing field exactly when the evaluation fails with it. -/
theorem evaluate_eq_missingField_iff :
    p.evaluate context limit = .failure (.missingField name) ↔
      p.tryEvaluate context limit = .error (.missingField name) := by
  unfold evaluate
  cases p.tryEvaluate context limit with
  | ok found => simp [EvalResult.ofEvaluated, EvalResult.success, EvalResult.failure]
  | error e =>
    rw [Except.error.injEq]
    constructor
    · intro h
      have hkind : e.kind = (EvalError.missingField name).kind := EvalResult.kind_eq_of_failure_eq h
      have hmessage : e.message = (EvalError.missingField name).message :=
        Option.some.inj (congrArg EvalResult.error h)
      cases e with
      | missingField found => rw [EvalError.eq_of_missingField_message hmessage]
      | _ => simp [EvalError.kind] at hkind
    · rintro rfl
      rfl

/-! ## The first missing leaf -/

/-- The first leaf whose field the context does not define. -/
def firstMissing? (context : Context) (p : Predicate) : Option String :=
  p.fieldLeaves.find? fun name => (context.get? name).isNone

/-- Where the root is no leaf, the first missing leaf is that of the first operand with one. -/
theorem firstMissing?_eq (h : ∀ name, p ≠ .field name) :
    p.firstMissing? context = p.operands.findSome? (firstMissing? context) := by
  unfold firstMissing?
  rw [fieldLeaves_eq_flatMap h, List.find?_flatMap]

/-- A field leaf is missing when the context does not define it. -/
theorem firstMissing?_field (context : Context) (name : String) :
    firstMissing? context (.field name) = if context.get? name = none then some name else none := by
  unfold firstMissing?
  rw [fieldLeaves, List.find?_singleton]
  simp only [Option.isNone_iff_eq_none]

/-! ## Evaluation -/

/-- An evaluation that succeeds has come to no missing leaf. -/
theorem firstMissing?_of_ok {e : Evaluated} (h : evaluateNode context limit levels p = .ok e) :
    p.firstMissing? context = none := by
  induction p using operands_induction generalizing levels e with
  | node p ih =>
    cases levels with
    | zero => cases h
    | succ levels =>
      obtain ⟨operands, hoperands, hvalue, -⟩ := evaluateNode_succ_eq_ok_iff.1 h
      by_cases hleaf : ∃ name, p = .field name
      · obtain ⟨name, rfl⟩ := hleaf
        rw [firstMissing?_field, if_neg]
        intro hget
        rw [operate, hget] at hvalue
        cases hvalue
      · rw [firstMissing?_eq (not_exists.1 hleaf), List.findSome?_eq_none_iff]
        intro q hq
        obtain ⟨inner, -, hinner⟩ := exists_result_of_map_eq hoperands hq
        exact ih q hq hinner

/-- A missing field that an evaluation fails with is that of the first missing leaf. -/
theorem firstMissing?_of_error
    (h : evaluateNode context limit levels p = .error (.missingField name)) :
    p.firstMissing? context = some name := by
  induction p using operands_induction generalizing levels with
  | node p ih =>
    cases levels with
    | zero => cases h
    | succ levels =>
      rw [evaluateNode_succ] at h
      rcases bind_eq_error_iff.1 h with hoperands | ⟨operands, -, h⟩
      · -- An operand failed with it, and those before that one succeeded.
        have hfailure := failure?_eq_some_iff.2 hoperands
        rw [failure?_mapM, List.findSome?_eq_some_iff] at hfailure
        obtain ⟨before, q, after, hsplit, hq, hbefore⟩ := hfailure
        have hmem : q ∈ p.operands := by
          rw [hsplit]
          exact List.mem_append_right _ List.mem_cons_self
        have hleaf : ∀ other, p ≠ .field other := by
          rintro other rfl
          cases hmem
        rw [firstMissing?_eq hleaf, List.findSome?_eq_some_iff]
        refine ⟨before, q, after, hsplit, ih q hmem (failure?_eq_some_iff.1 hq), fun r hr => ?_⟩
        obtain ⟨inner, hinner⟩ := failure?_eq_none_iff.1 (hbefore r hr)
        exact firstMissing?_of_ok hinner
      · -- The operands succeeded, so it is the step of a leaf.
        rcases bind_eq_error_iff.1 h with hstep | ⟨value, -, h⟩
        · rcases operate_error_cases hstep with ⟨found, rfl, hget, he⟩ | ⟨_, _, _, he⟩ | he
          · cases he
            rw [firstMissing?_field, if_pos hget]
          · cases he
          · cases he
        · cases h

/-! ## The fields -/

/-- The first missing leaf is the first of the fields that the context does not define. -/
theorem firstMissing?_eq_some_iff :
    p.firstMissing? context = some name ↔
      ∃ before after, p.fieldNames = before ++ name :: after ∧ context.Defines before ∧
        context.get? name = none := by
  unfold firstMissing?
  rw [← find?_fieldNames, List.find?_eq_some_iff_append, Option.isNone_iff_eq_none]
  simp only [Bool.not_eq_true', Option.isNone_eq_false_iff]
  constructor
  · rintro ⟨hmissing, before, after, hsplit, hbefore⟩
    exact ⟨before, after, hsplit, hbefore, hmissing⟩
  · rintro ⟨before, after, hsplit, hbefore, hmissing⟩
    exact ⟨hmissing, before, after, hsplit, hbefore⟩

/-- Without a missing leaf the context defines all fields. -/
theorem firstMissing?_eq_none_iff :
    p.firstMissing? context = none ↔ context.Defines p.fieldNames := by
  unfold firstMissing? Context.Defines
  rw [← find?_fieldNames, List.find?_eq_none]
  simp only [Option.isNone_iff_eq_none, Option.isSome_iff_ne_none, ne_eq]

/-- Under any limit, an evaluation that succeeds has all its fields defined by the context. A result
shows a missing field exactly when the evaluation fails with it, and then that is the first of the
fields which the context does not define. So where it defines all of them, no result shows a missing
field. -/
theorem evaluate_missing_field (p : Predicate) (context : Context) (limit : Nat) :
    ((p.evaluate context limit).isError = false → context.Defines p.fieldNames) ∧
    (∀ name, p.evaluate context limit = .failure (.missingField name) ↔
      p.tryEvaluate context limit = .error (.missingField name)) ∧
    (∀ name, p.evaluate context limit = .failure (.missingField name) →
      ∃ before after, p.fieldNames = before ++ name :: after ∧ context.Defines before ∧
        context.get? name = none) ∧
    (context.Defines p.fieldNames → ∀ name,
      p.evaluate context limit ≠ .failure (.missingField name)) := by
  have hfirst : ∀ name, p.evaluate context limit = .failure (.missingField name) →
      p.firstMissing? context = some name :=
    fun name h => firstMissing?_of_error (evaluate_eq_missingField_iff.1 h)
  refine ⟨fun h => ?_, fun name => evaluate_eq_missingField_iff, fun name h => ?_, fun h name => ?_⟩
  · cases hevaluate : p.tryEvaluate context limit with
    | ok e => exact firstMissing?_eq_none_iff.1 (firstMissing?_of_ok hevaluate)
    | error e =>
      rw [evaluate, hevaluate] at h
      cases h
  · exact firstMissing?_eq_some_iff.1 (hfirst name h)
  · intro hmissing
    have hname := hfirst name hmissing
    rw [firstMissing?_eq_none_iff.2 h] at hname
    cases hname

/-- The gate asks for the order twice and for the credit in between. Without a credit that is what
it fails with, although the limit would refuse what comes after it. With all three fields it has a
value, or fails because the order is no number. -/
theorem evaluate_missing_field_credit :
    let p : Predicate :=
      .logical .and (.comparison .greater (.field "order") (.field "credit"))
        (.not (.not (.comparison .less (.field "order") (.field "ceiling"))))
    let partly : Context := .ofList [("order", .number (.ofInt 5))]
    let fully (order : Value) : Context := .ofList [("ceiling", .number (.ofInt 9)),
      ("credit", .number (.ofInt 3)), ("order", order)]
    p.fieldNames = ["order", "credit", "ceiling"] ∧
      (∃ before after, p.fieldNames = before ++ "credit" :: after ∧ partly.Defines before ∧
        partly.get? "credit" = none) ∧
      p.tryEvaluate partly 3 = .error (.missingField "credit") ∧
      (p.evaluate (fully (.number (.ofInt 5))) 5).isError = false ∧
      Context.Defines (fully (.number (.ofInt 5))) p.fieldNames ∧
      p.evaluate (fully (.bool true)) 5 ≠ .failure (.missingField "ceiling") := by
  intro p partly fully
  have hnames : p.fieldNames = ["order", "credit", "ceiling"] := fieldNames_eq p
  have hdefines : Context.Defines (fully (.bool true)) p.fieldNames := by
    rw [hnames]
    unfold Context.Defines
    decide
  have hvalue : (p.evaluate (fully (.number (.ofInt 5))) 5).isError = false := rfl
  have hcredit : p.evaluate partly 3 = .failure (.missingField "credit") := rfl
  obtain ⟨-, herror, hfirst, -⟩ := evaluate_missing_field p partly 3
  obtain ⟨hdefined, -⟩ := evaluate_missing_field p (fully (.number (.ofInt 5))) 5
  obtain ⟨-, -, -, hnever⟩ := evaluate_missing_field p (fully (.bool true)) 5
  exact ⟨hnames, hfirst _ hcredit, (herror _).1 hcredit, hvalue, hdefined hvalue,
    hnever hdefines _⟩

end Predicate

end AuditedRules
