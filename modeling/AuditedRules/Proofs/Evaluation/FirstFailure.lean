import AuditedRules.Proofs.Evaluation.Audit
import AuditedRules.Proofs.Evaluation.Limit
import AuditedRules.Proofs.Evaluation.Meaning

/-!
# The first failure

A node fails in its own step when its operands have values that it does not take (`StepFails`). An
evaluation within its limit fails when some node does so, wherever in the tree it stands, and the
error is that of the first such node, from left to right and operands before their node
(`evaluate_first_failure`). Nothing is masked: a node below `and` or `or` counts like any other,
even if the operand beside it decides.

An evaluation fails with the failure of its operands, and where they have none with the own failure
of the node (`failure?_evaluateUnbounded_eq`). Going down the tree this way makes the error the
first own failure in the order of the nodes (`failure?_evaluateUnbounded`).
-/

namespace AuditedRules

/-- Steps for the items of a list succeed together when each of them does. -/
theorem toOption_mapM {ε α β γ : Type} (step : α → Except ε β) (view : β → γ) (items : List α) :
    (items.mapM step).toOption.map (List.map view) =
      items.mapM fun a => (step a).toOption.map view := by
  induction items with
  | nil => rfl
  | cons item items ih =>
    rw [List.mapM_cons, List.mapM_cons, ← ih]
    cases step item with
    | error e => rfl
    | ok first => cases items.mapM step <;> rfl

namespace Predicate

/-! ## Nodes in order -/

/-- The nodes from left to right, each after those of its operands. -/
def postorder : Predicate → List Predicate
  | .const value => [.const value]
  | .field name => [.field name]
  | .arithmetic op left right => left.postorder ++ right.postorder ++ [.arithmetic op left right]
  | .comparison op left right => left.postorder ++ right.postorder ++ [.comparison op left right]
  | .logical op left right => left.postorder ++ right.postorder ++ [.logical op left right]
  | .not operand => operand.postorder ++ [.not operand]

/-- The nodes of a predicate are those of its operands and then the predicate itself. -/
theorem postorder_eq (p : Predicate) : p.postorder = p.operands.flatMap postorder ++ [p] := by
  cases p <;> simp [postorder, operands]

/-- The nodes are what stands at some path. -/
theorem mem_postorder_iff {p q : Predicate} : q ∈ p.postorder ↔ ∃ path, p.at? path = some q := by
  induction p using operands_induction with
  | node p ih =>
    rw [postorder_eq, List.mem_append, List.mem_flatMap, List.mem_singleton]
    constructor
    · rintro (⟨operand, hoperand, hq⟩ | rfl)
      · obtain ⟨path, hpath⟩ := (ih operand hoperand).1 hq
        obtain ⟨position, hposition⟩ := List.mem_iff_getElem?.1 hoperand
        refine ⟨position :: path, ?_⟩
        rw [at?, hposition]
        exact hpath
      · exact ⟨[], rfl⟩
    · rintro ⟨path, hpath⟩
      cases path with
      | nil => exact .inr (Option.some.inj hpath).symm
      | cons position path =>
        obtain ⟨operand, hposition, hq⟩ := Option.bind_eq_some_iff.1 hpath
        have hoperand := List.mem_of_getElem? hposition
        exact .inl ⟨operand, hoperand, (ih operand hoperand).2 ⟨path, hq⟩⟩

/-! ## Own failures -/

/-- A node fails with an error in its own step: its operands have values, and there is no value for
the node. -/
inductive StepFails (context : Context) : Predicate → EvalError → Prop
  /-- The context does not define a field. -/
  | missingField {name : String} (missing : context.get? name = none) :
    StepFails context (.field name) (.missingField name)
  /-- One of the operands of an arithmetic operator is no number. -/
  | arithmeticTypes {op : ArithmeticOp} {left right : Predicate} {l r : Value}
      (hleft : left.value? context = some l) (hright : right.value? context = some r)
      (types : l.number? = none ∨ r.number? = none) :
    StepFails context (.arithmetic op left right) (.typeMismatch op.name l.type r.type)
  /-- One of two values to be compared by order is no number. -/
  | orderTypes {op : ComparisonOp} {left right : Predicate} {l r : Value}
      (order : op ≠ .equal ∧ op ≠ .notEqual)
      (hleft : left.value? context = some l) (hright : right.value? context = some r)
      (types : l.number? = none ∨ r.number? = none) :
    StepFails context (.comparison op left right) (.typeMismatch op.name l.type r.type)
  /-- A number is divided by a zero of either sign. -/
  | divisionByZero {left right : Predicate} {x y : Binary64}
      (hleft : left.value? context = some (.number x))
      (hright : right.value? context = some (.number y)) (zero : y.isZero = true) :
    StepFails context (.arithmetic .div left right) .divisionByZero

/-- The shapes whose own step takes any values. -/
def TakesAll : Predicate → Prop
  | .const _ => True
  | .field _ => False
  | .arithmetic .. => False
  | .comparison op _ _ => op = .equal ∨ op = .notEqual
  | .logical .. => True
  | .not _ => True

/-- The own failure of a node whose operands have values, if there is one. -/
def ownFailure? (context : Context) (p : Predicate) : Option EvalError :=
  (p.operands.mapM (value? context)).bind fun values => failure? (p.operate context values)

variable {context : Context} {limit : Nat} {p : Predicate} {e : EvalError}

/-- Two operands have values when both do. -/
theorem bind_mapM_pair_eq_some_iff {left right : Predicate} {next : List Value → Option EvalError} :
    ([left, right].mapM (value? context)).bind next = some e ↔
      ∃ l r, left.value? context = some l ∧ right.value? context = some r ∧
        next [l, r] = some e := by
  rw [List.mapM_cons, List.mapM_cons, List.mapM_nil]
  cases left.value? context with
  | none => simp
  | some l => cases right.value? context <;> simp

/-- The own failures are those that the step of the node has. -/
theorem ownFailure?_eq_some_iff : ownFailure? context p = some e ↔ StepFails context p e := by
  unfold ownFailure?
  -- Constants and the operators on truth values have a value for any operands.
  cases p with
  | const value =>
    constructor
    · intro h
      cases h
    · intro h
      cases h
  | field name =>
    show failure? (operate context (.field name) []) = some e ↔ _
    unfold operate
    dsimp only
    cases hname : context.get? name with
    | none =>
      constructor
      · intro h
        cases h
        exact .missingField hname
      · rintro ⟨-⟩
        rfl
    | some value =>
      constructor
      · intro h
        cases h
      · rintro ⟨missing⟩
        rw [hname] at missing
        cases missing
  | arithmetic op left right =>
    dsimp only [operands]
    rw [bind_mapM_pair_eq_some_iff]
    constructor
    · rintro ⟨l, r, hleft, hright, h⟩
      rcases ArithmeticOp.apply_eq_error_iff.1 (map_eq_error_iff.1 (failure?_eq_some_iff.1 h)) with
        ⟨types, rfl⟩ | ⟨rfl, ⟨x, y, hx, hy, zero⟩, rfl⟩
      · exact .arithmeticTypes hleft hright types
      · -- The divisor is looked at only where both operands are numbers.
        cases l <;> cases hx
        cases r <;> cases hy
        exact .divisionByZero hleft hright zero
    · intro h
      cases h with
      | @arithmeticTypes _ _ _ l r hleft hright types =>
        refine ⟨l, r, hleft, hright, failure?_eq_some_iff.2 (map_eq_error_iff.2 ?_)⟩
        exact ArithmeticOp.apply_eq_error_iff.2 (.inl ⟨types, rfl⟩)
      | @divisionByZero _ _ x y hleft hright zero =>
        refine ⟨_, _, hleft, hright, failure?_eq_some_iff.2 (map_eq_error_iff.2 ?_)⟩
        exact ArithmeticOp.apply_eq_error_iff.2 (.inr ⟨rfl, ⟨x, y, rfl, rfl, zero⟩, rfl⟩)
  | comparison op left right =>
    dsimp only [operands]
    rw [bind_mapM_pair_eq_some_iff]
    constructor
    · rintro ⟨l, r, hleft, hright, h⟩
      obtain ⟨order, types, rfl⟩ :=
        ComparisonOp.apply_eq_error_iff.1 (map_eq_error_iff.1 (failure?_eq_some_iff.1 h))
      exact .orderTypes order hleft hright types
    · intro h
      cases h with
      | @orderTypes _ _ _ l r order hleft hright types =>
        refine ⟨l, r, hleft, hright, failure?_eq_some_iff.2 (map_eq_error_iff.2 ?_)⟩
        exact ComparisonOp.apply_eq_error_iff.2 ⟨order, types, rfl⟩
  | logical op left right =>
    dsimp only [operands]
    rw [bind_mapM_pair_eq_some_iff]
    constructor
    · rintro ⟨l, r, -, -, h⟩
      cases h
    · intro h
      cases h
  | not operand =>
    constructor
    · intro h
      obtain ⟨values, -, h⟩ := Option.bind_eq_some_iff.1 h
      cases h
    · intro h
      cases h

/-- A node has no own failure when it fails with no error in its own step. -/
theorem ownFailure?_eq_none_iff : ownFailure? context p = none ↔ ∀ e, ¬ StepFails context p e := by
  simp only [Option.eq_none_iff_forall_ne_some, ne_eq, ownFailure?_eq_some_iff]

/-! ## The order of failures -/

/-- A node fails with the failure of its operands, and without one with its own failure. -/
theorem failure?_evaluateUnbounded_eq (context : Context) (p : Predicate) :
    failure? (p.evaluateUnbounded context) =
      (failure? (p.operands.mapM (evaluateUnbounded context))).or (ownFailure? context p) := by
  have hvalues := toOption_mapM (evaluateUnbounded context) (·.value) p.operands
  simp only [toOption_evaluateUnbounded] at hvalues
  rw [evaluateUnbounded_eq, ownFailure?, ← hvalues]
  -- With a failed operand there are no values for the step of the node, so it has no own failure.
  cases p.operands.mapM (evaluateUnbounded context) with
  | error e => rfl
  | ok results =>
    show failure? (p.operate context (results.map (·.value)) >>= _) =
      failure? (p.operate context (results.map (·.value)))
    cases p.operate context (results.map (·.value)) <;> rfl

/-- Without a limit the error is the first own failure in the order of the nodes. -/
theorem failure?_evaluateUnbounded (context : Context) (p : Predicate) :
    failure? (p.evaluateUnbounded context) = p.postorder.findSome? (ownFailure? context) := by
  induction p using operands_induction with
  | node p ih =>
    rw [failure?_evaluateUnbounded_eq, failure?_mapM, postorder_eq, List.findSome?_append,
      findSome?_flatMap ih, List.findSome?_singleton]

/-- The error is that of a node that fails in its own step while no node before it does. -/
theorem evaluateUnbounded_eq_error_iff :
    p.evaluateUnbounded context = .error e ↔
      ∃ before q after, p.postorder = before ++ q :: after ∧
        (∀ r ∈ before, ∀ e', ¬ StepFails context r e') ∧ StepFails context q e := by
  rw [← failure?_eq_some_iff, failure?_evaluateUnbounded, List.findSome?_eq_some_iff]
  simp only [ownFailure?_eq_some_iff, ownFailure?_eq_none_iff]
  constructor
  · rintro ⟨before, q, after, hsplit, hq, hbefore⟩
    exact ⟨before, q, after, hsplit, hbefore, hq⟩
  · rintro ⟨before, q, after, hsplit, hbefore, hq⟩
    exact ⟨before, q, after, hsplit, hq, hbefore⟩

/-- Some node has an own failure exactly when there is a first one. -/
theorem exists_stepFails_iff :
    (∃ path q e, p.at? path = some q ∧ StepFails context q e) ↔
      ∃ e, p.evaluateUnbounded context = .error e := by
  constructor
  · rintro ⟨path, q, e, hpath, hq⟩
    cases hfirst : p.evaluateUnbounded context with
    | error first => exact ⟨first, rfl⟩
    | ok found =>
      -- Without an error no node of the list has an own failure.
      have hnone : failure? (p.evaluateUnbounded context) = none :=
        failure?_eq_none_iff.2 ⟨found, hfirst⟩
      rw [failure?_evaluateUnbounded, List.findSome?_eq_none_iff] at hnone
      have hq' := hnone q (mem_postorder_iff.2 ⟨path, hpath⟩)
      exact absurd hq (ownFailure?_eq_none_iff.1 hq' e)
  · rintro ⟨e, he⟩
    obtain ⟨before, q, after, hsplit, -, hq⟩ := evaluateUnbounded_eq_error_iff.1 he
    have hmem : q ∈ p.postorder := by
      rw [hsplit]
      exact List.mem_append_right _ List.mem_cons_self
    obtain ⟨path, hpath⟩ := mem_postorder_iff.1 hmem
    exact ⟨path, q, e, hpath, hq⟩

/-- A shape whose step takes any values has no own failure. -/
theorem TakesAll.not_stepFails (h : p.TakesAll) : ¬ StepFails context p e := by
  intro hfails
  cases hfails with
  | missingField missing => exact h
  | arithmeticTypes hleft hright types => exact h
  | orderTypes order hleft hright types => exact h.elim order.1 order.2
  | divisionByZero hleft hright zero => exact h

/-! ## Results -/

/-- A result has an error exactly when the evaluation fails. -/
theorem isError_evaluate_iff :
    (p.evaluate context limit).isError = true ↔ ∃ e, p.tryEvaluate context limit = .error e := by
  unfold evaluate
  cases p.tryEvaluate context limit with
  | error e => exact iff_of_true rfl ⟨e, rfl⟩
  | ok found => simp [EvalResult.ofEvaluated, EvalResult.success, EvalResult.isError]

/-- Where a step takes any values, a failure is that of an operand. -/
theorem TakesAll.exists_operand_fails (htakes : p.TakesAll)
    (h : p.evaluateUnbounded context = .error e) :
    ∃ q ∈ p.operands, q.evaluateUnbounded context = .error e := by
  rw [← failure?_eq_some_iff, failure?_evaluateUnbounded_eq, Option.or_eq_some_iff] at h
  rcases h with hoperands | ⟨-, hown⟩
  · rw [failure?_mapM] at hoperands
    obtain ⟨q, hq, hfails⟩ := List.exists_of_findSome?_eq_some hoperands
    exact ⟨q, hq, failure?_eq_some_iff.1 hfails⟩
  · exact absurd (ownFailure?_eq_some_iff.1 hown) htakes.not_stepFails

/-- Within its limit an evaluation fails exactly when some node, at whatever path, fails in its own
step. The error is that of the first such node: no node before it, from left to right and operands
before their node, fails in its own step. Otherwise the result has the value of the predicate. A
constant, a comparison for equality, `and`, `or` and `not` do not fail where their operands do not
fail. -/
theorem evaluate_first_failure (p : Predicate) (context : Context) {limit : Nat}
    (h : p.depth ≤ limit) :
    ((p.evaluate context limit).isError = true ↔
      ∃ path q e, p.at? path = some q ∧ StepFails context q e) ∧
    (∀ e, p.tryEvaluate context limit = .error e ↔
      ∃ before q after, p.postorder = before ++ q :: after ∧
        (∀ r ∈ before, ∀ e', ¬ StepFails context r e') ∧ StepFails context q e) ∧
    (∀ e, p.tryEvaluate context limit = .error e → p.evaluate context limit = .failure e) ∧
    (∀ value, (∃ trace, p.evaluate context limit = .success ⟨value, trace⟩) ↔
      p.value? context = some value) ∧
    (p.TakesAll → (∀ q ∈ p.operands, (q.evaluate context limit).isError = false) →
      (p.evaluate context limit).isError = false) := by
  have hwithin : p.tryEvaluate context limit = p.evaluateUnbounded context :=
    tryEvaluate_eq_evaluateUnbounded h
  have herror : (p.evaluate context limit).isError = true ↔
      ∃ path q e, p.at? path = some q ∧ StepFails context q e := by
    rw [isError_evaluate_iff, hwithin, exists_stepFails_iff]
  refine ⟨herror, fun e => ?_, fun e he => ?_, fun value => ?_, fun htakes hoperands => ?_⟩
  · rw [hwithin]
    exact evaluateUnbounded_eq_error_iff
  · rw [evaluate, he]
    rfl
  · simp only [evaluate_eq_success_iff, value?_eq_some_iff]
    rw [← hwithin]
    rfl
  · rw [← Bool.not_eq_true, isError_evaluate_iff, hwithin]
    rintro ⟨e, he⟩
    obtain ⟨q, hq, hfails⟩ := htakes.exists_operand_fails he
    -- The operand has fewer levels, so the limit is no reason for it to fail either.
    have hdepth : q.depth ≤ limit := by
      have hlt := height_lt_of_mem_operands hq
      rw [depth_eq_height] at h ⊢
      omega
    have hq := hoperands q hq
    rw [← Bool.not_eq_true, isError_evaluate_iff, tryEvaluate_eq_evaluateUnbounded hdepth] at hq
    exact hq ⟨e, hfails⟩

/-- A comparison below a disjunction that its first operand decides is evaluated up to the division
by a negative zero in it, which comes before its own operands are found to be of other types. With
an empty context the field in front of the division fails first. -/
theorem evaluate_first_failure_disjunction :
    let quotient : Predicate :=
      .arithmetic .div (.const (.number (.ofInt 1))) (.const (.number (.zero true)))
    let p : Predicate :=
      .logical .or (.const (.bool true)) (.comparison .greater (.field "tier") quotient)
    let context : Context := .ofList [("tier", .string "gold")]
    p.depth ≤ 4 ∧ p.tryEvaluate context 4 = .error .divisionByZero ∧
      p.evaluate context 4 = .failure .divisionByZero ∧
      (p.evaluate (.ofList []) 4).isError = true ∧
      (∃ trace, evaluate (.not (.field "tier")) context 4 = .success ⟨.bool false, trace⟩) ∧
      (evaluate (.not (.field "tier")) context 4).isError = false := by
  intro quotient p context
  have hdepth : p.depth ≤ 4 := Nat.le_of_eq (depth_eq_height p)
  have hnot : depth (.not (.field "tier")) ≤ 4 := by
    rw [depth_eq_height]
    decide
  obtain ⟨-, hfirst, hresult, -⟩ := evaluate_first_failure p context hdepth
  obtain ⟨hfails, -⟩ := evaluate_first_failure p (.ofList []) hdepth
  obtain ⟨-, -, -, hvalue, htakes⟩ := evaluate_first_failure (.not (.field "tier")) context hnot
  have hdivision : p.tryEvaluate context 4 = .error .divisionByZero := by
    refine (hfirst _).2 ⟨[.const (.bool true), .field "tier", .const (.number (.ofInt 1)),
      .const (.number (.zero true))], quotient,
      [.comparison .greater (.field "tier") quotient, p], rfl, ?_, .divisionByZero rfl rfl rfl⟩
    intro q hq e hown
    -- Of the nodes before the division only the field could fail, and it is defined.
    cases hown with
    | @missingField name missing =>
      obtain rfl : name = "tier" := by simpa using hq
      cases missing
    | _ => simp at hq
  refine ⟨hdepth, hdivision, hresult _ hdivision, ?_, (hvalue _).2 rfl, ?_⟩
  · exact hfails.2 ⟨[1, 0], .field "tier", _, rfl, .missingField rfl⟩
  · refine htakes trivial fun q hq => ?_
    rw [List.mem_singleton.1 hq]
    rfl

end Predicate

end AuditedRules
