import AuditedRules.Proofs.Evaluation.Operators
import AuditedRules.Proofs.Evaluation.Order
import AuditedRules.Proofs.Predicate.CompactText

/-!
# What the limit on levels does to an evaluation

A limit never changes an answer, it only refuses one. Within the limit the evaluation is the
unlimited one, which knows no failure of depth (`evaluateUnbounded_ne_depthExceeded`). Beyond the
limit some tree is refused, so there is a failure for every context; it is that of the limit, or the
failure of a node that is met before any tree is refused (`exists_first_failure`).

A predicate that was read under a limit has no more levels than the limit, so its evaluation under
the same limit is never refused.
-/

namespace AuditedRules.Predicate

variable {context : Context} {limit levels : Nat} {p : Predicate}

/-! ## Failures of depth -/

/-- The step of a node fails because it is a leaf whose field is missing, because operands are no
numbers, or because of a division by zero. -/
theorem operate_error_cases {values : List Value} {e : EvalError}
    (h : p.operate context values = .error e) :
    (∃ name, p = .field name ∧ context.get? name = none ∧ e = .missingField name) ∨
      (∃ op left right, e = .typeMismatch op left right) ∨ e = .divisionByZero := by
  cases p with
  | const value => cases h
  | field name =>
    unfold operate at h
    dsimp only at h
    cases hget : context.get? name with
    | some value =>
      rw [hget] at h
      cases h
    | none =>
      rw [hget] at h
      cases h
      exact .inl ⟨name, rfl, hget, rfl⟩
  | arithmetic op left right =>
    rcases ArithmeticOp.apply_eq_error_iff.1 (map_eq_error_iff.1 h) with ⟨-, rfl⟩ | ⟨-, -, rfl⟩
    · exact .inr (.inl ⟨_, _, _, rfl⟩)
    · exact .inr (.inr rfl)
  | comparison op left right =>
    obtain ⟨-, -, rfl⟩ := ComparisonOp.apply_eq_error_iff.1 (map_eq_error_iff.1 h)
    exact .inr (.inl ⟨_, _, _, rfl⟩)
  | logical op left right => cases h
  | not operand => cases h

/-- The step of a node never fails with depth. -/
theorem operate_ne_depthExceeded (values : List Value) (bound : Nat) :
    p.operate context values ≠ .error (.depthExceeded bound) := by
  intro h
  rcases operate_error_cases h with ⟨name, -, -, he⟩ | ⟨op, left, right, he⟩ | he <;> cases he

/-- Without a limit nothing fails with depth. -/
theorem evaluateUnbounded_ne_depthExceeded (context : Context) (p : Predicate) (bound : Nat) :
    p.evaluateUnbounded context ≠ .error (.depthExceeded bound) := by
  induction p using operands_induction with
  | node p ih =>
    rw [evaluateUnbounded_eq]
    intro h
    rcases bind_eq_error_iff.1 h with hoperands | ⟨operands, -, h⟩
    · -- It would be the failure of an operand.
      have hfailure := failure?_eq_some_iff.2 hoperands
      rw [failure?_mapM] at hfailure
      obtain ⟨q, hq, hfails⟩ := List.exists_of_findSome?_eq_some hfailure
      exact ih q hq (failure?_eq_some_iff.1 hfails)
    · rcases bind_eq_error_iff.1 h with hstep | ⟨value, -, h⟩
      · exact operate_ne_depthExceeded _ bound hstep
      · cases h

/-! ## Within the limit and beyond -/

/-- Within the limit the evaluation is the unlimited one. -/
theorem tryEvaluate_eq_evaluateUnbounded (h : p.depth ≤ limit) :
    p.tryEvaluate context limit = p.evaluateUnbounded context := by
  rw [depth_eq_height] at h
  exact evaluateNode_eq_evaluateUnbounded h

/-- Within the limit no evaluation fails with depth. -/
theorem tryEvaluate_ne_depthExceeded (h : p.depth ≤ limit) (context : Context) (bound : Nat) :
    p.tryEvaluate context limit ≠ .error (.depthExceeded bound) := by
  rw [tryEvaluate_eq_evaluateUnbounded h]
  exact evaluateUnbounded_ne_depthExceeded context p bound

/-- A visit without a failure is that of a node that has a value. -/
theorem Visit.failure?_eq_none_iff {visit : Visit} :
    visit.failure? context limit = none ↔
      ∃ q e, visit = .node q ∧ q.evaluateUnbounded context = .ok e := by
  cases visit with
  | node q => simp [failure?, AuditedRules.failure?_eq_none_iff]
  | refused => simp [failure?]

/-- With too few levels there is a first failure, be it that of a refusal or that of a node. -/
theorem exists_first_failure (context : Context) (limit : Nat) (h : levels < p.height) :
    ∃ before visit after e, visits levels p = before ++ visit :: after ∧
      (∀ v ∈ before, v.failure? context limit = none) ∧ visit.failure? context limit = some e ∧
        evaluateNode context limit levels p = .error e := by
  have hfailure := failure?_evaluateNode context limit levels p
  cases hfirst : (visits levels p).findSome? (Visit.failure? context limit) with
  | none =>
    have hrefused := List.findSome?_eq_none_iff.1 hfirst .refused (refused_mem_visits_iff.2 h)
    cases hrefused
  | some e =>
    rw [hfirst] at hfailure
    obtain ⟨before, visit, after, hsplit, hvisit, hbefore⟩ := List.findSome?_eq_some_iff.1 hfirst
    exact ⟨before, visit, after, e, hsplit, hbefore, hvisit, failure?_eq_some_iff.1 hfailure⟩

/-- What was read from text has no more levels than the limit. -/
theorem depth_le_of_ofText {text : String} (h : ofText limit text = .ok p) : p.depth ≤ limit := by
  obtain ⟨v, -, hv⟩ := exists_ofJson_of_ofText h
  exact (ofJson_eq_ok_iff.1 hv).2

/-- Within the limit the evaluation gives what it gives without a limit and never fails with depth.
Beyond the limit it fails for every context, with the first failure in the order of evaluation: in
front of it stand only nodes that have a value, and it is a refusal, which fails with the limit, or
a node that fails in the same way without a limit. What was read under the limit is within it. -/
theorem evaluate_under_limit (p : Predicate) (context : Context) (limit : Nat) :
    (p.depth ≤ limit → p.tryEvaluate context limit = p.evaluateUnbounded context ∧
      p.evaluate context limit = .ofEvaluated (p.evaluateUnbounded context) ∧
      ∀ bound, p.tryEvaluate context limit ≠ .error (.depthExceeded bound)) ∧
    (limit < p.depth → ∃ before visit after e, visits limit p = before ++ visit :: after ∧
      (∀ v ∈ before, ∃ q found, v = .node q ∧ q.evaluateUnbounded context = .ok found) ∧
      (visit = .refused ∧ e = .depthExceeded limit ∨
        ∃ q, visit = .node q ∧ q.evaluateUnbounded context = .error e) ∧
      p.tryEvaluate context limit = .error e ∧ (p.evaluate context limit).pass = false ∧
      (p.evaluate context limit).value = none ∧
      (p.evaluate context limit).error = some e.message) ∧
    (∀ v bound, ofJson limit v = .ok p →
      p.tryEvaluate context limit ≠ .error (.depthExceeded bound)) ∧
    ∀ text bound, ofText limit text = .ok p →
      p.tryEvaluate context limit ≠ .error (.depthExceeded bound) := by
  refine ⟨fun h => ?_, fun h => ?_, fun v bound h => ?_, fun text bound h => ?_⟩
  · have hwithin : p.tryEvaluate context limit = p.evaluateUnbounded context :=
      tryEvaluate_eq_evaluateUnbounded h
    refine ⟨hwithin, ?_, tryEvaluate_ne_depthExceeded h context⟩
    rw [evaluate, hwithin]
  · rw [depth_eq_height] at h
    obtain ⟨before, visit, after, e, hsplit, hbefore, hvisit, hfails⟩ :=
      exists_first_failure context limit h
    -- The first failure among the visits is what the evaluation fails with.
    have hresult : p.evaluate context limit = .failure e := by
      rw [evaluate, tryEvaluate, hfails]
      rfl
    refine ⟨before, visit, after, e, hsplit,
      fun v hv => Visit.failure?_eq_none_iff.1 (hbefore v hv), ?_, hfails, ?_⟩
    · cases visit with
      | refused => exact .inl ⟨rfl, (Option.some.inj hvisit).symm⟩
      | node q => exact .inr ⟨q, rfl, failure?_eq_some_iff.1 hvisit⟩
    · rw [hresult]
      exact ⟨rfl, rfl, rfl⟩
  · exact tryEvaluate_ne_depthExceeded (ofJson_eq_ok_iff.1 h).2 context bound
  · exact tryEvaluate_ne_depthExceeded (depth_le_of_ofText h) context bound

/-- A disjunction of four levels has its value within four. Within three its second operand is
refused although the first one decides, and a field that is missing before that is reported instead.
A constant that was read within one level, from its compact text, is not refused there. -/
theorem evaluate_under_limit_disjunction :
    let p (name : String) : Predicate :=
      .logical .or (.field name) (.not (.not (.const (.bool true))))
    let context : Context := .ofList [("urgent", .bool true)]
    let text := (toJson (.const (.bool true))).compact
    (p "urgent").evaluate context 4 = .ofEvaluated ((p "urgent").evaluateUnbounded context) ∧
      (p "urgent").tryEvaluate context 3 = .error (.depthExceeded 3) ∧
      ((p "urgent").evaluate context 3).pass = false ∧
      (p "late").tryEvaluate context 3 = .error (.missingField "late") ∧
      ofJson 4 (p "late").toJson = .ok (p "late") ∧
      (p "late").tryEvaluate context 4 ≠ .error (.depthExceeded 4) ∧
      ofText 1 text = .ok (.const (.bool true)) ∧
      tryEvaluate (.const (.bool true)) context 1 ≠ .error (.depthExceeded 1) := by
  intro p context text
  have hdepth (name : String) : (p name).depth = 4 := depth_eq_height (p name)
  have hread : ofJson 4 (p "late").toJson = .ok (p "late") :=
    ofJson_toJson_eq_ok_iff.2 ⟨rfl, ⟨trivial, trivial⟩, Nat.le_of_eq (hdepth "late")⟩
  have htext : ofText 1 text = .ok (.const (.bool true)) := by
    have hone : depth (.const (.bool true)) = 1 := depth_eq_height _
    have hfinite : ConstantsFinite (.const (.bool true)) := trivial
    rw [ofText_compact_toJson hfinite (by rw [hone]; decide)]
    exact ofJson_toJson_eq_ok_iff.2 ⟨rfl, hfinite, Nat.le_of_eq hone⟩
  obtain ⟨hwithin, -⟩ := evaluate_under_limit (p "urgent") context 4
  obtain ⟨-, hbeyond, -⟩ := evaluate_under_limit (p "urgent") context 3
  obtain ⟨-, -, hjson, -⟩ := evaluate_under_limit (p "late") context 4
  obtain ⟨-, -, -, htexts⟩ := evaluate_under_limit (.const (.bool true)) context 1
  have hlt : 3 < (p "urgent").depth := by
    rw [hdepth]
    decide
  obtain ⟨-, -, -, -, -, -, -, -, hpass, -⟩ := hbeyond hlt
  exact ⟨(hwithin (Nat.le_of_eq (hdepth "urgent"))).2.1, rfl, hpass, rfl, hread,
    hjson (p "late").toJson 4 hread, htext, htexts text 1 htext⟩

end AuditedRules.Predicate
