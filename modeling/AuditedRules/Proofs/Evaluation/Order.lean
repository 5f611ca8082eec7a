import AuditedRules.Proofs.Evaluation.Step

/-!
# Evaluation without a limit, and the order of evaluation

`evaluateUnbounded` is the evaluator without a limit on levels. Where a tree fits into the levels
that are left, the limited evaluator does the same (`evaluateNode_eq_evaluateUnbounded`).

Elsewhere the limited evaluator does the same up to some point. `visits` lists what it comes to on
some levels, from left to right and operands before their node: the nodes that have a level left,
and in place of each tree that has none a refusal. The limited evaluation fails with the first
failure in this list (`failure?_evaluateNode`), where a refusal fails with the limit and a node with
what its own unlimited evaluation fails with. The first node of the list that fails does so in its
own step, since its operands stand before it.
-/

namespace AuditedRules.Predicate

variable {context : Context} {limit levels : Nat} {p : Predicate}

/-! ## Without a limit -/

/-- The value and the trace of a node of any number of levels. -/
def evaluateUnbounded (context : Context) : Predicate → Except EvalError Evaluated
  | .const value => .ok ⟨value, .leaf "const" value⟩
  | .field name => match context.get? name with
    | some value => .ok ⟨value, .leaf ("field: " ++ name) value⟩
    | none => .error (.missingField name)
  | .arithmetic op left right => do
    let l ← left.evaluateUnbounded context
    let r ← right.evaluateUnbounded context
    let x ← op.apply l.value r.value
    .ok ⟨.number x, .computed (op.name ++ " (arithmetic)") (.number x) [l.trace, r.trace]⟩
  | .comparison op left right => do
    let l ← left.evaluateUnbounded context
    let r ← right.evaluateUnbounded context
    let pass ← op.apply l.value r.value
    .ok (.decision (op.symbol ++ " (comparison)") pass [l.trace, r.trace])
  | .logical op left right => do
    let l ← left.evaluateUnbounded context
    let r ← right.evaluateUnbounded context
    .ok (.decision (op.name ++ " (logical)") (op.apply l.value.truthy r.value.truthy)
      [l.trace, r.trace])
  | .not operand => do
    let inner ← operand.evaluateUnbounded context
    .ok (.decision "not (logical)" (!inner.value.truthy) [inner.trace])

/-- With enough levels the limited evaluator does the same. -/
theorem evaluateNode_eq_evaluateUnbounded (h : p.height ≤ levels) :
    evaluateNode context limit levels p = p.evaluateUnbounded context := by
  induction p generalizing levels with
  | const value =>
    obtain ⟨levels, rfl⟩ := Nat.exists_eq_add_of_le' h
    rfl
  | field name =>
    obtain ⟨levels, rfl⟩ := Nat.exists_eq_add_of_le' h
    rfl
  | arithmetic op left right ihl ihr =>
    obtain ⟨levels, rfl⟩ := Nat.exists_eq_add_of_le' (Nat.le_trans (Nat.le_add_left 1 _) h)
    have hheights := Nat.max_le.1 (Nat.le_of_add_le_add_right h)
    rw [evaluateNode, evaluateUnbounded, ihl hheights.1, ihr hheights.2]
  | comparison op left right ihl ihr =>
    obtain ⟨levels, rfl⟩ := Nat.exists_eq_add_of_le' (Nat.le_trans (Nat.le_add_left 1 _) h)
    have hheights := Nat.max_le.1 (Nat.le_of_add_le_add_right h)
    rw [evaluateNode, evaluateUnbounded, ihl hheights.1, ihr hheights.2]
  | logical op left right ihl ihr =>
    obtain ⟨levels, rfl⟩ := Nat.exists_eq_add_of_le' (Nat.le_trans (Nat.le_add_left 1 _) h)
    have hheights := Nat.max_le.1 (Nat.le_of_add_le_add_right h)
    rw [evaluateNode, evaluateUnbounded, ihl hheights.1, ihr hheights.2]
  | not operand ih =>
    obtain ⟨levels, rfl⟩ := Nat.exists_eq_add_of_le' (Nat.le_trans (Nat.le_add_left 1 _) h)
    rw [evaluateNode, evaluateUnbounded, ih (Nat.le_of_add_le_add_right h)]

/-- Each operand has fewer levels than its node. -/
theorem height_lt_of_mem_operands {q : Predicate} (hq : q ∈ p.operands) : q.height < p.height := by
  obtain ⟨below, hbelow, hfits⟩ := exists_levels (Nat.le_refl p.height)
  have hq := hfits q hq
  omega

/-- Without a limit a node takes its own step after its operands, from left to right. -/
theorem evaluateUnbounded_eq (context : Context) (p : Predicate) :
    p.evaluateUnbounded context = (do
      let operands ← p.operands.mapM (evaluateUnbounded context)
      let value ← p.operate context (operands.map (·.value))
      .ok ⟨value, p.entry value (operands.map (·.trace))⟩) := by
  -- Any limit and any number of levels will do that are enough for the node.
  have hoperands : ∀ q ∈ p.operands,
      evaluateNode context 0 p.height q = q.evaluateUnbounded context :=
    fun q hq => evaluateNode_eq_evaluateUnbounded (Nat.le_of_lt (height_lt_of_mem_operands hq))
  have hnode : evaluateNode context 0 (p.height + 1) p = p.evaluateUnbounded context :=
    evaluateNode_eq_evaluateUnbounded (Nat.le_succ p.height)
  rw [← hnode, evaluateNode_succ, mapM_congr hoperands]

/-! ## The order of evaluation -/

/-- What an evaluation comes to. -/
inductive Visit
  /-- A node that has a level left, after its operands. -/
  | node (p : Predicate)
  /-- A tree that has no level left. -/
  | refused

/-- What an evaluation on some levels comes to, in its order. -/
def visits : Nat → Predicate → List Visit
  | 0, _ => [.refused]
  | levels + 1, p => p.operands.flatMap (visits levels) ++ [.node p]

/-- The failure of a visit under a limit, if it fails. -/
def Visit.failure? (context : Context) (limit : Nat) : Visit → Option EvalError
  | .node p => AuditedRules.failure? (p.evaluateUnbounded context)
  | .refused => some (.depthExceeded limit)

/-- A tree is refused somewhere exactly when there are too few levels. -/
theorem refused_mem_visits_iff : .refused ∈ visits levels p ↔ levels < p.height := by
  induction p using operands_induction generalizing levels with
  | node p ih =>
    cases levels with
    | zero => simp [visits, p.height_pos]
    | succ levels =>
      rw [← Nat.not_le, height_le_succ_iff, visits, List.mem_append, List.mem_flatMap]
      constructor
      · rintro (⟨q, hq, hrefused⟩ | hnode)
        · intro hheights
          exact Nat.not_lt.2 (hheights q hq) ((ih q hq).1 hrefused)
        · cases List.mem_singleton.1 hnode
      · intro hheights
        simp only [Classical.not_forall, Nat.not_le] at hheights
        obtain ⟨q, hq, hlt⟩ := hheights
        exact .inl ⟨q, hq, (ih q hq).2 hlt⟩

/-- An evaluation fails with the first failure among what it comes to. -/
theorem failure?_evaluateNode (context : Context) (limit levels : Nat) (p : Predicate) :
    failure? (evaluateNode context limit levels p) =
      (visits levels p).findSome? (Visit.failure? context limit) := by
  induction p using operands_induction generalizing levels with
  | node p ih =>
    cases levels with
    | zero => rfl
    | succ levels =>
      -- The operands fail with the first failure among what all of them come to.
      have hoperands : failure? (p.operands.mapM (evaluateNode context limit levels)) =
          (p.operands.flatMap (visits levels)).findSome? (Visit.failure? context limit) := by
        rw [failure?_mapM, findSome?_flatMap fun q hq => ih q hq levels]
      rw [visits, List.findSome?_append, ← hoperands, evaluateNode_succ]
      cases hmapM : p.operands.mapM (evaluateNode context limit levels) with
      | error e => rfl
      | ok operands =>
        -- They had enough levels, so the node goes on as it does without a limit.
        have hunbounded : p.operands.mapM (evaluateUnbounded context) = .ok operands := by
          rw [mapM_eq_ok_iff] at hmapM ⊢
          rw [← hmapM]
          refine List.map_congr_left fun q hq => ?_
          obtain ⟨inner, -, hinner⟩ := exists_result_of_map_eq hmapM hq
          exact (evaluateNode_eq_evaluateUnbounded (height_le_of_evaluateNode hinner)).symm
        have hnode := evaluateUnbounded_eq context p
        rw [hunbounded] at hnode
        rw [← hnode, failure?, Option.none_or, List.findSome?_singleton, Visit.failure?]

end AuditedRules.Predicate
