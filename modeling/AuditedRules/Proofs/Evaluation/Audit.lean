import AuditedRules.Proofs.Evaluation.Step

/-!
# What a trace says of an evaluation

The trace of an evaluation that succeeds is a complete account of it. It has an entry wherever the
predicate has a node and nowhere else, and the trace below an entry is the one that the node would
have given by itself. Each entry can be checked where it stands: its label, its value and its
outcome follow from the node and from the values of the entries right below it (`Justified`).

Nodes and entries are addressed by paths, lists of positions of operands from the root. A path is
followed one step at a time, in the predicate and in the trace together (`evaluateNode_at`): what is
found at its end are a node and an entry of an evaluation that succeeded on some number of levels,
so the entry is what one step of evaluation makes it, and the levels do not matter.
-/

namespace AuditedRules

/-! ## Paths -/

/-- The node at a path. -/
def Predicate.at? : List Nat → Predicate → Option Predicate
  | [], p => some p
  | position :: path, p => p.operands[position]?.bind fun operand => operand.at? path

/-- The entry at a path. -/
def Trace.at? : List Nat → Trace → Option Trace
  | [], t => some t
  | position :: path, t => t.children[position]?.bind fun child => child.at? path

/-! ## Counting -/

/-- The walk over a trace counts the entries on its stack. -/
theorem Trace.countOnto_eq (stack : List Trace) (count : Nat) :
    countOnto stack count = count + sizes stack := by
  fun_induction countOnto stack count with
  | case1 count => rfl
  | case2 count t rest ih =>
    rw [ih, sizes_append, sizes, size_eq]
    omega

/-- The walk counts every entry once. -/
theorem Trace.nodeCount_eq_size (t : Trace) : t.nodeCount = t.size := by
  rw [nodeCount, countOnto_eq, sizes, sizes]
  omega

/-! ## Single entries -/

/-- The entry of a node, with those of its operands below it, is what the node prescribes. -/
structure Justified (context : Context) (p : Predicate) (t : Trace) : Prop where
  /-- The label is that of the node. -/
  label : t.label = p.label
  /-- There is one entry for each operand. -/
  arity : t.children.length = p.operands.length
  /-- The value is what the node makes of the values below. -/
  value : p.operate context (t.children.map (·.value)) = .ok t.value
  /-- The entry of a node that decides something has its value as outcome. -/
  decision : p.isDecision = true → ∃ pass, t.value = .bool pass ∧ t.pass = some pass
  /-- The entry of any other node has no outcome. -/
  computed : p.isDecision = false → t.pass = none

namespace Predicate

variable {context : Context} {limit levels : Nat} {p : Predicate} {e : Evaluated}

/-- A node that decides something has a truth value. -/
theorem exists_bool_of_operate {values : List Value} {value : Value} (hp : p.isDecision = true)
    (h : p.operate context values = .ok value) : ∃ pass, value = .bool pass := by
  cases p with
  | const constant => cases hp
  | field name => cases hp
  | arithmetic op left right => cases hp
  | comparison op left right =>
    obtain ⟨pass, -, hvalue⟩ := map_eq_ok_iff.1 h
    exact ⟨pass, hvalue.symm⟩
  | logical op left right => exact ⟨_, (Except.ok.inj h).symm⟩
  | not operand => exact ⟨_, (Except.ok.inj h).symm⟩

/-- The entry that one step leaves is justified. -/
theorem justified_entry {values : List Value} {value : Value} {children : List Trace}
    (hchildren : children.map (·.value) = values) (harity : children.length = p.operands.length)
    (h : p.operate context values = .ok value) : Justified context p (p.entry value children) where
  label := rfl
  arity := harity
  value := by
    rw [← hchildren] at h
    exact h
  decision hp := by
    obtain ⟨pass, rfl⟩ := exists_bool_of_operate hp h
    refine ⟨pass, rfl, ?_⟩
    simp only [entry, outcome, hp]
  computed hp := by
    simp only [entry, outcome, hp]

/-! ## The whole trace -/

/-- The value of an evaluation is that of the first entry of its trace. -/
theorem value_trace (h : evaluateNode context limit levels p = .ok e) :
    e.trace.value = e.value := by
  cases levels with
  | zero => cases h
  | succ levels =>
    obtain ⟨operands, -, -, htrace⟩ := evaluateNode_succ_eq_ok_iff.1 h
    rw [htrace]
    rfl

/-- The operands of a node and the entries below its own correspond, position by position, and each
operand was evaluated to its entry. -/
theorem operand_at (h : evaluateNode context limit (levels + 1) p = .ok e) (position : Nat) :
    Option.Rel (fun q t => evaluateNode context limit levels q = .ok ⟨t.value, t⟩)
      p.operands[position]? e.trace.children[position]? := by
  obtain ⟨operands, hoperands, -, htrace⟩ := evaluateNode_succ_eq_ok_iff.1 h
  have hchildren : e.trace.children[position]? = operands[position]?.map (·.trace) := by
    rw [htrace]
    exact List.getElem?_map
  have hposition := congrArg (fun results => results[position]?) hoperands
  simp only [List.getElem?_map] at hposition
  rw [hchildren]
  -- At a position there are an operand and its result, or neither.
  cases hq : p.operands[position]? with
  | none =>
    rw [hq] at hposition
    cases ho : operands[position]? with
    | none => exact .none
    | some inner =>
      rw [ho] at hposition
      cases hposition
  | some q =>
    rw [hq] at hposition
    cases ho : operands[position]? with
    | none =>
      rw [ho] at hposition
      cases hposition
    | some inner =>
      rw [ho] at hposition
      have hinner : evaluateNode context limit levels q = .ok inner := Option.some.inj hposition
      have hvalue := value_trace hinner
      refine .some ?_
      rw [hinner, hvalue]

/-- The nodes of a predicate and the entries of its trace correspond, path by path, and each node
was evaluated to its entry. -/
theorem evaluateNode_at (h : evaluateNode context limit levels p = .ok e) (path : List Nat) :
    Option.Rel (fun q t => ∃ levels, evaluateNode context limit levels q = .ok ⟨t.value, t⟩)
      (p.at? path) (e.trace.at? path) := by
  induction path generalizing p e levels with
  | nil =>
    refine .some ⟨levels, ?_⟩
    rw [h, value_trace h]
  | cons position path ih =>
    cases levels with
    | zero => cases h
    | succ levels =>
      have hoperand := operand_at h position
      unfold at? Trace.at?
      generalize p.operands[position]? = operand at hoperand ⊢
      generalize e.trace.children[position]? = child at hoperand ⊢
      cases hoperand with
      | some hinner => exact ih hinner
      | none => exact .none

/-- The entry of an evaluation is justified. -/
theorem justified_trace (h : evaluateNode context limit levels p = .ok e) :
    Justified context p e.trace := by
  cases levels with
  | zero => cases h
  | succ levels =>
    obtain ⟨operands, hoperands, hvalue, htrace⟩ := evaluateNode_succ_eq_ok_iff.1 h
    have hlength := congrArg List.length hoperands
    rw [List.length_map, List.length_map] at hlength
    -- The entries of the operands start with the operands' values.
    have hvalues : (operands.map (·.trace)).map (·.value) = operands.map (·.value) := by
      rw [List.map_map]
      refine List.map_congr_left fun inner hinner => ?_
      obtain ⟨q, -, hq⟩ := exists_item_of_map_eq hoperands hinner
      exact value_trace hq
    rw [htrace]
    exact justified_entry hvalues (by rw [List.length_map, hlength]) hvalue

/-- An evaluation answers with a value exactly when it has one. -/
theorem evaluate_eq_success_iff :
    p.evaluate context limit = .success e ↔ evaluateNode context limit limit p = .ok e := by
  unfold evaluate tryEvaluate
  cases evaluateNode context limit limit p with
  | error fault =>
    -- The answer to a failure has a message, and the answer to a success has none.
    constructor
    · intro h
      cases congrArg EvalResult.error h
    · intro h
      cases h
  | ok found =>
    constructor
    · intro h
      have hvalue : some found.value = some e.value := congrArg EvalResult.value h
      have htrace : found.trace = e.trace := congrArg EvalResult.trace h
      rw [Option.some.injEq] at hvalue
      show Except.ok found = .ok e
      rw [Except.ok.injEq]
      calc found = ⟨found.value, found.trace⟩ := rfl
        _ = ⟨e.value, e.trace⟩ := by rw [hvalue, htrace]
    · intro h
      cases h
      rfl

end Predicate

end AuditedRules
