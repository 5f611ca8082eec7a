import AuditedRules.Proofs.Binary64.SignOfZero
import AuditedRules.Proofs.Evaluation.Step
import AuditedRules.Proofs.Predicate.RoundTrip
import AuditedRules.Proofs.Trace.TreeText

/-!
# Evaluation does not see the sign of zero

Two values are alike when they are the same but for the sign of a zero, that is, when they have the
same canonical value. Every operator gives alike results for alike operands and fails alike,
division too because it refuses zeros of either sign. So a predicate and the predicate with its
zeros taken as positive are evaluated alike, under contexts that are alike (`evaluateNode_alike`).

What is shown of a result, its JSON form and the text of its trace, is the same for alike values
(`EvalResult.ShowsSame`). So it is the same for both evaluations (`ofEvaluated_showsSame`).
-/

namespace AuditedRules

/-! ## Values -/

namespace Value

/-- Taking a zero as positive twice is taking it so once. -/
theorem canonical_canonical (value : Value) : value.canonical.canonical = value.canonical := by
  cases value with
  | number x => exact congrArg number x.canonical_canonical
  | _ => rfl

/-- The type does not show the sign of zero. -/
theorem type_canonical (value : Value) : value.canonical.type = value.type := by
  cases value <;> rfl

/-- The number of a value is taken as positive where the value is. -/
theorem number?_canonical (value : Value) :
    value.canonical.number? = value.number?.map Binary64.canonical := by
  cases value <;> rfl

/-- Both zeros stand for false. -/
theorem truthy_canonical (value : Value) : value.canonical.truthy = value.truthy := by
  cases value with
  | number x =>
    unfold canonical truthy
    rcases x.canonical_eq_or with hx | ⟨negative, rfl, hx⟩
    · dsimp only
      rw [hx]
    · dsimp only
      rw [hx]
      rfl
  | _ => rfl

/-- Alike values stand for the same truth. -/
theorem truthy_eq_of_canonical_eq {value value' : Value} (h : value.canonical = value'.canonical) :
    value.truthy = value'.truthy := by
  rw [← value.truthy_canonical, h, value'.truthy_canonical]

/-- Equality does not see the sign of zero. -/
theorem strictEq_canonical_canonical (left right : Value) :
    left.canonical.strictEq right.canonical = left.strictEq right := by
  cases left with
  | number x =>
    cases right with
    | number y => exact x.eq_canonical_canonical y
    | _ => rfl
  | _ => cases right <;> rfl

end Value

/-! ## Operators -/

/-- Two numbers are found in canonical values where they are in the values. -/
theorem bothNumbers_canonical (op : String) (left right : Value) :
    bothNumbers op left.canonical right.canonical =
      (bothNumbers op left right).map fun (x, y) => (x.canonical, y.canonical) := by
  unfold bothNumbers
  rw [Value.number?_canonical, Value.number?_canonical, Value.type_canonical, Value.type_canonical]
  cases left.number? with
  | none => rfl
  | some x => cases right.number? <;> rfl

/-- An arithmetic operator gives alike numbers for alike values. -/
theorem ArithmeticOp.apply_canonical (op : ArithmeticOp) (left right : Value) :
    (op.apply left.canonical right.canonical).map Binary64.canonical =
      (op.apply left right).map Binary64.canonical := by
  unfold apply
  rw [bothNumbers_canonical]
  cases bothNumbers op.name left right with
  | error e => rfl
  | ok operands =>
    obtain ⟨x, y⟩ := operands
    cases op with
    | add => exact congrArg Except.ok (x.add_canonical_canonical y)
    | sub => exact congrArg Except.ok (x.sub_canonical_canonical y)
    | mul => exact congrArg Except.ok (x.mul_canonical_canonical y)
    | div =>
      show (if y.canonical.isZero then _ else Except.ok (x.canonical.div y.canonical)).map _ =
        (if y.isZero then _ else Except.ok (x.div y)).map _
      rw [Binary64.isZero_canonical]
      cases hy : y.isZero with
      | true => rfl
      | false => exact congrArg Except.ok (x.div_canonical_canonical hy)

/-- A comparison has the same outcome for alike values. -/
theorem ComparisonOp.apply_canonical (op : ComparisonOp) (left right : Value) :
    op.apply left.canonical right.canonical = op.apply left right := by
  -- Both sides compare the numbers of the values, and fail alike without them.
  have horder : ∀ outcome : Binary64 → Binary64 → Bool,
      (∀ x y : Binary64, outcome x.canonical y.canonical = outcome x y) →
      (bothNumbers op.name left.canonical right.canonical >>= fun (x, y) =>
        .ok (outcome x y)) =
          (bothNumbers op.name left right >>= fun (x, y) => .ok (outcome x y)) := by
    intro outcome hsame
    rw [bothNumbers_canonical]
    cases bothNumbers op.name left right with
    | error e => rfl
    | ok operands => exact congrArg Except.ok (hsame operands.1 operands.2)
  cases op with
  | equal => exact congrArg Except.ok (Value.strictEq_canonical_canonical left right)
  | notEqual =>
    exact congrArg (fun same => Except.ok !same) (Value.strictEq_canonical_canonical left right)
  | greater => exact horder (fun x y => y.lt x) fun x y => y.lt_canonical_canonical x
  | less => exact horder Binary64.lt Binary64.lt_canonical_canonical
  | greaterOrEqual => exact horder (fun x y => y.le x) fun x y => y.le_canonical_canonical x
  | lessOrEqual => exact horder Binary64.le Binary64.le_canonical_canonical

/-! ## Traces -/

namespace Trace

mutual

/-- The trace with the zeros in it taken as positive. -/
def canonical : Trace → Trace
  | ⟨label, value, pass, children⟩ => ⟨label, value.canonical, pass, canonicals children⟩

/-- The traces with the zeros in them taken as positive. -/
def canonicals : List Trace → List Trace
  | [] => []
  | t :: rest => canonical t :: canonicals rest

end

/-- Each trace of a list is taken for itself. -/
theorem canonicals_eq_map (ts : List Trace) : canonicals ts = ts.map canonical := by
  induction ts with
  | nil => rfl
  | cons t rest ih => rw [canonicals, ih, List.map_cons]

mutual

/-- The JSON form does not show the sign of zero. -/
theorem toJson_canonical : ∀ t : Trace, t.canonical.toJson = t.toJson
  | ⟨label, value, pass, children⟩ => by
    rw [canonical, toJson, toJson, Value.toJson_canonical, toJsons_canonicals children]

/-- The JSON forms of a list do not show the sign of zero. -/
theorem toJsons_canonicals : ∀ ts : List Trace, toJsons (canonicals ts) = toJsons ts
  | [] => rfl
  | t :: rest => by
    rw [canonicals, toJsons, toJsons, toJson_canonical t, toJsons_canonicals rest]

end

/-- The line of an entry does not show the sign of zero. -/
theorem line_canonical (t : Trace) (level : Nat) : t.canonical.line level = t.line level := by
  obtain ⟨label, value, pass, children⟩ := t
  have hvalue : valueText value.canonical = valueText value := by
    cases value with
    | number x => exact congrArg String.toList x.display_canonical
    | _ => rfl
  unfold line
  rw [canonical, hvalue]

/-- The lines of the entries on a stack do not show the sign of zero. -/
theorem linesOnto_canonical (stack : List (Trace × Nat)) (written : List (List Char)) :
    linesOnto (stack.map fun (t, level) => (t.canonical, level)) written =
      linesOnto stack written := by
  fun_induction linesOnto stack written with
  | case1 written => rw [List.map_nil, linesOnto]
  | case2 written t level rest ih =>
    have hchildren : t.canonical.children = t.children.map canonical := by
      obtain ⟨label, value, pass, children⟩ := t
      exact canonicals_eq_map children
    rw [map_attach_children, List.map_append, List.map_map] at ih
    rw [List.map_cons, linesOnto, line_canonical, hchildren, List.map_map]
    exact ih

/-- The text of a trace does not show the sign of zero. -/
theorem renderTree_canonical (t : Trace) : t.canonical.renderTree = t.renderTree := by
  unfold renderTree treeText
  exact congrArg (fun lines => String.ofList lines.flatten) (linesOnto_canonical [(t, 0)] [])

end Trace

/-! ## Nodes -/

/-- The value and the trace with the zeros in them taken as positive. -/
def Evaluated.canonical (e : Evaluated) : Evaluated :=
  ⟨e.value.canonical, e.trace.canonical⟩

/-- Two contexts define the same names, with alike values. -/
def Context.Alike (context context' : Context) : Prop :=
  ∀ name, (context.get? name).map Value.canonical = (context'.get? name).map Value.canonical

/-- A context is like itself. -/
theorem Context.Alike.refl (context : Context) : context.Alike context := fun _ => rfl

namespace Predicate

/-- Taking zeros as positive changes no operand but for its zeros. -/
theorem operands_canonical (p : Predicate) : p.canonical.operands = p.operands.map canonical := by
  cases p <;> rfl

/-- The entry of a node does not show the signs of zeros below it. -/
theorem entry_of_canonical (p : Predicate) (value : Value) (children : List Trace) :
    p.canonical.entry value children = p.entry value children := by
  cases p <;> rfl

/-- The entry of a node is canonical when its value and the entries of its operands are. -/
theorem canonical_entry (p : Predicate) (value : Value) (children : List Trace) :
    (p.entry value children).canonical =
      p.entry value.canonical (children.map Trace.canonical) := by
  have houtcome : p.outcome value.canonical = p.outcome value := by
    cases value with
    | number x => cases p <;> rfl
    | _ => rfl
  unfold entry
  rw [Trace.canonical, Trace.canonicals_eq_map, houtcome]

/-- A node that is done is canonical when what its step gives and the entries of its operands
are. -/
theorem map_canonical_entry (p : Predicate) (step : Except EvalError Value)
    (children : List Trace) :
    (step >>= fun value => .ok ⟨value, p.entry value children⟩).map Evaluated.canonical =
      (step.map Value.canonical).map fun value =>
        ⟨value, p.entry value (children.map Trace.canonical)⟩ := by
  cases step with
  | error e => rfl
  | ok value =>
    exact congrArg (fun t => Except.ok (Evaluated.mk _ t)) (p.canonical_entry value children)

/-- The step of a node gives alike values for alike values of its operands. -/
theorem operate_alike {context context' : Context} (hcontext : context.Alike context')
    (p : Predicate) {values values' : List Value}
    (hvalues : values.map Value.canonical = values'.map Value.canonical) :
    (p.operate context values).map Value.canonical =
      (p.canonical.operate context' values').map Value.canonical := by
  -- A step looks its operands up by position, so it is enough that each is alike.
  have hoperand : ∀ i, (values.getD i default).canonical = (values'.getD i default).canonical := by
    intro i
    have hi := congrArg (fun canonicals => canonicals[i]?.getD (default : Value).canonical) hvalues
    simpa [Option.getD_map] using hi
  unfold operate
  have hleft := hoperand 0
  have hright := hoperand 1
  generalize values.getD 0 default = left, values'.getD 0 default = left' at hleft
  generalize values.getD 1 default = right, values'.getD 1 default = right' at hright
  cases p with
  | const value => exact congrArg Except.ok value.canonical_canonical.symm
  | field name =>
    have hname := hcontext name
    dsimp only [canonical]
    cases hvalue : context.get? name with
    | none =>
      rw [hvalue] at hname
      rw [Option.map_eq_none_iff.1 hname.symm]
    | some value =>
      rw [hvalue] at hname
      obtain ⟨value', hvalue', hsame⟩ := Option.map_eq_some_iff.1 hname.symm
      rw [hvalue']
      exact congrArg Except.ok hsame.symm
  | arithmetic op _ _ =>
    have hnumber : ∀ x : Except EvalError Binary64, (x.map Value.number).map Value.canonical =
        (x.map Binary64.canonical).map Value.number := by
      intro x
      cases x <;> rfl
    show ((op.apply left right).map _).map _ = ((op.apply left' right').map _).map _
    rw [hnumber, hnumber, ← op.apply_canonical left right, hleft, hright, op.apply_canonical]
  | comparison op _ _ =>
    show ((op.apply left right).map _).map _ = ((op.apply left' right').map _).map _
    rw [← op.apply_canonical left right, hleft, hright, op.apply_canonical]
  | logical op _ _ =>
    show Except.ok (Value.bool (op.apply left.truthy right.truthy)) =
      Except.ok (Value.bool (op.apply left'.truthy right'.truthy))
    rw [Value.truthy_eq_of_canonical_eq hleft, Value.truthy_eq_of_canonical_eq hright]
  | not operand =>
    exact congrArg (fun truth => Except.ok (Value.bool !truth))
      (Value.truthy_eq_of_canonical_eq hleft)

/-- A predicate and the predicate with its zeros positive are evaluated alike under alike contexts:
both fail with the same error, or both have a value and a trace that differ in the sign of zeros
only. -/
theorem evaluateNode_alike {context context' : Context} (hcontext : context.Alike context')
    (limit levels : Nat) (p : Predicate) :
    (evaluateNode context limit levels p).map Evaluated.canonical =
      (evaluateNode context' limit levels p.canonical).map Evaluated.canonical := by
  induction p using operands_induction generalizing levels with
  | node p ih =>
    cases levels with
    | zero => rfl
    | succ levels =>
      have hoperands : (p.operands.mapM (evaluateNode context limit levels)).map
          (List.map Evaluated.canonical) =
            (p.canonical.operands.mapM (evaluateNode context' limit levels)).map
              (List.map Evaluated.canonical) := by
        rw [operands_canonical]
        exact mapM_map_eq fun q hq => ih q hq levels
      rw [evaluateNode_succ, evaluateNode_succ]
      cases hes : p.operands.mapM (evaluateNode context limit levels) with
      | error e =>
        rw [hes] at hoperands
        rw [map_eq_error_iff.1 hoperands.symm]
        rfl
      | ok es =>
        rw [hes] at hoperands
        obtain ⟨es', hes', halike⟩ := map_eq_ok_iff.1 hoperands.symm
        rw [hes']
        -- The operands are alike in their values and in their traces.
        have hvalues : (es.map (·.value)).map Value.canonical =
            (es'.map (·.value)).map Value.canonical := by
          have h := congrArg (List.map (·.value)) halike.symm
          simpa [Evaluated.canonical, Function.comp_def] using h
        have htraces : (es.map (·.trace)).map Trace.canonical =
            (es'.map (·.trace)).map Trace.canonical := by
          have h := congrArg (List.map (·.trace)) halike.symm
          simpa [Evaluated.canonical, Function.comp_def] using h
        -- So the step of the node fails alike, or its entry is alike.
        simp only [entry_of_canonical]
        show (p.operate context (es.map (·.value)) >>= _).map _ =
          (p.canonical.operate context' (es'.map (·.value)) >>= _).map _
        rw [p.map_canonical_entry, p.map_canonical_entry, operate_alike hcontext p hvalues,
          htraces]

end Predicate

/-! ## Results -/

namespace EvalResult

/-- Two results show the same: they have the same JSON form and the same text of their traces. -/
structure ShowsSame (r r' : EvalResult) : Prop where
  /-- The JSON forms are equal. -/
  json : r.toJson = r'.toJson
  /-- The texts of the traces are equal. -/
  tree : r.trace.renderTree = r'.trace.renderTree

/-- A result shows what it shows. -/
theorem ShowsSame.refl (r : EvalResult) : r.ShowsSame r := ⟨rfl, rfl⟩

/-- Showing the same goes both ways. -/
theorem ShowsSame.symm {r r' : EvalResult} (h : r.ShowsSame r') : r'.ShowsSame r :=
  ⟨h.json.symm, h.tree.symm⟩

/-- Results that show the same as a third one show the same. -/
theorem ShowsSame.trans {r r' r'' : EvalResult} (h : r.ShowsSame r') (h' : r'.ShowsSame r'') :
    r.ShowsSame r'' :=
  ⟨h.json.trans h'.json, h.tree.trans h'.tree⟩

/-- A result does not show the signs of zeros. -/
theorem success_canonical_showsSame (e : Evaluated) :
    (success e.canonical).ShowsSame (success e) := by
  refine ⟨?_, e.trace.renderTree_canonical⟩
  show Json.object ([("pass", .bool e.value.canonical.truthy),
    ("value", .ofOption (some e.value.canonical.toJson)),
    ("trace", e.trace.canonical.toJson)] ++ []) = (success e).toJson
  rw [Value.truthy_canonical, Value.toJson_canonical, Trace.toJson_canonical]
  rfl

/-- Evaluations that are alike but for the signs of zeros show the same. -/
theorem ofEvaluated_showsSame {step step' : Except EvalError Evaluated}
    (h : step.map Evaluated.canonical = step'.map Evaluated.canonical) :
    (ofEvaluated step).ShowsSame (ofEvaluated step') := by
  cases step with
  | error e =>
    rw [map_eq_error_iff.1 h.symm]
    exact .refl _
  | ok e =>
    obtain ⟨e', rfl, he⟩ := map_eq_ok_iff.1 h.symm
    have hright := success_canonical_showsSame e'
    rw [he] at hright
    exact (success_canonical_showsSame e).symm.trans hright

end EvalResult

/-- A predicate and the predicate with its zeros positive give results that show the same, under
contexts that are alike. -/
theorem Predicate.evaluate_canonical_showsSame {context context' : Context}
    (hcontext : context.Alike context') (p : Predicate) (limit : Nat) :
    (p.evaluate context limit).ShowsSame (p.canonical.evaluate context' limit) :=
  EvalResult.ofEvaluated_showsSame (evaluateNode_alike hcontext limit limit p)

end AuditedRules
