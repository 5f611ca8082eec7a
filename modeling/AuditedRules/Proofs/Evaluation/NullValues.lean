import AuditedRules.Proofs.Binary64.Overflow
import AuditedRules.Proofs.Context
import AuditedRules.Proofs.Evaluation.FirstFailure
import AuditedRules.Proofs.Evaluation.Meaning
import AuditedRules.Proofs.Evaluation.Records

/-!
# Null as a value

A result without a value, that of a failure, is written with null in its place. A number that is
not finite is written as null, too, and such numbers come out of arithmetic on finite ones: a
division by zero fails, but an operator whose exact result is too large gives an infinity
(`Overflows`).

Texts and contexts have finite numbers only, so overflow is the only source of such numbers. Without
one every value in the trace is finite, by induction on the predicate. The entry of a node that
overflows is infinite. So null in the JSON form of a result stands for failure, and for nothing
else, exactly when the evaluation fails or no node overflows (`nullMeansFailure_toJson_iff`).
-/

namespace AuditedRules

/-! ## Null in JSON forms -/

/-- The entry at a path below an entry of a trace, both as they are written. -/
def Json.entryAt? : List Nat → Json → Option Json
  | [], entry => some entry
  | position :: path, entry => match entry.get? "children" with
    | some (.array items) => items[position]?.bind fun item => item.entryAt? path
    | _ => none

/-- In a result as it is written null is the value of a failure, and of nothing else. -/
structure NullMeansFailure (result : Json) : Prop where
  /-- The value is null exactly when there is an error. -/
  value : result.get? "value" = some .null ↔ (result.get? "error").isSome = true
  /-- There is a trace without null as a value. -/
  trace : ∃ trace, result.get? "trace" = some trace ∧
    ∀ path entry, trace.entryAt? path = some entry → entry.get? "value" ≠ some .null

namespace Trace

/-- The value of an entry as it is written. -/
theorem get?_value_toJson (t : Trace) : t.toJson.get? "value" = some t.value.toJson := by
  obtain ⟨label, value, pass, children⟩ := t
  rw [toJson]
  rfl

/-- The entries below as they are written. -/
theorem get?_children_toJson (t : Trace) :
    t.toJson.get? "children" = some (.array (t.children.map toJson)) := by
  obtain ⟨label, value, pass, children⟩ := t
  rw [toJson, toJsons_eq_map]
  cases pass <;> rfl

/-- The entry at a path is written at that path. -/
theorem entryAt?_toJson (path : List Nat) (t : Trace) :
    t.toJson.entryAt? path = (t.at? path).map toJson := by
  induction path generalizing t with
  | nil => rfl
  | cons position path ih =>
    rw [Json.entryAt?, get?_children_toJson, at?]
    dsimp only
    rw [List.getElem?_map]
    cases t.children[position]? with
    | none => rfl
    | some child => exact ih child

end Trace

namespace EvalResult

/-- The value of a result as it is written. -/
theorem get?_value_toJson (r : EvalResult) :
    r.toJson.get? "value" = some (.ofOption (r.value.map Value.toJson)) := rfl

/-- The trace of a result as it is written. -/
theorem get?_trace_toJson (r : EvalResult) : r.toJson.get? "trace" = some r.trace.toJson := rfl

/-- The error of a result as it is written. -/
theorem get?_error_toJson (r : EvalResult) :
    r.toJson.get? "error" = r.error.map Json.string := by
  obtain ⟨pass, value, trace, error⟩ := r
  cases error <;> rfl

/-- In a result that has only an error to tell null means failure. -/
theorem nullMeansFailure_error (label text message : String) :
    NullMeansFailure (toJson ⟨false, none, .leaf label (.string text), some message⟩) where
  value := iff_of_true rfl rfl
  trace := by
    refine ⟨_, get?_trace_toJson _, fun path entry hentry => ?_⟩
    rw [Trace.entryAt?_toJson] at hentry
    cases path with
    | nil =>
      cases hentry
      exact fun hnull => Json.noConfusion (Option.some.inj hnull)
    | cons position path => cases hentry

/-- In a result with a value null means failure when the trace has finite values only. -/
theorem nullMeansFailure_success_iff {e : Evaluated} (hvalue : e.trace.value = e.value) :
    NullMeansFailure (success e).toJson ↔
      ∀ path t, e.trace.at? path = some t → t.value.Finite := by
  constructor
  · rintro ⟨-, trace, htrace, hentries⟩ path t ht
    rw [get?_trace_toJson, Option.some.injEq] at htrace
    have hentry : trace.entryAt? path = some t.toJson := by
      rw [← htrace, Trace.entryAt?_toJson]
      exact congrArg (Option.map Trace.toJson) ht
    have hnull := hentries path t.toJson hentry
    rw [Trace.get?_value_toJson, Ne, Option.some.injEq, Value.toJson_eq_null_iff] at hnull
    exact Classical.not_not.1 hnull
  · intro hfinite
    refine ⟨?_, _, get?_trace_toJson _, fun path entry hentry => ?_⟩
    · -- The first entry has the value of the result.
      have hroot := hfinite [] e.trace rfl
      rw [hvalue] at hroot
      rw [get?_value_toJson, get?_error_toJson]
      refine iff_of_false (fun hnull => ?_) Bool.false_ne_true
      exact Value.toJson_eq_null_iff.1 (Option.some.inj hnull) hroot
    · rw [Trace.entryAt?_toJson] at hentry
      obtain ⟨t, ht, rfl⟩ := Option.map_eq_some_iff.1 hentry
      rw [Trace.get?_value_toJson]
      exact fun hnull => Value.toJson_eq_null_iff.1 (Option.some.inj hnull) (hfinite path t ht)

end EvalResult

/-! ## Overflow -/

/-- The operands are finite and the exact result is rounded to an infinity. -/
def ArithmeticOp.Overflows (op : ArithmeticOp) : Binary64 → Binary64 → Prop
  | .finite s u _, .finite t v _ => match op with
    | .add =>
      overflowThreshold ≤ (Binary64.signedUnits s u + Binary64.signedUnits t v).natAbs
    | .sub =>
      overflowThreshold ≤ (Binary64.signedUnits s u - Binary64.signedUnits t v).natAbs
    | .mul => overflowThreshold * unitsPerOne ≤ u * v
    | .div => v ≠ 0 ∧ overflowThreshold * v ≤ u * unitsPerOne
  | _, _ => False

/-- A result of finite operands that is not finite is that of an overflow. -/
theorem ArithmeticOp.overflows_iff {op : ArithmeticOp} {x y : Binary64} :
    op.Overflows x y ↔ x.isFinite = true ∧ y.isFinite = true ∧
      ∃ z, op.number? x y = some z ∧ z.isFinite = false := by
  cases x with
  | nan => exact iff_of_false id fun h => Bool.false_ne_true h.1
  | infinity negative => exact iff_of_false id fun h => Bool.false_ne_true h.1
  | finite s u hu =>
    cases y with
    | nan => exact iff_of_false id fun h => Bool.false_ne_true h.2.1
    | infinity negative => exact iff_of_false id fun h => Bool.false_ne_true h.2.1
    | finite t v hv =>
      -- Of finite numbers, an operator overflows when its rounded result is not finite.
      have hresult (z : Binary64) : (∃ w, some z = some w ∧ w.isFinite = false) ↔
          ¬ z.isFinite = true := by simp
      show _ ↔ true = true ∧ true = true ∧ _
      rw [eq_self_iff_true, true_and, true_and]
      unfold Overflows number?
      cases op with
      | add =>
        dsimp only
        rw [hresult, Binary64.isFinite_add_iff, Nat.not_lt]
      | sub =>
        dsimp only
        rw [hresult, Binary64.isFinite_sub_iff, Nat.not_lt]
      | mul =>
        dsimp only
        rw [hresult, Binary64.isFinite_mul_iff, Nat.not_lt]
      | div =>
        by_cases hzero : v = 0
        · -- There is no quotient.
          subst hzero
          exact iff_of_false (fun h => h.1 rfl) fun h => by
            obtain ⟨z, hz, -⟩ := h
            cases hz
        · dsimp only
          have hdivisor : (Binary64.finite t v hv).isZero = false := beq_eq_false_iff_ne.2 hzero
          rw [hdivisor, if_neg Bool.false_ne_true, hresult, Binary64.isFinite_div_iff hzero,
            Nat.not_lt]
          exact and_iff_right hzero

namespace Predicate

variable {context : Context} {p q : Predicate}

/-- The node is an operator on numbers that overflows on the values of its operands. -/
def Overflows (context : Context) : Predicate → Prop
  | .arithmetic op left right => ∃ x y, left.value? context = some (.number x) ∧
      right.value? context = some (.number y) ∧ op.Overflows x y
  | _ => False

/-- The value of a node that overflows is not finite. -/
theorem Overflows.exists_value (h : p.Overflows context) :
    ∃ value, p.value? context = some value ∧ ¬ value.Finite := by
  cases p with
  | arithmetic op left right =>
    obtain ⟨x, y, hx, hy, hoverflow⟩ := h
    obtain ⟨-, -, z, hz, hinfinite⟩ := ArithmeticOp.overflows_iff.1 hoverflow
    refine ⟨.number z, ?_, fun hfinite => Bool.false_ne_true (hinfinite.symm.trans hfinite)⟩
    rw [value?, hx, hy]
    exact congrArg (Option.map Value.number) hz
  | _ => cases h

/-- Without an overflow the value of a predicate is finite, if its constants and the fields are. -/
theorem finite_of_value? (hcontext : ∀ name value, context.get? name = some value → value.Finite)
    (hconstants : p.ConstantsFinite)
    (hoverflow : ∀ path q, p.at? path = some q → ¬ q.Overflows context) {value : Value}
    (hvalue : p.value? context = some value) : value.Finite := by
  induction p generalizing value with
  | const constant =>
    cases hvalue
    exact hconstants
  | field name => exact hcontext name value hvalue
  | arithmetic op left right ihl ihr =>
    unfold value? at hvalue
    split at hvalue
    · rename_i x y hx hy
      obtain ⟨z, hz, rfl⟩ := Option.map_eq_some_iff.1 hvalue
      have hleft : x.isFinite = true := ihl hconstants.1 (fun path => hoverflow (0 :: path)) hx
      have hright : y.isFinite = true := ihr hconstants.2 (fun path => hoverflow (1 :: path)) hy
      -- An infinite result of finite operands would be an overflow of this very node.
      refine Classical.byContradiction fun hinfinite => ?_
      exact hoverflow [] _ rfl ⟨x, y, hx, hy, ArithmeticOp.overflows_iff.2
        ⟨hleft, hright, z, hz, Bool.eq_false_of_not_eq_true hinfinite⟩⟩
    · cases hvalue
  | comparison op left right =>
    unfold value? at hvalue
    split at hvalue
    · obtain ⟨b, -, rfl⟩ := Option.map_eq_some_iff.1 hvalue
      trivial
    · cases hvalue
  | logical op left right =>
    unfold value? at hvalue
    split at hvalue
    · cases hvalue
      trivial
    · cases hvalue
  | not operand =>
    obtain ⟨inner, -, rfl⟩ := Option.map_eq_some_iff.1 hvalue
    trivial

/-! ## Evaluations -/

/-- What operands take over from a node is true of the nodes at all paths. -/
theorem at?_induction {holds : Predicate → Prop}
    (hoperands : ∀ p, holds p → ∀ q ∈ p.operands, holds q) (h : holds p) {path : List Nat}
    (hq : p.at? path = some q) : holds q := by
  induction path generalizing p with
  | nil =>
    cases hq
    exact h
  | cons position path ih =>
    obtain ⟨operand, hoperand, hq⟩ := Option.bind_eq_some_iff.1 hq
    exact ih (hoperands p h operand (List.mem_of_getElem? hoperand)) hq

/-- The constants of operands are constants of the node. -/
theorem ConstantsFinite.operands (h : p.ConstantsFinite) :
    ∀ q ∈ p.operands, q.ConstantsFinite := by
  cases p with
  | const value => exact fun q hq => absurd hq List.not_mem_nil
  | field name => exact fun q hq => absurd hq List.not_mem_nil
  | arithmetic op left right =>
    exact List.forall_mem_cons.2 ⟨h.1, List.forall_mem_singleton.2 h.2⟩
  | comparison op left right =>
    exact List.forall_mem_cons.2 ⟨h.1, List.forall_mem_singleton.2 h.2⟩
  | logical op left right =>
    exact List.forall_mem_cons.2 ⟨h.1, List.forall_mem_singleton.2 h.2⟩
  | not operand => exact List.forall_mem_singleton.2 h

/-- What is true of all nodes below a node is true of all nodes below its operands. -/
theorem forall_at?_operands {holds : Predicate → Prop}
    (h : ∀ path q, p.at? path = some q → holds q) :
    ∀ operand ∈ p.operands, ∀ path q, operand.at? path = some q → holds q := by
  intro operand hoperand path q hq
  obtain ⟨position, hposition⟩ := List.getElem?_of_mem hoperand
  refine h (position :: path) q ?_
  rw [at?, hposition]
  exact hq

/-- The entry at a path has the value of the node there. -/
theorem value?_at {limit levels : Nat} {e : Evaluated}
    (h : evaluateNode context limit levels p = .ok e) (path : List Nat) :
    Option.Rel (fun q t => q.value? context = some t.value) (p.at? path) (e.trace.at? path) := by
  have hpath := evaluateNode_at h path
  generalize p.at? path = node at hpath ⊢
  generalize e.trace.at? path = entry at hpath ⊢
  cases hpath with
  | none => exact .none
  | some hnode =>
    obtain ⟨levels, hnode⟩ := hnode
    rw [evaluateNode_eq_evaluateUnbounded (height_le_of_evaluateNode hnode)] at hnode
    exact .some (value?_eq_some_iff.2 ⟨_, hnode⟩)

/-- An evaluation that succeeds has finite values only when no node overflows. -/
theorem finite_trace_iff (hcontext : ∀ name value, context.get? name = some value → value.Finite)
    (hconstants : p.ConstantsFinite) {limit levels : Nat} {e : Evaluated}
    (h : evaluateNode context limit levels p = .ok e) :
    (∀ path t, e.trace.at? path = some t → t.value.Finite) ↔
      ∀ path q, p.at? path = some q → ¬ q.Overflows context := by
  constructor
  · intro hfinite path q hq hoverflow
    have hvalue := value?_at h path
    rw [hq] at hvalue
    cases ht : e.trace.at? path with
    | none =>
      rw [ht] at hvalue
      cases hvalue
    | some t =>
      rw [ht, Option.rel_some_some] at hvalue
      obtain ⟨value, hinfinite, hnot⟩ := hoverflow.exists_value
      rw [hvalue, Option.some.injEq] at hinfinite
      rw [← hinfinite] at hnot
      exact hnot (hfinite path t ht)
  · intro hoverflow path t ht
    have hvalue := value?_at h path
    rw [ht] at hvalue
    cases hq : p.at? path with
    | none =>
      rw [hq] at hvalue
      cases hvalue
    | some q =>
      rw [hq, Option.rel_some_some] at hvalue
      -- Below the node at the path there is no overflow either.
      have hconstants' : q.ConstantsFinite :=
        at?_induction (fun p hp => hp.operands) hconstants hq
      have hoverflow' : ∀ path r, q.at? path = some r → ¬ r.Overflows context :=
        at?_induction (fun p hp => forall_at?_operands hp) hoverflow hq
      exact finite_of_value? hcontext hconstants' hoverflow' hvalue

end Predicate

/-- The values of a context that is read from an object with finite numbers are finite. -/
theorem Context.finite_of_ofJson {v : Json} {context : Context} (hv : v.NumbersFinite)
    (hcontext : Context.ofJson v = .ok context) :
    ∀ name value, context.get? name = some value → value.Finite := by
  obtain ⟨members, rfl, -, hhas⟩ := Context.ofJson_eq_ok_iff.1 hcontext
  intro name value hget
  obtain ⟨json, hjson, hspells⟩ := (hhas name value).1 hget
  have hmem := List.mem_reverse.1 (mem_of_entryValue? hjson)
  cases hv with
  | object hmembers =>
    have hfinite := hmembers _ hmem
    cases hspells with
    | number n =>
      cases hfinite with
      | number hn => exact hn
    | bool b => trivial
    | string s => trivial

/-- In the answer to a text, under a context that is read from an object with finite numbers, null
stands for a failure and nothing else exactly when the evaluation fails or no node overflows. -/
theorem nullMeansFailure_toJson_iff {v : Json} {context : Context} (hv : v.NumbersFinite)
    (hcontext : Context.ofJson v = .ok context) (text : String) (limit : Nat) :
    NullMeansFailure (evaluateText text context limit).toJson ↔
      (evaluateText text context limit).isError = true ∨
        ∀ p, Predicate.ofText limit text = .ok p →
          ∀ path q, p.at? path = some q → ¬ q.Overflows context := by
  unfold evaluateText
  split
  · rename_i p hread
    obtain ⟨ast, hast, hp⟩ := Predicate.exists_ofJson_of_ofText hread
    have hconstants := (Predicate.ofJson_eq_ok_iff.1 hp).1.constantsFinite hast
    have hvalues := Context.finite_of_ofJson hv hcontext
    unfold Predicate.evaluate Predicate.tryEvaluate
    cases hresult : p.evaluateNode context limit limit with
    | error fault => exact iff_of_true (EvalResult.nullMeansFailure_error _ _ _) (.inl rfl)
    | ok e =>
      have hfinite := EvalResult.nullMeansFailure_success_iff (Predicate.value_trace hresult)
      have hnodes := Predicate.finite_trace_iff hvalues hconstants hresult
      refine (hfinite.trans hnodes).trans ⟨fun hoverflow => .inr fun q hq => ?_, ?_⟩
      · rw [hread] at hq
        cases hq
        exact hoverflow
      · rintro (herror | hoverflow)
        · cases herror
        · exact hoverflow p hread
  · exact iff_of_true (EvalResult.nullMeansFailure_error _ _ _) (.inl rfl)
  · exact iff_of_true (EvalResult.nullMeansFailure_error _ _ _) (.inl rfl)

/-- In a product of a field and a constant only the product can overflow. -/
theorem Predicate.not_overflows_product_iff {context : Context} {name : String} {x y : Binary64}
    (hname : context.get? name = some (.number x)) :
    (∀ path q, at? path (.arithmetic .mul (.field name) (.const (.number y))) = some q →
      ¬ q.Overflows context) ↔ ¬ ArithmeticOp.Overflows .mul x y := by
  constructor
  · exact fun h hoverflow => h [] _ rfl ⟨x, y, hname, rfl, hoverflow⟩
  · intro h path q hq hoverflow
    have hmem := mem_postorder_iff.2 ⟨path, hq⟩
    simp only [postorder, List.mem_append, List.mem_singleton] at hmem
    rcases hmem with (rfl | rfl) | rfl
    · exact hoverflow
    · exact hoverflow
    · obtain ⟨x', y', hx, hy, hoverflow⟩ := hoverflow
      obtain rfl : x = x' := Value.number.inj (Option.some.inj (hname.symm.trans hx))
      cases hy
      exact h hoverflow

/-- Ten times a score of three is a number, and ten times a score of `10^308` is null without an
error. -/
theorem nullMeansFailure_toJson_product :
    let p : Predicate := .arithmetic .mul (.field "score") (.const (.number (.ofInt 10)))
    let context (score : Binary64) : Context := .ofList [("score", .number score)]
    let result (score : Binary64) : EvalResult := evaluateText p.toJson.compact (context score) 2
    NullMeansFailure (result (.ofInt 3)).toJson ∧
      ¬ NullMeansFailure (result (.ofDecimal false 1 308)).toJson := by
  have hten : (Binary64.ofInt 10).isFinite = true := by decide +kernel
  have hcanonical : Value.canonical (.number (.ofInt 10)) = .number (.ofInt 10) := by
    decide +kernel
  have hthree : (Binary64.ofInt 3).isFinite = true := by decide +kernel
  have hlarge : (Binary64.ofDecimal false 1 308).isFinite = true := by decide +kernel
  have hthirty : ((Binary64.ofInt 3).mul (.ofInt 10)).isFinite = true := by decide +kernel
  have hinfinite : ((Binary64.ofDecimal false 1 308).mul (.ofInt 10)).isFinite = false := by
    decide +kernel
  -- From here on the numbers are not looked at.
  generalize Binary64.ofInt 10 = ten at *
  generalize Binary64.ofInt 3 = three, Binary64.ofDecimal false 1 308 = large at *
  intro p context result
  have hv (score : Binary64) (hscore : score.isFinite = true) :
      (Json.object [("score", .number (.float score))]).NumbersFinite :=
    .object (List.forall_mem_singleton.2 (.number hscore))
  have hcontext (score : Binary64) :
      Context.ofJson (.object [("score", .number (.float score))]) = .ok (context score) := rfl
  have hvalue : (p.evaluate (context large) 2).isError = false := rfl
  have hdepth : p.depth = 2 := Predicate.depth_eq_height p
  have hread : Predicate.ofText 2 p.toJson.compact = .ok p := by
    refine Predicate.ofText_compact_eq_ok ⟨trivial, hten⟩ ?_ ?_ (Nat.le_of_eq hdepth)
    · exact congrArg (fun r => Predicate.arithmetic .mul (.field "score") (.const r)) hcanonical
    · rw [hdepth]
      decide
  constructor
  · refine (nullMeansFailure_toJson_iff (hv _ hthree) (hcontext _) _ 2).2 (.inr fun q hq => ?_)
    rw [hread] at hq
    cases hq
    refine (Predicate.not_overflows_product_iff rfl).2 fun hoverflow => ?_
    obtain ⟨-, -, z, hz, hnot⟩ := ArithmeticOp.overflows_iff.1 hoverflow
    rw [← Option.some.inj hz] at hnot
    exact Bool.false_ne_true (hnot.symm.trans hthirty)
  · rw [nullMeansFailure_toJson_iff (hv _ hlarge) (hcontext _) _ 2]
    rintro (herror | hoverflow)
    · have hresult : evaluateText p.toJson.compact (context large) 2 =
          p.evaluate (context large) 2 := by
        rw [evaluateText, hread]
      rw [hresult, hvalue] at herror
      exact Bool.false_ne_true herror
    · refine (Predicate.not_overflows_product_iff rfl).1 (hoverflow p hread) ?_
      exact ArithmeticOp.overflows_iff.2 ⟨hlarge, hten, _, rfl, hinfinite⟩

/-- The product of `10^308` and ten has null as its value, in the result and in its trace, and there
is no error. -/
theorem null_of_product_of_constants :
    let p : Predicate := .arithmetic .mul (.const (.number (.ofDecimal false 1 308)))
      (.const (.number (.ofInt 10)))
    let result : Json := (evaluateText p.toJson.compact .empty 2).toJson
    Context.ofJson (.object []) = .ok .empty ∧ Predicate.ofText 2 p.toJson.compact = .ok p ∧
      result.get? "value" = some .null ∧ result.get? "error" = none ∧
      ∃ trace, result.get? "trace" = some trace ∧ trace.get? "value" = some .null := by
  have hten : (Binary64.ofInt 10).isFinite = true := by decide +kernel
  have hlarge : (Binary64.ofDecimal false 1 308).isFinite = true := by decide +kernel
  have hcanonical : Value.canonical (.number (.ofInt 10)) = .number (.ofInt 10) := by
    decide +kernel
  have hcanonical' : Value.canonical (.number (.ofDecimal false 1 308)) =
      .number (.ofDecimal false 1 308) := by
    decide +kernel
  have hinfinite : ((Binary64.ofDecimal false 1 308).mul (.ofInt 10)).isFinite = false := by
    decide +kernel
  generalize Binary64.ofInt 10 = ten, Binary64.ofDecimal false 1 308 = large at *
  intro p result
  have hnull : Value.toJson (.number (large.mul ten)) = .null := by
    rw [Value.toJson_eq_null_iff]
    exact fun hfinite => Bool.false_ne_true (hinfinite.symm.trans hfinite)
  have hdepth : p.depth = 2 := Predicate.depth_eq_height p
  have hread : Predicate.ofText 2 p.toJson.compact = .ok p := by
    refine Predicate.ofText_compact_eq_ok ⟨hlarge, hten⟩ ?_ ?_ (Nat.le_of_eq hdepth)
    · exact congrArg₂ (fun l r => Predicate.arithmetic .mul (.const l) (.const r)) hcanonical'
        hcanonical
    · rw [hdepth]
      decide
  have hresult : result = (p.evaluate .empty 2).toJson := by
    show (evaluateText p.toJson.compact .empty 2).toJson = _
    rw [evaluateText, hread]
  rw [hresult]
  refine ⟨rfl, hread, congrArg some hnull, rfl, _, rfl, ?_⟩
  rw [Trace.get?_value_toJson]
  exact congrArg some hnull

end AuditedRules
