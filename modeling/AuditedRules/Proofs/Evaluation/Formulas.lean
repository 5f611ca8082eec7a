import AuditedRules.Proofs.Evaluation.Audit
import AuditedRules.Proofs.Evaluation.Limit
import AuditedRules.Proofs.Evaluation.Meaning

/-!
# Predicates as formulas of propositional logic

A formula is built from atoms with `and`, `or` and `not`. With a predicate in place of each atom it
is a predicate itself, whose truth value is that of the formula, each atom being read as the truth
value that its predicate has (`Formula.truth?_toPredicate`). Both operands of a node are always
evaluated, so it has a truth value exactly when all atoms have one
(`Formula.isSome_truth?_toPredicate`).

So equivalent formulas over the same atoms give results that pass together and fail together,
whatever predicates the atoms are (`evaluate_equivalent_formulas`).
-/

namespace AuditedRules

universe u

/-! ## Formulas -/

/-- A formula of propositional logic. -/
inductive Formula (α : Type u)
  | atom (a : α)
  | and (left right : Formula α)
  | or (left right : Formula α)
  | not (operand : Formula α)

namespace Formula

variable {α : Type u}

/-- The atoms, from left to right. -/
def atoms : Formula α → List α
  | .atom a => [a]
  | .and left right => left.atoms ++ right.atoms
  | .or left right => left.atoms ++ right.atoms
  | .not operand => operand.atoms

/-- The truth value of a formula, given those of the atoms. -/
def holds (reading : α → Bool) : Formula α → Bool
  | .atom a => reading a
  | .and left right => left.holds reading && right.holds reading
  | .or left right => left.holds reading || right.holds reading
  | .not operand => !operand.holds reading

/-- The formula as a predicate, with predicates for the atoms. -/
def toPredicate (nodes : α → Predicate) : Formula α → Predicate
  | .atom a => nodes a
  | .and left right => .logical .and (left.toPredicate nodes) (right.toPredicate nodes)
  | .or left right => .logical .or (left.toPredicate nodes) (right.toPredicate nodes)
  | .not operand => .not (operand.toPredicate nodes)

end Formula

/-! ## Truth values -/

namespace Predicate

variable {context : Context} {limit : Nat} {p : Predicate}

/-- The truth value of a predicate under a context, if the predicate has a value. -/
def truth? (context : Context) (p : Predicate) : Option Bool :=
  (p.value? context).map Value.truthy

/-- `and` and `or` have a truth value when both operands have one. -/
theorem truth?_logical (context : Context) (op : LogicalOp) (left right : Predicate) :
    truth? context (.logical op left right) =
      (left.truth? context).bind fun l => (right.truth? context).map (op.apply l) := by
  unfold truth?
  rw [value?]
  cases left.value? context with
  | none => rfl
  | some l =>
    cases right.value? context with
    | none => rfl
    | some r => exact congrArg some (op.apply_truthy l r).symm

/-- A negation has the other truth value. -/
theorem truth?_not (context : Context) (operand : Predicate) :
    truth? context (.not operand) = (operand.truth? context).map (!·) := by
  unfold truth?
  rw [value?]
  cases operand.value? context with
  | none => rfl
  | some inner => exact congrArg (some !·) inner.truthy_eq_isTrue.symm

/-- Within its limit an evaluation succeeds exactly when the predicate has a truth value. -/
theorem isError_evaluate_eq (h : p.depth ≤ limit) (context : Context) :
    (p.evaluate context limit).isError = (p.truth? context).isNone := by
  rw [evaluate, tryEvaluate_eq_evaluateUnbounded h, truth?, ← toOption_evaluateUnbounded]
  cases p.evaluateUnbounded context <;> rfl

/-- Within its limit a result passes exactly when the predicate is true. -/
theorem pass_evaluate_eq (h : p.depth ≤ limit) (context : Context) :
    (p.evaluate context limit).pass = (p.truth? context).getD false := by
  rw [evaluate, tryEvaluate_eq_evaluateUnbounded h, truth?, ← toOption_evaluateUnbounded]
  cases p.evaluateUnbounded context <;> rfl

end Predicate

namespace Formula

variable {α : Type u} {context : Context} {nodes : α → Predicate} {f : Formula α}

/-- A formula has a truth value exactly when all of its atoms have one. -/
theorem isSome_truth?_toPredicate :
    ((f.toPredicate nodes).truth? context).isSome = true ↔
      ∀ a ∈ f.atoms, ((nodes a).truth? context).isSome = true := by
  -- A node with two operands has a truth value when both of them have one.
  have hboth : ∀ (op : LogicalOp) (left right : Predicate),
      (Predicate.truth? context (.logical op left right)).isSome = true ↔
        (left.truth? context).isSome = true ∧ (right.truth? context).isSome = true := by
    intro op left right
    rw [Predicate.truth?_logical]
    cases left.truth? context <;> cases right.truth? context <;> simp
  induction f with
  | atom a => simp [toPredicate, atoms]
  | and left right ihl ihr =>
    rw [toPredicate, hboth, atoms, List.forall_mem_append]
    exact and_congr ihl ihr
  | or left right ihl ihr =>
    rw [toPredicate, hboth, atoms, List.forall_mem_append]
    exact and_congr ihl ihr
  | not operand ih =>
    rw [toPredicate, Predicate.truth?_not, Option.isSome_map]
    exact ih

/-- The truth value of a formula follows from those of its atoms. -/
theorem truth?_toPredicate {reading : α → Bool}
    (h : ∀ a ∈ f.atoms, (nodes a).truth? context = some (reading a)) :
    (f.toPredicate nodes).truth? context = some (f.holds reading) := by
  induction f with
  | atom a => exact h a List.mem_cons_self
  | and left right ihl ihr =>
    obtain ⟨hleft, hright⟩ := List.forall_mem_append.1 h
    rw [toPredicate, Predicate.truth?_logical, ihl hleft, ihr hright]
    rfl
  | or left right ihl ihr =>
    obtain ⟨hleft, hright⟩ := List.forall_mem_append.1 h
    rw [toPredicate, Predicate.truth?_logical, ihl hleft, ihr hright]
    rfl
  | not operand ih =>
    rw [toPredicate, Predicate.truth?_not, ih h]
    rfl

/-- The predicate of an atom has no more levels than that of the formula. -/
theorem height_le_of_mem_atoms {a : α} (ha : a ∈ f.atoms) :
    (nodes a).height ≤ (f.toPredicate nodes).height := by
  have hleft : ∀ (op : LogicalOp) (left right : Predicate),
      left.height ≤ (Predicate.logical op left right).height :=
    fun _ _ _ => Nat.le_succ_of_le (Nat.le_max_left _ _)
  have hright : ∀ (op : LogicalOp) (left right : Predicate),
      right.height ≤ (Predicate.logical op left right).height :=
    fun _ _ _ => Nat.le_succ_of_le (Nat.le_max_right _ _)
  induction f with
  | atom b =>
    rw [List.mem_singleton.1 ha]
    exact Nat.le_refl _
  | and left right ihl ihr =>
    rcases List.mem_append.1 ha with ha | ha
    · exact (ihl ha).trans (hleft _ _ _)
    · exact (ihr ha).trans (hright _ _ _)
  | or left right ihl ihr =>
    rcases List.mem_append.1 ha with ha | ha
    · exact (ihl ha).trans (hleft _ _ _)
    · exact (ihr ha).trans (hright _ _ _)
  | not operand ih => exact Nat.le_succ_of_le (ih ha)

/-! ## Results -/

variable {limit : Nat}

/-- The predicates of the atoms are within the limit if that of the formula is. -/
theorem depth_le_of_mem_atoms (h : (f.toPredicate nodes).depth ≤ limit) {a : α}
    (ha : a ∈ f.atoms) : (nodes a).depth ≤ limit := by
  have hle : (nodes a).height ≤ (f.toPredicate nodes).height := height_le_of_mem_atoms ha
  rw [Predicate.depth_eq_height] at h ⊢
  exact Nat.le_trans hle h

/-- Within the limit the evaluation of a formula fails exactly when that of an atom does. -/
theorem isError_toPredicate_iff (h : (f.toPredicate nodes).depth ≤ limit) (context : Context) :
    ((f.toPredicate nodes).evaluate context limit).isError = true ↔
      ∃ a ∈ f.atoms, ((nodes a).evaluate context limit).isError = true := by
  rw [Predicate.isError_evaluate_eq h, ← Option.not_isSome, Bool.not_eq_true', ← Bool.not_eq_true,
    isSome_truth?_toPredicate]
  simp only [Classical.not_forall, exists_prop]
  refine exists_congr fun a => and_congr_right fun ha => ?_
  rw [Predicate.isError_evaluate_eq (depth_le_of_mem_atoms h ha), ← Option.not_isSome]
  simp

/-- A result without an error passes exactly when the formula is true, an atom being read as
whether its own result passes. -/
theorem pass_toPredicate (h : (f.toPredicate nodes).depth ≤ limit) {reading : α → Bool}
    (hvalue : ((f.toPredicate nodes).evaluate context limit).isError = false)
    (hreading : ∀ a ∈ f.atoms, reading a = ((nodes a).evaluate context limit).pass) :
    ((f.toPredicate nodes).evaluate context limit).pass = f.holds reading := by
  rw [Predicate.isError_evaluate_eq h, Option.isNone_eq_false_iff,
    isSome_truth?_toPredicate] at hvalue
  have htruth : (f.toPredicate nodes).truth? context = some (f.holds reading) := by
    refine truth?_toPredicate fun a ha => ?_
    obtain ⟨b, hb⟩ := Option.isSome_iff_exists.1 (hvalue a ha)
    rw [hreading a ha, Predicate.pass_evaluate_eq (depth_le_of_mem_atoms h ha), hb]
    rfl
  rw [Predicate.pass_evaluate_eq h, htruth]
  rfl

end Formula

/-! ## Equivalent formulas -/

/-- A result without an error is one with a value. -/
theorem Predicate.exists_success {p : Predicate} {context : Context} {limit : Nat}
    (h : (p.evaluate context limit).isError = false) :
    ∃ e, p.evaluate context limit = .success e := by
  unfold evaluate at h ⊢
  cases htry : p.tryEvaluate context limit with
  | error e =>
    rw [htry] at h
    cases h
  | ok e => exact ⟨e, rfl⟩

/-- Let two formulas have the same atoms and the same truth value under every reading of the atoms.
With predicates for the atoms, and within the limit, the evaluations of both fail together, which is
when that of an atom fails. Otherwise both results pass or neither does: they have the truth value
of the formula, where an atom is read as the truth value of what its predicate is evaluated to. -/
theorem evaluate_equivalent_formulas {α : Type u} {f g : Formula α}
    (hatoms : ∀ a, a ∈ f.atoms ↔ a ∈ g.atoms)
    (hequivalent : ∀ reading, f.holds reading = g.holds reading) (nodes : α → Predicate)
    (context : Context) {limit : Nat} (hf : (f.toPredicate nodes).depth ≤ limit)
    (hg : (g.toPredicate nodes).depth ≤ limit) :
    let result (p : Predicate) : EvalResult := p.evaluate context limit
    (result (f.toPredicate nodes)).isError = (result (g.toPredicate nodes)).isError ∧
    ((result (f.toPredicate nodes)).isError = true ↔
      ∃ a ∈ f.atoms, (result (nodes a)).isError = true) ∧
    ((result (f.toPredicate nodes)).isError = false →
      (result (f.toPredicate nodes)).pass = (result (g.toPredicate nodes)).pass ∧
      ∀ reading : α → Bool,
        (∀ a ∈ f.atoms, ∀ e, result (nodes a) = .success e → reading a = e.value.truthy) →
          (result (f.toPredicate nodes)).pass = f.holds reading) := by
  intro result
  have hfails := f.isError_toPredicate_iff hf context
  have hfails' := g.isError_toPredicate_iff hg context
  have hsame : (result (f.toPredicate nodes)).isError = (result (g.toPredicate nodes)).isError := by
    rw [Bool.eq_iff_iff]
    refine hfails.trans (Iff.trans ?_ hfails'.symm)
    simp only [hatoms]
  refine ⟨hsame, hfails, fun hvalue => ⟨?_, fun reading hreading => ?_⟩⟩
  · -- Both formulas are read under one reading, which is where they are equivalent.
    let passes (a : α) : Bool := (result (nodes a)).pass
    calc (result (f.toPredicate nodes)).pass
        = f.holds passes := f.pass_toPredicate hf hvalue fun _ _ => rfl
      _ = g.holds passes := hequivalent passes
      _ = (result (g.toPredicate nodes)).pass :=
        (g.pass_toPredicate hg (hsame.symm.trans hvalue) fun _ _ => rfl).symm
  · refine f.pass_toPredicate hf hvalue fun a ha => ?_
    -- No atom fails where the formula does not, so there is a value to be read.
    have hatom : (result (nodes a)).isError = false := by
      rw [← Bool.not_eq_true]
      intro herror
      have hfailed := hfails.2 ⟨a, ha, herror⟩
      exact Bool.false_ne_true (hvalue.symm.trans hfailed)
    obtain ⟨e, he⟩ := Predicate.exists_success hatom
    rw [hreading a ha e he]
    exact (congrArg EvalResult.pass he).symm

/-- The two sides of a law of De Morgan pass together on a record with a score of three, where one
atom is a text and the other one the number zero, and fail together on a record without a score. -/
theorem evaluate_equivalent_formulas_de_morgan :
    let f : Formula Bool := .not (.and (.atom true) (.atom false))
    let g : Formula Bool := .or (.not (.atom true)) (.not (.atom false))
    let nodes (a : Bool) : Predicate :=
      if a then .field "tier"
      else .arithmetic .sub (.field "score") (.const (.number (.ofInt 3)))
    let context : Context := .ofList [("score", .number (.ofInt 3)), ("tier", .string "gold")]
    let context' : Context := .ofList [("tier", .string "gold")]
    (∀ a, a ∈ f.atoms ↔ a ∈ g.atoms) ∧ (∀ reading, f.holds reading = g.holds reading) ∧
      (f.toPredicate nodes).depth ≤ 4 ∧ (g.toPredicate nodes).depth ≤ 4 ∧
      ((f.toPredicate nodes).evaluate context 4).isError = false ∧
      ((g.toPredicate nodes).evaluate context 4).pass = true ∧
      ((f.toPredicate nodes).evaluate context' 4).isError = true ∧
      ((g.toPredicate nodes).evaluate context' 4).isError = true := by
  intro f g nodes context context'
  have hatoms : ∀ a, a ∈ f.atoms ↔ a ∈ g.atoms := fun a => Iff.rfl
  have hequivalent : ∀ reading, f.holds reading = g.holds reading :=
    fun reading => Bool.not_and (reading true) (reading false)
  have hf : (f.toPredicate nodes).depth ≤ 4 := Nat.le_of_eq (Predicate.depth_eq_height _)
  have hg : (g.toPredicate nodes).depth ≤ 4 := Nat.le_of_eq (Predicate.depth_eq_height _)
  obtain ⟨-, -, hpass⟩ := evaluate_equivalent_formulas hatoms hequivalent nodes context hf hg
  obtain ⟨hsame, hfails, -⟩ := evaluate_equivalent_formulas hatoms hequivalent nodes context' hf hg
  have hvalue : ((f.toPredicate nodes).evaluate context 4).isError = false := by decide +kernel
  have hpasses : ∀ a, ((nodes a).evaluate context 4).pass = a := by decide +kernel
  have hvalues : ∀ a e, (nodes a).evaluate context 4 = .success e → a = e.value.truthy :=
    fun a e he => (hpasses a).symm.trans (congrArg EvalResult.pass he)
  have hscore : ((nodes false).evaluate context' 4).isError = true := by decide +kernel
  have hfailed := hfails.2 ⟨false, by simp [f, Formula.atoms], hscore⟩
  obtain ⟨hboth, htruth⟩ := hpass hvalue
  exact ⟨hatoms, hequivalent, hf, hg, hvalue,
    hboth.symm.trans (htruth (fun a => a) fun a _ => hvalues a), hfailed, hsame.symm.trans hfailed⟩

end AuditedRules
