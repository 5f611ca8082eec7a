import AuditedRules.Evaluation
import AuditedRules.Proofs.Steps

/-!
# When operators fail

An operator on numbers fails exactly when one of its operands is no number, and a division also when
it is given a zero of either sign to divide by. Equality never fails. An error names the operator
and the types of both operands.
-/

namespace AuditedRules

variable {left right : Value} {e : EvalError}

/-- Two values fail to be numbers when one of them is none. -/
theorem bothNumbers_eq_error_iff {op : String} :
    bothNumbers op left right = .error e ↔
      (left.number? = none ∨ right.number? = none) ∧ e = .typeMismatch op left.type right.type := by
  unfold bothNumbers
  cases left.number? with
  | none => simp [eq_comm]
  | some x => cases right.number? <;> simp [eq_comm]

/-- Two values are numbers when both are. -/
theorem bothNumbers_eq_ok_iff {op : String} {x y : Binary64} :
    bothNumbers op left right = .ok (x, y) ↔ left.number? = some x ∧ right.number? = some y := by
  unfold bothNumbers
  cases left.number? with
  | none => simp
  | some x => cases right.number? <;> simp

/-- Arithmetic fails on operands that are no numbers and in a division by zero. -/
theorem ArithmeticOp.apply_eq_error_iff {op : ArithmeticOp} :
    op.apply left right = .error e ↔
      (left.number? = none ∨ right.number? = none) ∧
          e = .typeMismatch op.name left.type right.type ∨
        op = .div ∧ (∃ x y, left.number? = some x ∧ right.number? = some y ∧ y.isZero = true) ∧
          e = .divisionByZero := by
  unfold apply
  rw [bind_eq_error_iff, bothNumbers_eq_error_iff]
  refine or_congr Iff.rfl ?_
  constructor
  · rintro ⟨⟨x, y⟩, hnumbers, h⟩
    obtain ⟨hx, hy⟩ := bothNumbers_eq_ok_iff.1 hnumbers
    cases op with
    | div =>
      dsimp only at h
      split at h
      · rename_i hzero
        cases h
        exact ⟨rfl, ⟨x, y, hx, hy, hzero⟩, rfl⟩
      · cases h
    | _ => cases h
  · rintro ⟨rfl, ⟨x, y, hx, hy, hzero⟩, rfl⟩
    exact ⟨(x, y), bothNumbers_eq_ok_iff.2 ⟨hx, hy⟩, if_pos hzero⟩

/-- Comparisons fail on operands that are no numbers, except those for equality. -/
theorem ComparisonOp.apply_eq_error_iff {op : ComparisonOp} :
    op.apply left right = .error e ↔
      (op ≠ .equal ∧ op ≠ .notEqual) ∧ (left.number? = none ∨ right.number? = none) ∧
        e = .typeMismatch op.name left.type right.type := by
  -- After both operands were found to be numbers nothing fails.
  have horder : ∀ outcome : Binary64 × Binary64 → Bool,
      (bothNumbers op.name left right >>= fun operands => .ok (outcome operands)) = .error e ↔
        (left.number? = none ∨ right.number? = none) ∧
          e = .typeMismatch op.name left.type right.type := by
    intro outcome
    rw [bind_eq_error_iff, bothNumbers_eq_error_iff]
    simp
  cases op with
  | equal => simp [apply]
  | notEqual => simp [apply]
  | greater => simpa [apply] using horder fun operands => operands.2.lt operands.1
  | less => simpa [apply] using horder fun operands => operands.1.lt operands.2
  | greaterOrEqual => simpa [apply] using horder fun operands => operands.2.le operands.1
  | lessOrEqual => simpa [apply] using horder fun operands => operands.1.le operands.2

end AuditedRules
