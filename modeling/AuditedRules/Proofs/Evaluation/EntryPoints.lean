import AuditedRules.Proofs.Evaluation.SignOfZero
import AuditedRules.Proofs.Predicate.CompactText

/-!
# The ways to evaluate give the same answer

A predicate is evaluated as it is, after it was written as a JSON value and read again, or after
that value was written as text and the text was read. What is read is the predicate with the zeros
among its constants taken as positive, since a negative zero is written as the integer `0`.
Evaluation does not see the difference, so the answers show the same (`evaluate_entry_points`).
-/

namespace AuditedRules.Predicate

/-- Results show the same for predicates that are the same but for the signs of zeros. A predicate
with finite constants within a limit, and with no more levels than text is read with, is read from
its JSON form, and its evaluation, that of what was read, those of the JSON form and of its compact
text, and the result made from a value or an error all show the same. The numbers of the text are
read as the nearest doubles, so that they are kept. -/
theorem evaluate_entry_points (p : Predicate) (context : Context) (limit : Nat) :
    (∀ q : Predicate, q.canonical = p.canonical →
      (p.evaluate context limit).ShowsSame (q.evaluate context limit)) ∧
    (p.ConstantsFinite → limit ≤ 127 → p.depth ≤ limit →
      (∃ q, ofJson limit p.toJson = .ok q ∧
        (p.evaluate context limit).ShowsSame (q.evaluate context limit)) ∧
      (p.evaluate context limit).ShowsSame (evaluateJson p.toJson context limit) ∧
      (p.evaluate context limit).ShowsSame (evaluateText p.toJson.compact context limit) ∧
      (p.evaluate context limit).ShowsSame (.ofEvaluated (p.tryEvaluate context limit))) := by
  have hcanonical : ∀ q : Predicate,
      (q.evaluate context limit).ShowsSame (q.canonical.evaluate context limit) :=
    fun q => q.evaluate_canonical_showsSame (.refl context) limit
  refine ⟨fun q hq => ?_, fun hfinite hlimit hdepth => ?_⟩
  · have hp := hcanonical p
    rw [← hq] at hp
    exact hp.trans (hcanonical q).symm
  · have hread : ofJson limit p.toJson = .ok p.canonical :=
      ofJson_toJson_eq_ok_iff.2 ⟨rfl, hfinite, hdepth⟩
    have hjson : evaluateJson p.toJson context limit = p.canonical.evaluate context limit := by
      rw [evaluateJson, hread]
    have htext :
        evaluateText p.toJson.compact context limit = p.canonical.evaluate context limit := by
      rw [evaluateText, ofText_compact_toJson hfinite (Nat.le_trans hdepth hlimit), hread]
    refine ⟨⟨p.canonical, hread, hcanonical p⟩, ?_, ?_, .refl _⟩
    · rw [hjson]
      exact hcanonical p
    · rw [htext]
      exact hcanonical p

/-- A division by a negative zero fails in the same way however it is evaluated, and a sum with one
shows the same value and trace as a sum with a positive zero and as its own text. -/
theorem evaluate_entry_points_negative_zero :
    let zero (negative : Bool) : Predicate := .const (.number (.zero negative))
    let p (op : ArithmeticOp) : Predicate := .arithmetic op (.field "balance") (zero true)
    let q : Predicate := .arithmetic .add (.field "balance") (zero false)
    let context : Context := .ofList [("balance", .number (.zero true))]
    ((p .add).evaluate context 2).ShowsSame (q.evaluate context 2) ∧
      ((p .add).evaluate context 2).ShowsSame (evaluateText (p .add).toJson.compact context 2) ∧
      ((p .div).evaluate context defaultLimit).ShowsSame
        (evaluateJson (p .div).toJson context defaultLimit) := by
  intro zero p q context
  have hdepth (op : ArithmeticOp) : (p op).depth = 2 := depth_eq_height (p op)
  have hfinite (op : ArithmeticOp) : (p op).ConstantsFinite := ⟨trivial, rfl⟩
  obtain ⟨hsigns, hadd⟩ := evaluate_entry_points (p .add) context 2
  obtain ⟨-, hdiv⟩ := evaluate_entry_points (p .div) context defaultLimit
  obtain ⟨-, -, htext, -⟩ := hadd (hfinite .add) (by decide) (Nat.le_of_eq (hdepth .add))
  obtain ⟨-, hjson, -⟩ := hdiv (hfinite .div) (by decide) (by rw [hdepth]; decide)
  exact ⟨hsigns q rfl, htext, hjson⟩

end AuditedRules.Predicate
