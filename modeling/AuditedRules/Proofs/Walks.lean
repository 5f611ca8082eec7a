import AuditedRules.Proofs.Evaluation.FirstFailure
import AuditedRules.Proofs.Predicate.Fields
import AuditedRules.Proofs.Trace.TreeText
import Mathlib.Algebra.GroupWithZero.Nat

/-!
# The walks find what recursion finds

Depth, fields, number of entries and text are found by walks that keep what is still to be visited
on a stack, so that no depth of nesting is too much for them. Each of them has an invariant about an
arbitrary stack, which stands with its recursion (`Predicate.deepestLevel_eq`,
`Predicate.gatherNames_eq`, `Trace.countOnto_eq`, `Trace.linesOnto_eq`). Here the four results are
put together (`walks_eq_recursions`).

The walks for the fields and for the text have to visit a left operand before a right one. The other
two add up what they find, so a turn may put operands onto the stack in either order
(`Predicate.deepestLevel_turn`, `Trace.countOnto_turn`).
-/

namespace AuditedRules

/-- A predicate refers to the fields that stand at some path. -/
theorem Predicate.mem_fieldLeaves_iff_at? {p : Predicate} {name : String} :
    name ∈ p.fieldLeaves ↔ ∃ path, p.at? path = some (.field name) := by
  rw [← mem_postorder_iff]
  induction p with
  | const value => simp [fieldLeaves, postorder]
  | field other => simp [fieldLeaves, postorder]
  | arithmetic op left right ihl ihr => simp [fieldLeaves, postorder, ihl, ihr]
  | comparison op left right ihl ihr => simp [fieldLeaves, postorder, ihl, ihr]
  | logical op left right ihl ihr => simp [fieldLeaves, postorder, ihl, ihr]
  | not operand ih => simp [fieldLeaves, postorder, ih]

namespace Trace

/-- The entries of several traces are as many as those of each of them together. -/
theorem sizes_eq_sum (ts : List Trace) : sizes ts = (ts.map size).sum := by
  induction ts with
  | nil => rfl
  | cons t rest ih => rw [sizes, ih, List.map_cons, List.sum_cons]

/-- The entries of a trace are the first one and those of the traces below it. -/
theorem nodeCount_eq (t : Trace) : t.nodeCount = (t.children.map nodeCount).sum + 1 := by
  rw [List.map_congr_left fun child _ => child.nodeCount_eq_size, nodeCount_eq_size, size_eq,
    sizes_eq_sum]

/-- Nothing changes if a turn of the walk puts the traces below onto the stack the other way
round. -/
theorem countOnto_turn (t : Trace) (rest : List Trace) (count : Nat) :
    countOnto (t.children.reverse ++ rest) (count + 1) = countOnto (t :: rest) count := by
  have hreverse : sizes t.children.reverse = sizes t.children := by
    rw [sizes_eq_sum, sizes_eq_sum, List.map_reverse, List.sum_reverse]
  rw [countOnto_eq, countOnto_eq, sizes_append, hreverse, sizes, size_eq]
  omega

end Trace

/-- The depth of a predicate is one more than the greatest depth of its operands, and one for a
leaf. The fields are the names of its field leaves from left to right, each at its first occurrence,
so none is listed twice and exactly those are listed that stand somewhere in the tree. The entries
of a trace are one more than those of the traces below the first. The text of a trace is its first
line followed by the texts of the traces below, one level further in. For depth and number of
entries, each turn of the walk may put the operands onto the stack in either order. -/
theorem walks_eq_recursions :
    (∀ p : Predicate, p.depth = (p.operands.map Predicate.depth).foldr max 0 + 1) ∧
    (∀ p : Predicate, p.fieldNames = p.fieldLeaves.eraseDups ∧ p.fieldNames.Nodup ∧
      ∀ name, name ∈ p.fieldNames ↔ ∃ path, p.at? path = some (.field name)) ∧
    (∀ t : Trace, t.nodeCount = (t.children.map Trace.nodeCount).sum + 1) ∧
    (∀ t : Trace, t.renderTree = String.ofList (t.shownFrom 0)) ∧
    (∀ (p : Predicate) (level : Nat) (rest : List (Predicate × Nat)) (deepest : Nat),
      Predicate.deepestLevel ((p.operands.map fun operand => (operand, level + 1)).reverse ++ rest)
          (max deepest level) = Predicate.deepestLevel ((p, level) :: rest) deepest) ∧
    ∀ (t : Trace) (rest : List Trace) (count : Nat),
      Trace.countOnto (t.children.reverse ++ rest) (count + 1) =
        Trace.countOnto (t :: rest) count := by
  refine ⟨Predicate.depth_eq,
    fun p => ⟨p.fieldNames_eq_eraseDups, p.nodup_fieldNames, fun name => ?_⟩,
    Trace.nodeCount_eq, fun t => ?_, Predicate.deepestLevel_turn, Trace.countOnto_turn⟩
  · rw [Predicate.mem_fieldNames_iff, Predicate.mem_fieldLeaves_iff_at?]
  · rw [Trace.renderTree, Trace.treeText_eq_shownFrom]

end AuditedRules
