import AuditedRules.Predicate.Basic

/-!
# The depth of a predicate by recursion

`Predicate.depth` walks a tree with an explicit stack. Readers and evaluators go down a tree by
recursion and count levels on the way, so what they count is the height of the tree, defined by
recursion here. `depth_eq_height` says that the walk finds the height.

The invariant of the walk speaks of an arbitrary stack: the answer is the greatest of the level
found so far and of the lowest levels of the trees on the stack (`deepestLevel_eq`). One step
replaces a tree by its operands, one level further down, which reach the same lowest level
(`foldl_operands`).
-/

namespace AuditedRules.Predicate

/-- The number of levels by recursion: a leaf has one, and a node one more than the higher of its
operands. -/
def height : Predicate → Nat
  | .const _ => 1
  | .field _ => 1
  | .arithmetic _ left right => max left.height right.height + 1
  | .comparison _ left right => max left.height right.height + 1
  | .logical _ left right => max left.height right.height + 1
  | .not operand => operand.height + 1

/-- Every tree has a level. -/
theorem height_pos (p : Predicate) : 0 < p.height := by
  cases p <;> simp [height]

/-- A node fits into one level more than its operands. -/
theorem height_le_succ_iff {p : Predicate} {levels : Nat} :
    p.height ≤ levels + 1 ↔ ∀ q ∈ p.operands, q.height ≤ levels := by
  cases p <;> simp only [height, operands, Nat.add_le_add_iff_right, Nat.max_le,
    List.forall_mem_cons, List.not_mem_nil, Nat.le_add_left, false_imp_iff, implies_true, and_true]

/-- Where a tree fits there is a level for its root, and its operands fit below. -/
theorem exists_levels {p : Predicate} {levels : Nat} (h : p.height ≤ levels) :
    ∃ below, levels = below + 1 ∧ ∀ q ∈ p.operands, q.height ≤ below := by
  have hpos := p.height_pos
  obtain ⟨below, rfl⟩ := Nat.exists_eq_succ_of_ne_zero (show levels ≠ 0 by omega)
  exact ⟨below, rfl, height_le_succ_iff.1 h⟩

/-- The greater of a level and of the lowest level of a tree whose root has a given level. -/
def lowestLevel (deepest : Nat) (entry : Predicate × Nat) : Nat :=
  max deepest (entry.2 + entry.1.height - 1)

/-- Two trees on one level reach as deep as the higher of them. -/
theorem foldl_pair (left right : Predicate) (level deepest : Nat) :
    [(left, level + 1), (right, level + 1)].foldl lowestLevel (max deepest level) =
      max deepest (level + (max left.height right.height + 1) - 1) := by
  have hl := left.height_pos
  have hr := right.height_pos
  simp only [List.foldl_cons, List.foldl_nil, lowestLevel]
  omega

/-- The operands of a tree, one level further down, and its root reach as deep as the tree. -/
theorem foldl_operands (p : Predicate) (level deepest : Nat) :
    (p.operands.map fun operand => (operand, level + 1)).foldl lowestLevel (max deepest level) =
      lowestLevel deepest (p, level) := by
  cases p with
  | const value => simp [operands, lowestLevel, height]
  | field name => simp [operands, lowestLevel, height]
  | arithmetic op left right => exact foldl_pair left right level deepest
  | comparison op left right => exact foldl_pair left right level deepest
  | logical op left right => exact foldl_pair left right level deepest
  | not operand =>
    have ho := operand.height_pos
    simp only [operands, List.map_cons, List.map_nil, List.foldl_cons, List.foldl_nil, lowestLevel,
      height]
    omega

/-- The walk finds the greatest of the level so far and the lowest levels of the trees on the
stack. -/
theorem deepestLevel_eq (stack : List (Predicate × Nat)) (deepest : Nat) :
    deepestLevel stack deepest = stack.foldl lowestLevel deepest := by
  fun_induction deepestLevel stack deepest with
  | case1 deepest => rfl
  | case2 deepest p level rest ih =>
    rw [ih, List.foldl_append, foldl_operands, List.foldl_cons]

/-- The depth that the walk finds is the height. -/
theorem depth_eq_height (p : Predicate) : p.depth = p.height := by
  rw [depth, deepestLevel_eq, List.foldl_cons, List.foldl_nil, lowestLevel, Nat.add_sub_cancel_left,
    Nat.zero_max]

/-- The depth is one more than the greatest depth of the operands; a leaf, which has none, has
depth one. -/
theorem depth_eq (p : Predicate) : p.depth = (p.operands.map depth).foldr max 0 + 1 := by
  rw [List.map_congr_left fun q _ => q.depth_eq_height, depth_eq_height]
  cases p <;> simp [operands, height]

/-- Nothing changes if a turn of the walk puts the operands onto the stack the other way round. -/
theorem deepestLevel_turn (p : Predicate) (level : Nat) (rest : List (Predicate × Nat))
    (deepest : Nat) :
    deepestLevel ((p.operands.map fun operand => (operand, level + 1)).reverse ++ rest)
        (max deepest level) = deepestLevel ((p, level) :: rest) deepest := by
  have hswap (d : Nat) (a b : Predicate × Nat) :
      lowestLevel (lowestLevel d a) b = lowestLevel (lowestLevel d b) a := by
    simp only [lowestLevel]
    omega
  rw [deepestLevel_eq, deepestLevel_eq, List.foldl_append,
    (List.reverse_perm _).foldl_eq' (fun a _ b _ d => hswap d a b), foldl_operands,
    List.foldl_cons]

end AuditedRules.Predicate
