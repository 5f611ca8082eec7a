import AuditedRules.Predicate.Rendering
import AuditedRules.Proofs.Binary64.SignOfZero
import AuditedRules.Proofs.Predicate.RoundTrip

/-!
# The text of a predicate and the machine that finds it

`shownText` is the text of a predicate as people are to read it, by recursion on the tree. The
machine that finds it is followed here from state to state: `Machine.next` is a single turn of its
loop, and letting it go until no step is left is what `runSteps` does (`Machine.exists_halted`).
Every turn lowers the weight of the steps, also where it puts new steps on the stack, so the machine
halts.

The invariant is about any two stacks (`Machine.Leads`). It says which finished texts a list of
steps ends with when every tree adds its text, and asks of a node that is to be put together that
the texts of its operands lie on top, the right one uppermost. So no turn takes a text from an empty
stack, and the machine ends with the text by recursion (`render_eq`).
-/

namespace AuditedRules.Predicate

/-! ## The text -/

/-- The text of a predicate: a string in quotes, another constant as it is displayed, a field by its
name, `NOT` before the operand of a negation, and two operands in parentheses around their
operator. -/
def shownText : Predicate → String
  | .const (.string s) => "\"" ++ s ++ "\""
  | .const value => value.display
  | .field name => name
  | .arithmetic op left right =>
    "(" ++ left.shownText ++ " " ++ op.name ++ " " ++ right.shownText ++ ")"
  | .comparison op left right =>
    "(" ++ left.shownText ++ " " ++ op.symbol ++ " " ++ right.shownText ++ ")"
  | .logical op left right =>
    "(" ++ left.shownText ++ " " ++ op.word ++ " " ++ right.shownText ++ ")"
  | .not operand => "NOT " ++ operand.shownText

section
variable {left right operand : Predicate}

/-- A constant is shown by its own text. -/
theorem toList_shownText_const (value : Value) :
    (shownText (.const value)).toList = constantText value := by
  cases value with
  | string s => simp [constantText, shownText]
  | _ => rfl

/-- The characters around an operator are those of the parts. -/
theorem toList_infix (left op right : String) :
    ("(" ++ left ++ " " ++ op ++ " " ++ right ++ ")").toList =
      infixText left.toList op right.toList := by
  simp [infixText]

/-- An arithmetic node is shown by its operands around the sign of the operator. -/
theorem toList_shownText_arithmetic (op : ArithmeticOp) :
    (shownText (.arithmetic op left right)).toList =
      infixText left.shownText.toList op.name right.shownText.toList := toList_infix ..

/-- A comparison is shown by its operands around the sign of the operator for people. -/
theorem toList_shownText_comparison (op : ComparisonOp) :
    (shownText (.comparison op left right)).toList =
      infixText left.shownText.toList op.symbol right.shownText.toList := toList_infix ..

/-- A conjunction or disjunction is shown by its operands around the word of the operator. -/
theorem toList_shownText_logical (op : LogicalOp) :
    (shownText (.logical op left right)).toList =
      infixText left.shownText.toList op.word right.shownText.toList := toList_infix ..

/-- A negation is shown by its operand behind a word. -/
theorem toList_shownText_not :
    (shownText (.not operand)).toList = negationText operand.shownText.toList :=
  String.toList_append

end

/-! ## The machine -/

/-- A state of the machine: what is still to be done, and the finished texts. -/
structure Machine where
  /-- What is still to be done, the next step first. -/
  steps : List Step
  /-- The finished texts, the last one first. -/
  done : List (List Char)

namespace Machine

/-- The state before the first step. -/
def start (p : Predicate) : Machine :=
  ⟨[.visit p], []⟩

/-- The state after one step. A machine that has none left stays as it is. -/
def next (m : Machine) : Machine :=
  match m.steps with
  | [] => m
  | .combine p :: rest => ⟨rest, combined p m.done⟩
  | .visit p :: rest => match leafText? p with
    | some text => ⟨rest, text :: m.done⟩
    | none => ⟨p.operands.map .visit ++ .combine p :: rest, m.done⟩

/-- The state after some steps. -/
def after : Nat → Machine → Machine
  | 0, m => m
  | n + 1, m => after n m.next

/-! ### The loop -/

/-- A step does not change what the machine ends with. -/
theorem runSteps_next (m : Machine) :
    runSteps m.next.steps m.next.done = runSteps m.steps m.done := by
  obtain ⟨steps, done⟩ := m
  cases steps with
  | nil => rfl
  | cons step rest =>
    cases step with
    | combine p => simp only [next, runSteps]
    | visit p => cases hleaf : leafText? p <;> simp only [next, runSteps, hleaf]

/-- Several steps do not change what the machine ends with. -/
theorem runSteps_after (n : Nat) (m : Machine) :
    runSteps (after n m).steps (after n m).done = runSteps m.steps m.done := by
  induction n generalizing m with
  | zero => rfl
  | succ n ih => rw [after, ih, runSteps_next]

/-- A step lowers the weight of what is to be done. -/
theorem totalWeight_next_lt {m : Machine} (h : m.steps ≠ []) :
    totalWeight m.next.steps < totalWeight m.steps := by
  obtain ⟨steps, done⟩ := m
  cases steps with
  | nil => exact absurd rfl h
  | cons step rest =>
    cases step with
    | combine p => simp only [next, totalWeight, Step.weight]; omega
    | visit p =>
      have hvisits := totalWeight_visits p
      cases hleaf : leafText? p <;>
        simp only [next, hleaf, totalWeight, totalWeight_append, Step.weight] <;> omega

/-- The machine halts, after no more steps than their weight says, and then holds the texts that
running the steps gives. -/
theorem exists_halted (m : Machine) :
    ∃ n, n ≤ totalWeight m.steps ∧ after n m = ⟨[], runSteps m.steps m.done⟩ := by
  generalize hweight : totalWeight m.steps = weight
  induction weight using Nat.strongRecOn generalizing m with
  | ind weight ih =>
    by_cases hsteps : m.steps = []
    · refine ⟨0, Nat.zero_le _, ?_⟩
      obtain ⟨steps, done⟩ := m
      obtain rfl : steps = [] := hsteps
      simp only [after, runSteps]
    · have hlt := totalWeight_next_lt hsteps
      rw [hweight] at hlt
      obtain ⟨n, hn, hhalted⟩ := ih _ hlt m.next rfl
      refine ⟨n + 1, by omega, ?_⟩
      rw [after, hhalted, runSteps_next]

/-! ### The stacks -/

/-- The texts of some trees, that of the last one on top. -/
def texts (trees : List Predicate) : List (List Char) :=
  (trees.map fun p => p.shownText.toList).reverse

/-- Some steps lead from the finished texts that are there to those at the end. Every tree adds its
text, and every node finds the texts of its operands on top. -/
inductive Leads (final : List (List Char)) : List Step → List (List Char) → Prop
  /-- Nothing is left to be done. -/
  | halted : Leads final [] final
  /-- A tree is shown. -/
  | visit {p : Predicate} {rest : List Step} {done : List (List Char)}
    (h : Leads final rest (p.shownText.toList :: done)) : Leads final (.visit p :: rest) done
  /-- A node is put together from the texts of its operands. -/
  | combine {p : Predicate} {rest : List Step} {done below : List (List Char)}
    (node : p.operands ≠ []) (found : done = texts p.operands ++ below)
    (h : Leads final rest (p.shownText.toList :: below)) : Leads final (.combine p :: rest) done

variable {final : List (List Char)}

/-- Showing some trees adds their texts. -/
theorem Leads.visits {trees : List Predicate} {rest : List Step} {done : List (List Char)}
    (h : Leads final rest (texts trees ++ done)) :
    Leads final (trees.map .visit ++ rest) done := by
  induction trees generalizing done with
  | nil => exact h
  | cons p trees ih =>
    refine .visit (ih ?_)
    rw [texts, List.map_cons, List.reverse_cons, List.append_assoc] at h
    exact h

/-- The texts of the operands become the text of their node. -/
theorem combined_texts {p : Predicate} (node : p.operands ≠ []) (below : List (List Char)) :
    combined p (texts p.operands ++ below) = p.shownText.toList :: below := by
  cases p with
  | const value => exact absurd rfl node
  | field name => exact absurd rfl node
  | arithmetic op left right =>
    rw [toList_shownText_arithmetic]
    rfl
  | comparison op left right =>
    rw [toList_shownText_comparison]
    rfl
  | logical op left right =>
    rw [toList_shownText_logical]
    rfl
  | not operand =>
    rw [toList_shownText_not]
    rfl

/-- A tree is a leaf with a text of its own, or a node with operands. -/
theorem leafText?_eq (p : Predicate) :
    leafText? p = some p.shownText.toList ∧ p.operands = [] ∨
      leafText? p = none ∧ p.operands ≠ [] := by
  cases p with
  | const value => exact .inl ⟨congrArg some (toList_shownText_const value).symm, rfl⟩
  | field name => exact .inl ⟨rfl, rfl⟩
  | _ => exact .inr ⟨rfl, List.cons_ne_nil _ _⟩

/-- What holds of the stacks holds after a step. -/
theorem Leads.next {m : Machine} (h : Leads final m.steps m.done) :
    Leads final m.next.steps m.next.done := by
  obtain ⟨steps, done⟩ := m
  cases h with
  | halted => exact .halted
  | @combine p rest _ below node found h =>
    obtain rfl : done = texts p.operands ++ below := found
    simp only [Machine.next, combined_texts node]
    exact h
  | @visit p rest _ h =>
    rcases leafText?_eq p with ⟨hleaf, -⟩ | ⟨hleaf, hnode⟩
    · simp only [Machine.next, hleaf]
      exact h
    · simp only [Machine.next, hleaf]
      exact .visits (.combine hnode rfl h)

/-- What holds of the stacks holds after any number of steps. -/
theorem Leads.after {m : Machine} (h : Leads final m.steps m.done) (n : Nat) :
    Leads final (after n m).steps (after n m).done := by
  induction n generalizing m with
  | zero => exact h
  | succ n ih => exact ih h.next

/-- From the start the machine leads to the text of the predicate alone. -/
theorem leads_start (p : Predicate) :
    Leads [p.shownText.toList] (start p).steps (start p).done :=
  .visit .halted

/-- Without steps the finished texts are those at the end. -/
theorem Leads.eq_of_halted {done : List (List Char)} (h : Leads final [] done) : done = final := by
  cases h
  rfl

/-- The machine ends with the text of the predicate and no other. -/
theorem runSteps_start (p : Predicate) :
    runSteps (start p).steps (start p).done = [p.shownText.toList] := by
  obtain ⟨n, -, hhalted⟩ := exists_halted (start p)
  have hleads := (leads_start p).after n
  rw [hhalted] at hleads
  exact hleads.eq_of_halted

end Machine

/-! ## What the machine finds -/

/-- The characters that the machine finds are those of the text by recursion. -/
theorem renderedText_eq (p : Predicate) : p.renderedText = p.shownText.toList :=
  congrArg (fun done => (popText done).1) (Machine.runSteps_start p)

/-- A predicate is rendered as its text by recursion. -/
theorem render_eq (p : Predicate) : p.render = p.shownText := by
  rw [render, renderedText_eq, String.ofList_toList]

/-- The text that the machine finds is that of the predicate by recursion. The machine halts after
at most two steps for each node, with this text and no other, whichever of its states `runSteps` is
asked to go on from. Whenever it puts a node together, the texts of the operands lie on top of the
finished texts, the right one uppermost, and there is an operand. -/
theorem render_runs (p : Predicate) :
    p.render = p.shownText ∧
    (∃ n, n ≤ 2 * p.size ∧ Machine.after n (.start p) = ⟨[], [p.shownText.toList]⟩) ∧
    ∀ n, let m := Machine.after n (.start p)
      runSteps m.steps m.done = [p.shownText.toList] ∧
      ∀ q rest, m.steps = .combine q :: rest → q.operands ≠ [] ∧ ∃ below,
        m.done = (q.operands.map fun operand => operand.shownText.toList).reverse ++ below := by
  refine ⟨render_eq p, ?_, fun n => ⟨?_, fun q rest hcombine => ?_⟩⟩
  · obtain ⟨n, hn, hhalted⟩ := Machine.exists_halted (.start p)
    refine ⟨n, hn, ?_⟩
    rw [hhalted, Machine.runSteps_start]
  · rw [Machine.runSteps_after, Machine.runSteps_start]
  · have hleads := (Machine.leads_start p).after n
    rw [hcombine] at hleads
    cases hleads with
    | combine node found h => exact ⟨node, _, found⟩

/-- A negation of a comparison is put together in six steps. After four of them the comparison finds
the texts of its two operands, and after five the negation finds that of the comparison. -/
theorem render_runs_negation :
    let comparison : Predicate := .comparison .notEqual (.field "tier") (.const (.string "gold"))
    let m (n : Nat) : Machine := .after n (.start (.not comparison))
    render (.not comparison) = "NOT (tier ≠ \"gold\")" ∧
      (m 4).steps = [.combine comparison, .combine (.not comparison)] ∧
      (∃ below, (m 4).done = ["\"gold\"".toList, "tier".toList] ++ below) ∧
      (m 5).steps = [.combine (.not comparison)] ∧
      ∃ below, (m 5).done = ["(tier ≠ \"gold\")".toList] ++ below := by
  intro comparison m
  have hfour : (m 4).steps = [.combine comparison, .combine (.not comparison)] := rfl
  have hfive : (m 5).steps = [.combine (.not comparison)] := rfl
  obtain ⟨htext, -, hstacks⟩ := render_runs (.not comparison)
  obtain ⟨-, hcomparison⟩ := hstacks 4
  obtain ⟨-, hnegation⟩ := hstacks 5
  exact ⟨htext, hfour, (hcomparison _ _ hfour).2, hfive, (hnegation _ _ hfive).2⟩

/-! ## The sign of zero -/

/-- A predicate and the one with its zeros taken as positive have the same text. -/
theorem shownText_canonical (p : Predicate) : p.canonical.shownText = p.shownText := by
  induction p with
  | const value =>
    cases value with
    | number x => exact x.display_canonical
    | _ => rfl
  | field name => rfl
  | arithmetic op left right ihl ihr => rw [canonical, shownText, shownText, ihl, ihr]
  | comparison op left right ihl ihr => rw [canonical, shownText, shownText, ihl, ihr]
  | logical op left right ihl ihr => rw [canonical, shownText, shownText, ihl, ihr]
  | not operand ih => rw [canonical, shownText, shownText, ih]

/-- The rendering of a predicate does not show the sign of zero. -/
theorem render_canonical (p : Predicate) : p.canonical.render = p.render := by
  rw [render_eq, render_eq, shownText_canonical]

end AuditedRules.Predicate
