import AuditedRules.Trace

/-!
# The text of a trace by recursion

`Trace.renderTree` walks a trace with an explicit stack and writes a line for each entry that it
takes off. `entriesFrom` lists the entries by recursion, each with its level and before the entries
below it, and `shownFrom` is the text by recursion. The walk writes the lines of the listed entries
in their order (`treeText_eq`), which is this text (`shownFrom_eq`).

The invariant of the walk speaks of an arbitrary stack: what is still to be written are the lines of
the entries of all traces on the stack, one trace after the other (`linesOnto_eq`).
-/

namespace AuditedRules.Trace

variable {t : Trace} {level : Nat}

/-! ## Entries -/

mutual

/-- The entries of a trace whose first one is on a level, each with its own level and before those
below it. -/
def entriesFrom (level : Nat) : Trace → List (Trace × Nat)
  | ⟨label, value, pass, children⟩ =>
    (⟨label, value, pass, children⟩, level) :: entriesBelow (level + 1) children

/-- The entries of several traces on one level, one trace after the other. -/
def entriesBelow (level : Nat) : List Trace → List (Trace × Nat)
  | [] => []
  | t :: rest => entriesFrom level t ++ entriesBelow level rest

end

/-- The entries of several traces are those of each of them. -/
theorem entriesBelow_eq (level : Nat) (ts : List Trace) :
    entriesBelow level ts = ts.flatMap (entriesFrom level) := by
  induction ts with
  | nil => rfl
  | cons t rest ih => rw [entriesBelow, ih, List.flatMap_cons]

/-- The first entry comes before those of the traces below it, which are one level further down. -/
theorem entriesFrom_eq (level : Nat) (t : Trace) :
    t.entriesFrom level = (t, level) :: t.children.flatMap (entriesFrom (level + 1)) := by
  rw [← entriesBelow_eq]
  cases t
  rfl

mutual

/-- A trace has as many entries as its size says. -/
theorem length_entriesFrom (level : Nat) : ∀ t : Trace, (t.entriesFrom level).length = t.size
  | ⟨label, value, pass, children⟩ => by
    rw [entriesFrom, List.length_cons, length_entriesBelow, size]

/-- There are as many entries of several traces as their sizes say. -/
theorem length_entriesBelow (level : Nat) :
    ∀ ts : List Trace, (entriesBelow level ts).length = sizes ts
  | [] => rfl
  | t :: rest => by
    rw [entriesBelow, List.length_append, length_entriesFrom level t,
      length_entriesBelow level rest, sizes]

end

/-! ## The walk -/

/-- Entries that are put onto a stack with the proof that they stand below a trace are put there as
they are. -/
theorem map_attach_children (t : Trace) (level : Nat) :
    (t.children.attach.map fun child => (child.1, level)) =
      t.children.map fun child => (child, level) :=
  List.attach_map_val (f := fun child => (child, level))

/-- The walk writes the lines of the entries of the traces on the stack, one after the other. -/
theorem linesOnto_eq (stack : List (Trace × Nat)) (written : List (List Char)) :
    linesOnto stack written =
      written.reverse ++
        (stack.flatMap fun e => e.1.entriesFrom e.2).map fun e => e.1.line e.2 := by
  fun_induction linesOnto stack written with
  | case1 written => simp
  | case2 written t level rest ih =>
    have hchildren : (t.children.map fun child => (child, level + 1)).flatMap
        (fun e => e.1.entriesFrom e.2) = t.children.flatMap (entriesFrom (level + 1)) :=
      List.flatMap_map ..
    rw [map_attach_children] at ih
    rw [ih, List.flatMap_append, hchildren, List.flatMap_cons, entriesFrom_eq]
    simp

/-- The text of a trace consists of the lines of its entries. -/
theorem treeText_eq (t : Trace) :
    t.treeText = (t.entriesFrom 0).flatMap fun e => e.1.line e.2 := by
  rw [treeText, linesOnto_eq, List.flatMap_cons, List.flatMap_nil, List.append_nil,
    List.reverse_nil, List.nil_append, List.flatMap_def]

/-! ## The text by recursion -/

mutual

/-- The text of a trace whose first entry is on a level: two spaces for each level, the mark, the
label and the value of the entry, and after the end of the line the texts of the traces below. -/
def shownFrom (level : Nat) : Trace → List Char
  | ⟨label, value, pass, children⟩ =>
    List.replicate (2 * level) ' ' ++ marker pass ++ label.toList ++ " → ".toList ++
      valueText value ++ ['\n'] ++ shownBelow (level + 1) children

/-- The texts of several traces on one level. -/
def shownBelow (level : Nat) : List Trace → List Char
  | [] => []
  | t :: rest => shownFrom level t ++ shownBelow level rest

end

mutual

/-- The text by recursion consists of the lines of the entries. -/
theorem shownFrom_eq (level : Nat) :
    ∀ t : Trace, t.shownFrom level = (t.entriesFrom level).flatMap fun e => e.1.line e.2
  | ⟨label, value, pass, children⟩ => by
    rw [shownFrom, entriesFrom, List.flatMap_cons, shownBelow_eq (level + 1) children]
    simp [line]

/-- The texts of several traces consist of the lines of their entries. -/
theorem shownBelow_eq (level : Nat) :
    ∀ ts : List Trace,
      shownBelow level ts = (entriesBelow level ts).flatMap fun e => e.1.line e.2
  | [] => rfl
  | t :: rest => by
    rw [shownBelow, entriesBelow, List.flatMap_append, shownFrom_eq level t,
      shownBelow_eq level rest]

end

/-- The text that the walk writes is the text by recursion. -/
theorem treeText_eq_shownFrom (t : Trace) : t.treeText = t.shownFrom 0 := by
  rw [treeText_eq, shownFrom_eq]

end AuditedRules.Trace
