import AuditedRules.Context

/-!
# Traces

The trace of an evaluation is a tree with one entry for each node of the predicate. An entry has a
label, the value that the node was found to have, for nodes that decide something their outcome, and
the entries of the operands, left before right.

Entries are counted and shown by walks with an explicit stack, so no depth of nesting is too much.
-/

namespace AuditedRules

/-- An entry of a trace, with the entries below it. -/
structure Trace where
  /-- What the entry is about, for instance `field: invoice_amount`. -/
  label : String
  /-- The value of the node. -/
  value : Value
  /-- The outcome of a node that decides something. -/
  pass : Option Bool
  /-- The entries of the operands. -/
  children : List Trace

namespace Trace

instance : Inhabited Trace := ⟨⟨"", default, none, []⟩⟩

/-- An entry without operands. -/
def leaf (label : String) (value : Value) : Trace :=
  ⟨label, value, none, []⟩

/-- The entry of a node that computes a value from those of its operands. -/
def computed (label : String) (value : Value) (children : List Trace) : Trace :=
  ⟨label, value, none, children⟩

/-- The entry of a node that decides something; its value is its outcome. -/
def decision (label : String) (pass : Bool) (children : List Trace) : Trace :=
  ⟨label, .bool pass, some pass, children⟩

/-- The entry that stands for an evaluation that failed. -/
def failed (message : String) : Trace :=
  leaf "error" (.string message)

/-- The entry that stands for a text that could not be read; its value is the text. -/
def unread (text : String) : Trace :=
  leaf "parse error" (.string text)

/-- A trace has no entries below its first one. -/
def isLeaf (t : Trace) : Bool :=
  t.children.isEmpty

/-! ## Size -/

mutual

/-- The number of entries. -/
def size : Trace → Nat
  | ⟨_, _, _, children⟩ => sizes children + 1

/-- The number of entries of a list of traces. -/
def sizes : List Trace → Nat
  | [] => 0
  | t :: rest => size t + sizes rest

end

/-- The entries of two lists of traces. -/
theorem sizes_append (a b : List Trace) : sizes (a ++ b) = sizes a + sizes b := by
  induction a with
  | nil => simp [sizes]
  | cons t rest ih => simp [sizes, ih, Nat.add_assoc]

/-- A trace has one entry more than what is below its first one. -/
theorem size_eq (t : Trace) : t.size = sizes t.children + 1 := by
  cases t
  simp [size]

/-- The number of entries counted so far and of those on the stack. -/
def countOnto (stack : List Trace) (count : Nat) : Nat :=
  match stack with
  | [] => count
  | t :: rest => countOnto (t.children ++ rest) (count + 1)
termination_by sizes stack
decreasing_by
  simp [sizes, sizes_append, size_eq]

/-- The number of entries, counted by a walk. -/
def nodeCount (t : Trace) : Nat :=
  countOnto [t] 0

/-! ## Text -/

/-- The mark of an outcome. -/
def marker : Option Bool → List Char
  | some true => ['✓', ' ']
  | some false => ['✗', ' ']
  | none => []

/-- The value of an entry as text; strings stand in quotes. -/
def valueText : Value → List Char
  | .string s => '"' :: (s.toList ++ ['"'])
  | value => value.display.toList

/-- The text of one entry at a level, up to the end of its line. -/
def line (t : Trace) (level : Nat) : List Char :=
  List.replicate (2 * level) ' ' ++
    (marker t.pass ++ (t.label.toList ++ (" → ".toList ++ (valueText t.value ++ ['\n']))))

/-- The lines of the entries on the stack, each of which comes with its level, after the lines in
`written`, which holds them in reverse order. -/
def linesOnto (stack : List (Trace × Nat)) (written : List (List Char)) : List (List Char) :=
  match stack with
  | [] => written.reverse
  | (t, level) :: rest =>
    linesOnto (t.children.map (fun child => (child, level + 1)) ++ rest) (t.line level :: written)
termination_by sizes (stack.map (·.1))
decreasing_by
  simp [sizes, sizes_append, size_eq, Function.comp_def]

/-- The lines of all entries, indented by two spaces a level. -/
def treeText (t : Trace) : List Char :=
  (linesOnto [(t, 0)] []).flatten

/-- The lines of all entries, as one text. -/
def renderTree (t : Trace) : String :=
  String.ofList t.treeText

/-! ## Documents -/

mutual

/-- The JSON form of a trace, its members in the order of the fields. An outcome that is not there
is left out. -/
def toJson : Trace → Json
  | ⟨label, value, pass, children⟩ =>
    .object (("label", .string label) :: ("value", value.toJson) ::
      ((pass.map fun b => ("pass", Json.bool b)).toList ++
        [("children", .array (toJsons children))]))

/-- The JSON forms of a list of traces. -/
def toJsons : List Trace → List Json
  | [] => []
  | t :: rest => toJson t :: toJsons rest

end

/-- Reads a trace of at most so many levels of entries. -/
def decoderWithin : Nat → Decoder Trace
  | 0 => fun _ _ _ => .error .tooDeep
  | bound + 1 => .record "TraceNode"
    [.required "label" .text fun label t => { t with label },
      .required "value" Value.decoder fun value t => { t with value },
      .defaulted "pass" (.optional .boolean) fun pass t => { t with pass },
      .defaulted "children" (.list (decoderWithin bound)) fun children t => { t with children }]
    default

/-- Reads a trace. A document has no more levels of entries than it has levels. -/
def decoder : Decoder Trace := fun format levels document =>
  decoderWithin (levels + 1) format levels document

end Trace

end AuditedRules
