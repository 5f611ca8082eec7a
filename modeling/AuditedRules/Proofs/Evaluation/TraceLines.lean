import AuditedRules.Proofs.Evaluation.FirstFailure
import AuditedRules.Proofs.Json.NumberText
import AuditedRules.Proofs.Trace.TreeText

/-!
# Lines of a trace

The text of a trace is meant to have one line for each entry (`Trace.OneLinePerEntry`). An entry is
written with its label and its value as they are, so it is on a line of its own exactly when there
is no line break in either: counting the line breaks of the text shows that there is none to spare
(`Trace.oneLinePerEntry_iff`).

Labels and numbers have no line break of their own. What is left are the texts from outside that
come to be shown: the names of fields, string constants, strings of the context, and names in the
messages of errors, or the whole of a text that is no JSON. A line break in one of them breaks the
line of an entry, and nothing else does (`evaluate_oneLinePerEntry`).
-/

namespace AuditedRules

/-! ## Numbers -/

/-- A digit is no line break. -/
theorem ne_lineBreak_of_isDigit {c : Char} (h : c.isDigit = true) : c ≠ '\n' := by
  rintro rfl
  cases h

namespace NumberStyle

/-- The digits of a number have no line break. -/
theorem lineBreak_not_mem_digitsOf (n : Nat) : '\n' ∉ digitsOf n := fun h =>
  ne_lineBreak_of_isDigit (isDigit_of_mem_digitsOf h) rfl

/-- An integer has no line break. -/
theorem lineBreak_not_mem_integer (i : Int) : '\n' ∉ integer i := by
  have hdigits := lineBreak_not_mem_digitsOf i.natAbs
  unfold integer
  split
  · simp [hdigits]
  · exact hdigits

/-- Digits have no line break wherever their point is put. -/
theorem lineBreak_not_mem_placePoint (style : NumberStyle) {digits : List Char}
    (h : '\n' ∉ digits) (lead : Int) : '\n' ∉ style.placePoint digits lead := by
  have htake : '\n' ∉ digits.take lead.toNat := fun hmem => h (List.mem_of_mem_take hmem)
  have hdrop : '\n' ∉ digits.drop lead.toNat := fun hmem => h (List.mem_of_mem_drop hmem)
  unfold placePoint
  split
  · simp [h]
  · split
    · simp [htake, hdrop]
    · split <;> simp [h]

/-- A number that is shown without an exponent has no line break. -/
theorem lineBreak_not_mem_shown (negative : Bool) (units : Nat) :
    '\n' ∉ shown.finite negative units := by
  have hmagnitude : '\n' ∉ shown.magnitude units := by
    unfold magnitude
    split
    · decide
    · exact lineBreak_not_mem_placePoint shown (lineBreak_not_mem_digitsOf _) _
  unfold finite
  split
  · simp [hmagnitude]
  · exact hmagnitude

end NumberStyle

/-- A number is displayed without a line break. -/
theorem Binary64.lineBreak_not_mem_display (x : Binary64) : '\n' ∉ x.display.toList := by
  unfold display
  split
  · rw [String.toList_ofList]
    exact NumberStyle.lineBreak_not_mem_integer _
  · cases x with
    | nan => decide
    | infinity negative => cases negative <;> decide
    | finite negative units representable =>
      dsimp only
      rw [String.toList_ofList]
      exact NumberStyle.lineBreak_not_mem_shown negative units

/-! ## Traces -/

/-- The texts that a value shows as they are. -/
def Value.texts : Value → List String
  | .string s => [s]
  | _ => []

namespace Trace

/-- The only line breaks of a shown value are those of its text. -/
theorem lineBreak_not_mem_valueText_iff {value : Value} :
    '\n' ∉ valueText value ↔ ∀ s ∈ value.texts, '\n' ∉ s.toList := by
  cases value with
  | bool b => cases b <;> decide
  | number x => simp [valueText, Value.display, Value.texts, x.lineBreak_not_mem_display]
  | string s => simp [valueText, Value.texts]

/-- How the line of an entry begins: two spaces for each level, the mark and the label. -/
def lineStart (t : Trace) (level : Nat) : List Char :=
  List.replicate (2 * level) ' ' ++ (marker t.pass ++ t.label.toList)

/-- The lines of a trace, one for each entry. -/
structure LinesAre (t : Trace) (lines : List (List Char)) : Prop where
  /-- The text of the trace consists of the lines, each with a line break behind it. -/
  text : t.renderTree.toList = lines.flatMap (· ++ ['\n'])
  /-- No line has a line break in it. -/
  whole : ∀ line ∈ lines, '\n' ∉ line
  /-- There are as many lines as entries. -/
  count : lines.length = t.nodeCount
  /-- A line begins as that of the entry in the same place. -/
  begins : ∀ (k : Nat) (line : List Char) (entry : Trace) (level : Nat), lines[k]? = some line →
    (t.entriesFrom 0)[k]? = some (entry, level) → entry.lineStart level <+: line

/-- The text of a trace has one line for each entry. -/
def OneLinePerEntry (t : Trace) : Prop :=
  ∃ lines, t.LinesAre lines

/-- The texts in an entry that may have line breaks. -/
def texts (t : Trace) : List String :=
  t.label :: t.value.texts

/-- The line of an entry without its line break. -/
def lineBody (t : Trace) (level : Nat) : List Char :=
  t.lineStart level ++ (" → ".toList ++ valueText t.value)

/-- A line is its body and a line break. -/
theorem line_eq (t : Trace) (level : Nat) : t.line level = t.lineBody level ++ ['\n'] := by
  simp [line, lineBody, lineStart]

/-- The body of a line has no line break where the texts of its entry have none. -/
theorem lineBreak_not_mem_lineBody_iff {t : Trace} {level : Nat} :
    '\n' ∉ t.lineBody level ↔ ∀ s ∈ t.texts, '\n' ∉ s.toList := by
  have hspaces : '\n' ∉ List.replicate (2 * level) ' ' := fun h => by
    cases List.eq_of_mem_replicate h
  have hmarker : '\n' ∉ marker t.pass := by
    cases t.pass with
    | none => decide
    | some pass => cases pass <;> decide
  have harrow : '\n' ∉ " → ".toList := by decide
  rw [texts, List.forall_mem_cons, ← lineBreak_not_mem_valueText_iff, lineBody, lineStart]
  simp only [List.mem_append, hspaces, hmarker, harrow, false_or, not_or]

/-- The lines of some entries have at least as many line breaks as there are entries, and more if
there is a line break in one of the bodies. -/
theorem length_le_count_lines (entries : List (Trace × Nat)) :
    entries.length ≤ (entries.flatMap fun e => e.1.line e.2).count '\n' ∧
      ((entries.flatMap fun e => e.1.line e.2).count '\n' = entries.length →
        ∀ e ∈ entries, '\n' ∉ e.1.lineBody e.2) := by
  induction entries with
  | nil => simp
  | cons first rest ih =>
    obtain ⟨hle, hfree⟩ := ih
    have hcount :
        (first.1.line first.2).count '\n' = (first.1.lineBody first.2).count '\n' + 1 := by
      rw [line_eq, List.count_append, List.count_singleton_self]
    rw [List.flatMap_cons, List.count_append, hcount, List.length_cons]
    refine ⟨by omega, fun heq => List.forall_mem_cons.2 ⟨?_, hfree (by omega)⟩⟩
    exact List.count_eq_zero.1 (by omega)

/-- Lines without line breaks in them, each with one behind it, have as many as there are lines. -/
theorem count_flatMap_concat {lines : List (List Char)} (h : ∀ line ∈ lines, '\n' ∉ line) :
    (lines.flatMap (· ++ ['\n'])).count '\n' = lines.length := by
  induction lines with
  | nil => rfl
  | cons first rest ih =>
    obtain ⟨hfirst, hrest⟩ := List.forall_mem_cons.1 h
    rw [List.flatMap_cons, List.count_append, ih hrest, List.count_append,
      List.count_eq_zero.2 hfirst, List.count_singleton_self, List.length_cons]
    omega

/-- The text of a trace has one line for each entry exactly when there is no line break in the label
and the value of any entry. -/
theorem oneLinePerEntry_iff {t : Trace} :
    t.OneLinePerEntry ↔ ∀ e ∈ t.entriesFrom 0, ∀ s ∈ e.1.texts, '\n' ∉ s.toList := by
  have htext : t.renderTree.toList = (t.entriesFrom 0).flatMap fun e => e.1.line e.2 := by
    rw [renderTree, String.toList_ofList, treeText_eq]
  have hlength : (t.entriesFrom 0).length = t.nodeCount := by
    rw [length_entriesFrom, nodeCount_eq_size]
  constructor
  · rintro ⟨lines, h⟩ e he
    -- All line breaks are at the ends of the lines, which are as many as the entries.
    have hcount := count_flatMap_concat h.whole
    rw [← h.text, h.count, htext, ← hlength] at hcount
    exact lineBreak_not_mem_lineBody_iff.1 ((length_le_count_lines _).2 hcount e he)
  · intro h
    refine ⟨(t.entriesFrom 0).map fun e => e.1.lineBody e.2, ?_, ?_, ?_, ?_⟩
    · rw [htext, List.flatMap_map]
      exact List.flatMap_congr fun e _ => e.1.line_eq e.2
    · intro line hline
      obtain ⟨e, he, rfl⟩ := List.mem_map.1 hline
      exact lineBreak_not_mem_lineBody_iff.2 (h e he)
    · rw [List.length_map, hlength]
    · intro k line entry level hline hentry
      rw [List.getElem?_map, hentry, Option.map_some, Option.some.injEq] at hline
      rw [← hline]
      exact List.prefix_append _ _

/-- The entry that stands for a failure is on one line when its text is. -/
theorem oneLinePerEntry_leaf_iff {label text : String} (h : '\n' ∉ label.toList) :
    (leaf label (.string text)).OneLinePerEntry ↔ '\n' ∉ text.toList := by
  rw [oneLinePerEntry_iff, entriesFrom_eq]
  simp [leaf, texts, Value.texts, h]

end Trace

/-! ## Evaluations -/

namespace Predicate

variable {context : Context} {limit levels : Nat} {p : Predicate} {e : Evaluated}

/-- The texts from outside that the entry of a node shows: a string constant, or the name of a field
and the string that the context has for it. -/
def ownTexts (context : Context) : Predicate → List String
  | .const value => value.texts
  | .field name => name :: ((context.get? name).map Value.texts).getD []
  | _ => []

/-- The line breaks in the entry of a node are those of its texts from outside. -/
theorem entry_texts_iff {values : List Value} {value : Value} (children : List Trace)
    (h : p.operate context values = .ok value) :
    (∀ s ∈ (p.entry value children).texts, '\n' ∉ s.toList) ↔
      ∀ s ∈ p.ownTexts context, '\n' ∉ s.toList := by
  show (∀ s ∈ p.label :: value.texts, '\n' ∉ s.toList) ↔ _
  rw [List.forall_mem_cons]
  -- The entry of an operator shows no text from outside, and its label has no line break.
  have hoperator {name kind : String} (hname : '\n' ∉ name.toList) (hkind : '\n' ∉ kind.toList) :
      '\n' ∉ (name ++ kind).toList := by
    rw [String.toList_append, List.mem_append]
    exact not_or.2 ⟨hname, hkind⟩
  cases p with
  | const constant =>
    cases h
    exact and_iff_right (show '\n' ∉ "const".toList by decide)
  | field name =>
    unfold operate at h
    dsimp only at h
    cases hget : context.get? name with
    | none =>
      rw [hget] at h
      cases h
    | some found =>
      rw [hget] at h
      cases h
      simp [label, ownTexts, hget]
  | arithmetic op left right =>
    obtain ⟨x, -, rfl⟩ := map_eq_ok_iff.1 h
    exact iff_of_true ⟨hoperator (by cases op <;> decide) (by decide), List.forall_mem_nil _⟩
      (List.forall_mem_nil _)
  | comparison op left right =>
    obtain ⟨pass, -, rfl⟩ := map_eq_ok_iff.1 h
    exact iff_of_true ⟨hoperator (by cases op <;> decide) (by decide), List.forall_mem_nil _⟩
      (List.forall_mem_nil _)
  | logical op left right =>
    cases h
    exact iff_of_true ⟨hoperator (by cases op <;> decide) (by decide), List.forall_mem_nil _⟩
      (List.forall_mem_nil _)
  | not operand =>
    cases h
    exact iff_of_true ⟨show '\n' ∉ "not (logical)".toList by decide, List.forall_mem_nil _⟩
      (List.forall_mem_nil _)

/-- The line breaks in the entries of a trace are those of the texts that the nodes show. -/
theorem trace_texts_iff (h : evaluateNode context limit levels p = .ok e) (level : Nat) :
    (∀ entry ∈ e.trace.entriesFrom level, ∀ s ∈ entry.1.texts, '\n' ∉ s.toList) ↔
      ∀ q ∈ p.postorder, ∀ s ∈ q.ownTexts context, '\n' ∉ s.toList := by
  induction p using operands_induction generalizing levels e level with
  | node p ih =>
    cases levels with
    | zero => cases h
    | succ levels =>
      obtain ⟨operands, hoperands, hvalue, htrace⟩ := evaluateNode_succ_eq_ok_iff.1 h
      rw [Trace.entriesFrom_eq, postorder_eq, List.forall_mem_cons, List.forall_mem_append,
        List.forall_mem_singleton, htrace, entry_texts_iff _ hvalue, and_comm]
      refine and_congr_left fun _ => ?_
      -- Each operand was evaluated to a trace below the entry, and each of these stems from one.
      constructor
      · intro hbelow q hq
        obtain ⟨operand, hoperand, hq⟩ := List.mem_flatMap.1 hq
        obtain ⟨inner, hinner, hevaluate⟩ := exists_result_of_map_eq hoperands hoperand
        refine (ih operand hoperand hevaluate (level + 1)).1 (fun entry hentry => ?_) q hq
        exact hbelow entry (List.mem_flatMap.2
          ⟨inner.trace, List.mem_map_of_mem hinner, hentry⟩)
      · intro hnodes entry hentry
        obtain ⟨child, hchild, hentry⟩ := List.mem_flatMap.1 hentry
        obtain ⟨inner, hinner, rfl⟩ := List.mem_map.1 hchild
        obtain ⟨operand, hoperand, hevaluate⟩ := exists_item_of_map_eq hoperands hinner
        refine (ih operand hoperand hevaluate (level + 1)).2 (fun q hq => ?_) entry hentry
        exact hnodes q (List.mem_flatMap.2 ⟨operand, hoperand, hq⟩)

end Predicate

/-! ## Failures -/

namespace EvalError

/-- The text in the message of an error that is not fixed: a name that was given, or that of an
operator or an operand. -/
def givenText : EvalError → String
  | .missingField name => name
  | .grammar (.unknownType name) => name
  | .grammar (.unknownOperator _ name) => name
  | .grammar (.missingOperand _ name) => name
  | .typeMismatch op _ _ => op
  | _ => ""

/-- The message of a limit has no line break. -/
theorem lineBreak_not_mem_depthMessage (limit : Nat) : '\n' ∉ (depthMessage limit).toList := by
  have hdigits : '\n' ∉ limit.repr.toList := by
    rw [Nat.toList_repr]
    exact NumberStyle.lineBreak_not_mem_digitsOf limit
  unfold depthMessage
  rw [String.toList_append, List.mem_append]
  exact not_or.2 ⟨by decide, hdigits⟩

/-- A text without line breaks adds none to a text behind it. -/
theorem lineBreak_mem_append_iff {first rest : String} (h : '\n' ∉ first.toList) :
    '\n' ∈ (first ++ rest).toList ↔ '\n' ∈ rest.toList := by
  rw [String.toList_append, List.mem_append]
  exact or_iff_right h

/-- A text without line breaks adds none to a text before it. -/
theorem lineBreak_mem_append_left_iff {first rest : String} (h : '\n' ∉ rest.toList) :
    '\n' ∈ (first ++ rest).toList ↔ '\n' ∈ first.toList := by
  rw [String.toList_append, List.mem_append]
  exact or_iff_left h

/-- Quotes add no line break. -/
theorem lineBreak_mem_inQuotes_iff (text : String) :
    '\n' ∈ (inQuotes text).toList ↔ '\n' ∈ text.toList := by
  simp [inQuotes]

/-- The line breaks in the message of a grammar fault are those of the text in it. -/
theorem lineBreak_mem_faultMessage_iff (fault : GrammarFault) :
    '\n' ∈ fault.message.toList ↔ '\n' ∈ (givenText (.grammar fault)).toList := by
  have hquoted {first name : String} (h : '\n' ∉ first.toList) :
      '\n' ∈ (first ++ inQuotes name).toList ↔ '\n' ∈ name.toList :=
    (lineBreak_mem_append_iff h).trans (lineBreak_mem_inQuotes_iff name)
  have hkind (kind : NodeKind) : '\n' ∉ kind.name.toList := by cases kind <;> decide
  have hbehind (kind : NodeKind) {rest : String} (h : '\n' ∉ rest.toList) :
      '\n' ∉ (kind.name ++ rest).toList := mt (lineBreak_mem_append_iff (hkind kind)).1 h
  cases fault with
  | tooDeep limit =>
    show '\n' ∈ (depthMessage limit).toList ↔ '\n' ∈ "".toList
    exact iff_of_false (lineBreak_not_mem_depthMessage limit) (by decide)
  | notAnObject found =>
    exact (lineBreak_mem_append_iff (by decide)).trans (by cases found <;> decide)
  | missingType => exact (hquoted (by decide)).trans (by decide)
  | unknownType name => exact hquoted (by decide)
  | noConstant => decide
  | noFieldName => exact (hquoted (by decide)).trans (by decide)
  | missingOperator kind =>
    have hnone : '\n' ∈ "op".toList ↔ '\n' ∈ "".toList := by decide
    exact (hquoted (hbehind kind (by decide))).trans hnone
  | unknownOperator kind name =>
    have hunknown : '\n' ∉ ("unknown " ++ kind.name).toList :=
      mt (lineBreak_mem_append_left_iff (hkind kind)).1 (by decide)
    exact hquoted (mt (lineBreak_mem_append_left_iff (by decide)).1 hunknown)
  | missingOperand kind name => exact hquoted (hbehind kind (by decide))
  | secondOperand =>
    have hnot : '\n' ∉ (inQuotes "not").toList := mt (lineBreak_mem_inQuotes_iff _).1 (by decide)
    have hright : '\n' ∉ (inQuotes "right").toList :=
      mt (lineBreak_mem_inQuotes_iff _).1 (by decide)
    refine (lineBreak_mem_append_left_iff (by decide)).trans ?_
    refine (lineBreak_mem_append_left_iff hright).trans ?_
    exact (lineBreak_mem_append_left_iff (by decide)).trans (iff_of_false hnot (by decide))

/-- The line breaks in a message are those of the text in it. -/
theorem lineBreak_mem_message_iff (e : EvalError) :
    '\n' ∈ e.message.toList ↔ '\n' ∈ e.givenText.toList := by
  cases e with
  | unreadable => decide
  | grammar fault =>
    exact (lineBreak_mem_append_iff (by decide)).trans (lineBreak_mem_faultMessage_iff fault)
  | missingField name =>
    have hquoted : '\n' ∈ ("Field " ++ inQuotes name).toList ↔ '\n' ∈ name.toList :=
      (lineBreak_mem_append_iff (by decide)).trans (lineBreak_mem_inQuotes_iff name)
    exact (lineBreak_mem_append_left_iff (by decide)).trans hquoted
  | divisionByZero => decide
  | typeMismatch op left right =>
    have hop : '\n' ∈ ("Type mismatch: '" ++ op).toList ↔ '\n' ∈ op.toList :=
      lineBreak_mem_append_iff (by decide)
    have htype (type : ValueType) : '\n' ∉ type.name.toList := by cases type <;> decide
    refine (lineBreak_mem_append_left_iff (htype right)).trans ?_
    refine (lineBreak_mem_append_left_iff (by decide)).trans ?_
    refine (lineBreak_mem_append_left_iff (htype left)).trans ?_
    exact (lineBreak_mem_append_left_iff (by decide)).trans hop
  | depthExceeded limit =>
    show '\n' ∈ (depthMessage limit).toList ↔ '\n' ∈ "".toList
    exact iff_of_false (lineBreak_not_mem_depthMessage limit) (by decide)

end EvalError

/-! ## Results -/

/-- The trace of a failure has one line when the text in the message has. -/
theorem EvalResult.failure_oneLinePerEntry_iff (e : EvalError) :
    (failure e).trace.OneLinePerEntry ↔ '\n' ∉ e.givenText.toList := by
  rw [← e.lineBreak_mem_message_iff]
  exact Trace.oneLinePerEntry_leaf_iff (by decide)

/-- The texts from outside that the trace of an evaluation shows: those of all nodes, or the one in
the message of the failure. -/
def Predicate.shownTexts (context : Context) (limit : Nat) (p : Predicate) : List String :=
  match p.tryEvaluate context limit with
  | .ok _ => p.postorder.flatMap (ownTexts context)
  | .error e => [e.givenText]

/-- The trace of an evaluation has one line for each entry when there is no line break in a text
from outside that it shows. -/
theorem Predicate.evaluate_oneLinePerEntry_iff {context : Context} {limit : Nat} {p : Predicate} :
    (p.evaluate context limit).trace.OneLinePerEntry ↔
      ∀ s ∈ p.shownTexts context limit, '\n' ∉ s.toList := by
  unfold evaluate shownTexts
  cases hevaluate : p.tryEvaluate context limit with
  | ok e =>
    show e.trace.OneLinePerEntry ↔ ∀ s ∈ p.postorder.flatMap (ownTexts context), '\n' ∉ s.toList
    rw [Trace.oneLinePerEntry_iff, trace_texts_iff hevaluate, List.forall_mem_flatMap]
  | error e =>
    show (EvalResult.failure e).trace.OneLinePerEntry ↔ ∀ s ∈ [e.givenText], '\n' ∉ s.toList
    rw [EvalResult.failure_oneLinePerEntry_iff, List.forall_mem_singleton]

/-- The text of a trace has one line for each entry exactly when there is no line break in any text
from outside that it shows. These are the names of fields, the string constants and the strings of
the context for an evaluation that succeeds, a name in the message for one that fails, and the text
itself where it is no JSON. -/
theorem evaluate_oneLinePerEntry (context : Context) (limit : Nat) :
    (∀ p : Predicate, (p.evaluate context limit).trace.OneLinePerEntry ↔
      ∀ s ∈ p.shownTexts context limit, '\n' ∉ s.toList) ∧
    (∀ ast : Json, (evaluateJson ast context limit).trace.OneLinePerEntry ↔
      match Predicate.ofJson limit ast with
      | .ok p => ∀ s ∈ p.shownTexts context limit, '\n' ∉ s.toList
      | .error e => '\n' ∉ e.givenText.toList) ∧
    ∀ text : String, (evaluateText text context limit).trace.OneLinePerEntry ↔
      match Predicate.ofText limit text with
      | .ok p => ∀ s ∈ p.shownTexts context limit, '\n' ∉ s.toList
      | .error .unreadable => '\n' ∉ text.toList
      | .error e => '\n' ∉ e.givenText.toList := by
  refine ⟨fun p => Predicate.evaluate_oneLinePerEntry_iff, fun ast => ?_, fun text => ?_⟩
  · unfold evaluateJson
    cases Predicate.ofJson limit ast with
    | ok p => exact Predicate.evaluate_oneLinePerEntry_iff
    | error e => exact EvalResult.failure_oneLinePerEntry_iff e
  · have hlabel : '\n' ∉ "parse error".toList := by decide
    unfold evaluateText
    cases Predicate.ofText limit text with
    | ok p => exact Predicate.evaluate_oneLinePerEntry_iff
    | error e =>
      cases e with
      | unreadable => exact Trace.oneLinePerEntry_leaf_iff hlabel
      | _ => exact EvalResult.failure_oneLinePerEntry_iff _

/-- The single entry of a string constant with a line break in it takes two lines. -/
theorem constant_takes_two_lines :
    ¬ ((Predicate.const (.string "a\nb")).evaluate .empty defaultLimit).trace.OneLinePerEntry := by
  have hlabel : '\n' ∉ "const".toList := by decide
  intro h
  exact (Trace.oneLinePerEntry_leaf_iff hlabel).1 h (by decide)

end AuditedRules
