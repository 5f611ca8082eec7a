import AuditedRules.Proofs.Json.NumberText
import AuditedRules.Proofs.Predicate.Rendering

/-!
# Different predicates are shown differently

People approve a rule by the text of its predicate, so the text must say which predicate it is. It
does where the names are identifiers other than the words that are shown for operators and truth
values, the strings have no quotation mark and the numbers are finite (`Legible`). Such a text can
be read back, by a reader that looks at the first character of each part and, where that is a
letter, at the whole word (`takeInfix`).

The text of an operand does not say where it ends, but what comes after it does: nothing, a blank or
a closing parenthesis, none of which continues a word or a number. So the invariant of reading is
about a text before any rest that ends a word (`takeInfix_shownText`). What is read is the predicate
up to the sign of zeros, which is not shown.
-/

namespace AuditedRules

/-! ## Identifiers -/

/-- A letter without accents or an underscore. -/
def startsIdentifier (c : Char) : Bool :=
  c.isAlpha || c == '_'

/-- A letter without accents, a digit or an underscore. -/
def inIdentifier (c : Char) : Bool :=
  c.isAlphanum || c == '_'

/-- A letter or underscore, and then letters, digits and underscores. -/
def isIdentifier (name : String) : Bool :=
  match name.toList with
  | [] => false
  | first :: rest => startsIdentifier first && rest.all inIdentifier

/-- What starts an identifier may also stand in it. -/
theorem inIdentifier_of_starts {c : Char} (h : startsIdentifier c = true) :
    inIdentifier c = true := by
  simp only [startsIdentifier, inIdentifier, Char.isAlphanum, Bool.or_eq_true] at h ⊢
  exact h.imp_left .inl

/-- An identifier starts with a letter or an underscore, and all its characters are such as may
stand in it. -/
theorem exists_of_isIdentifier {name : String} (h : isIdentifier name = true) :
    ∃ first rest, name.toList = first :: rest ∧ startsIdentifier first = true ∧
      ∀ c ∈ name.toList, inIdentifier c = true := by
  unfold isIdentifier at h
  split at h
  · cases h
  · next first rest hname =>
    obtain ⟨hfirst, hrest⟩ := Bool.and_eq_true_iff.1 h
    refine ⟨first, rest, hname, hfirst, ?_⟩
    rw [hname, List.forall_mem_cons]
    exact ⟨inIdentifier_of_starts hfirst, List.all_eq_true.1 hrest⟩

/-- No digit starts an identifier. -/
theorem isDigit_of_starts {c : Char} (h : startsIdentifier c = true) : c.isDigit = false := by
  rcases (Bool.or_eq_true _ _).mp h with halpha | hunderscore
  · refine Bool.eq_false_iff.2 fun hdigit => ?_
    -- The code points of the digits come before those of the letters.
    have hnine : c.val ≤ '9'.val := of_decide_eq_true (Bool.and_eq_true_iff.1 hdigit).2
    rcases (Bool.or_eq_true c.isUpper c.isLower).mp halpha with hupper | hlower
    · have hletter : 'A'.val ≤ c.val := (of_decide_eq_true hupper).1
      exact absurd (UInt32.le_trans hletter hnine) (by decide)
    · have hletter : 'a'.val ≤ c.val := of_decide_eq_true (Bool.and_eq_true_iff.1 hlower).1
      exact absurd (UInt32.le_trans hletter hnine) (by decide)
  · rw [eq_of_beq hunderscore]
    rfl

/-! ## What can be read -/

/-- The words that are shown for operators and truth values. -/
def shownWords : List String :=
  ["NOT", "AND", "OR", "true", "false"]

/-- A string has no quotation mark, and a number is finite. -/
def Value.Legible : Value → Prop
  | .bool _ => True
  | .number x => x.isFinite
  | .string s => '"' ∉ s.toList

namespace Predicate

/-- All constants are legible, and all names are identifiers other than the words that are shown. -/
def Legible : Predicate → Prop
  | .const value => value.Legible
  | .field name => isIdentifier name ∧ name ∉ shownWords
  | .arithmetic _ left right => left.Legible ∧ right.Legible
  | .comparison _ left right => left.Legible ∧ right.Legible
  | .logical _ left right => left.Legible ∧ right.Legible
  | .not operand => operand.Legible

/-- The constants of a legible predicate are finite. -/
theorem Legible.constantsFinite {p : Predicate} (h : p.Legible) : p.ConstantsFinite := by
  induction p with
  | const value =>
    cases value with
    | number x => exact h
    | _ => trivial
  | field name => trivial
  | arithmetic op left right ihl ihr => exact ⟨ihl h.1, ihr h.2⟩
  | comparison op left right ihl ihr => exact ⟨ihl h.1, ihr h.2⟩
  | logical op left right ihl ihr => exact ⟨ihl h.1, ihr h.2⟩
  | not operand ih => exact ih h

/-! ## Words -/

/-- A blank or a closing parenthesis. -/
def endsWord (c : Char) : Bool :=
  c == ' ' || c == ')'

/-- A text does not continue a word: it is at its end, or there is a blank or a closing parenthesis
next. -/
def EndsWord (rest : List Char) : Prop :=
  ∀ c ∈ rest.head?, endsWord c = true

/-- A blank or a closing parenthesis does not continue a word. -/
theorem endsWord_cons {c : Char} (h : endsWord c = true) (rest : List Char) :
    EndsWord (c :: rest) := by
  intro c' hc'
  cases hc'
  exact h

/-- What does not continue a word does not continue a number. -/
theorem EndsWord.endsNumber {rest : List Char} (h : EndsWord rest) : Json.EndsNumber rest := by
  intro c hc
  have hends := h c hc
  simp only [endsWord, Bool.or_eq_true, beq_iff_eq] at hends
  rcases hends with rfl | rfl <;> decide

/-- A text without blanks and closing parentheses. -/
def isWord (text : String) : Bool :=
  text.toList.all fun c => !endsWord c

/-- An identifier is a word. -/
theorem isWord_of_isIdentifier {name : String} (h : isIdentifier name = true) :
    isWord name = true := by
  obtain ⟨-, -, -, -, hall⟩ := exists_of_isIdentifier h
  refine List.all_eq_true.2 fun c hc => ?_
  have hin := hall c hc
  rw [Bool.not_eq_true', ← Bool.not_eq_true]
  intro hends
  simp only [endsWord, Bool.or_eq_true, beq_iff_eq] at hends
  rcases hends with rfl | rfl <;> cases hin

/-- The word at the front of a text, and the text after it. -/
def takeWord (text : List Char) : String × List Char :=
  (String.ofList (text.takeWhile fun c => !endsWord c), text.dropWhile fun c => !endsWord c)

/-- A word is taken in full where the text does not continue it. -/
theorem takeWord_append {word : String} {rest : List Char} (hword : isWord word = true)
    (hrest : EndsWord rest) : takeWord (word.toList ++ rest) = (word, rest) := by
  have hrun : ∀ c ∈ word.toList, (!endsWord c) = true := List.all_eq_true.1 hword
  have hends : ∀ c ∈ rest.head?, (!endsWord c) = false := fun c hc => by rw [hrest c hc]; rfl
  unfold takeWord
  rw [takeWhile_run hrun hends, dropWhile_run hrun hends, String.ofList_toList]

/-! ## Reading -/

/-- Reads a given character. -/
def expect (c : Char) : List Char → Option (List Char)
  | [] => none
  | first :: rest => if first = c then some rest else none

/-- The node with two operands that is shown with a word between them. -/
def ofOperator? (word : String) : Option (Predicate → Predicate → Predicate) :=
  ((ArithmeticOp.all.find? fun op => op.name == word).map arithmetic).or
    (((ComparisonOp.all.find? fun op => op.symbol == word).map comparison).or
      ((LogicalOp.all.find? fun op => op.word == word).map logical))

/-- Reads an operator between blanks. -/
def takeOperator (text : List Char) :
    Option ((Predicate → Predicate → Predicate) × List Char) := do
  let (word, rest) := takeWord (← expect ' ' text)
  let rest ← expect ' ' rest
  let node ← ofOperator? word
  some (node, rest)

/-- Reads a string after its opening quotation mark. -/
def takeQuoted (text : List Char) : Option (Predicate × List Char) := do
  let rest ← expect '"' (text.dropWhile (· != '"'))
  some (.const (.string (.ofList (text.takeWhile (· != '"')))), rest)

/-- Reads a number whose first character is given. -/
def takeShownNumber (c : Char) (text : List Char) : Option (Predicate × List Char) :=
  match Json.takeToken 0 c text with
  | some (.number (some n), rest) => some (.const (.number n.toBinary64), rest)
  | _ => none

/-- The leaf that is shown as a word. -/
def ofWord (word : String) : Predicate :=
  if word = "true" then .const (.bool true)
  else if word = "false" then .const (.bool false)
  else .field word

/-- Reads a predicate of a limited number of levels from the front of a text, and gives the text
after it. -/
def takeInfix : Nat → List Char → Option (Predicate × List Char)
  | 0, _ => none
  | _, [] => none
  | levels + 1, c :: text =>
    -- The first character tells nodes with two operands, strings and numbers from each other and
    -- from all words; among the words only the negation is not a leaf.
    if c = '(' then do
      let (left, rest) ← takeInfix levels text
      let (node, rest) ← takeOperator rest
      let (right, rest) ← takeInfix levels rest
      let rest ← expect ')' rest
      some (node left right, rest)
    else if c = '"' then takeQuoted text
    else if Json.startsNumber c then takeShownNumber c text
    else
      let (word, rest) := takeWord (c :: text)
      if word = "NOT" then do
        let (operand, rest) ← takeInfix levels (← expect ' ' rest)
        some (.not operand, rest)
      else some (ofWord word, rest)

/-! ## Reading back -/

/-- The given character is read. -/
theorem expect_cons (c : Char) (rest : List Char) : expect c (c :: rest) = some rest :=
  if_pos rfl

/-- The operator on numbers is found by its sign. -/
theorem ofOperator?_name (op : ArithmeticOp) : ofOperator? op.name = some (.arithmetic op) := by
  cases op <;> rfl

/-- The operator that compares is found by its sign for people. -/
theorem ofOperator?_symbol (op : ComparisonOp) : ofOperator? op.symbol = some (.comparison op) := by
  cases op <;> rfl

/-- The operator on truth values is found by its word for people. -/
theorem ofOperator?_word (op : LogicalOp) : ofOperator? op.word = some (.logical op) := by
  cases op <;> rfl

/-- What stands for a node is read between blanks. -/
theorem takeOperator_append {word : String} {node : Predicate → Predicate → Predicate}
    (hnode : ofOperator? word = some node) (hword : isWord word = true)
    (rest : List Char) :
    takeOperator (' ' :: (word.toList ++ ' ' :: rest)) = some (node, rest) := by
  have htake := takeWord_append hword (endsWord_cons (c := ' ') rfl rest)
  simp only [takeOperator, expect_cons, htake, hnode, Option.bind_eq_bind, Option.bind_some]

/-- A node with two operands is read where its operands are. -/
theorem takeInfix_infixText {levels : Nat} {left right : List Char} {word : String}
    {node : Predicate → Predicate → Predicate} {l r : Predicate}
    (hleft : ∀ rest, EndsWord rest → takeInfix levels (left ++ rest) = some (l, rest))
    (hright : ∀ rest, EndsWord rest → takeInfix levels (right ++ rest) = some (r, rest))
    (hnode : ofOperator? word = some node) (hword : isWord word = true)
    (rest : List Char) :
    takeInfix (levels + 1) (infixText left word right ++ rest) = some (node l r, rest) := by
  have htext : infixText left word right ++ rest =
      '(' :: (left ++ ' ' :: (word.toList ++ ' ' :: (right ++ ')' :: rest))) := by
    simp [infixText]
  rw [htext, takeInfix, if_pos rfl, hleft _ (endsWord_cons rfl _)]
  simp only [Option.bind_eq_bind, Option.bind_some, takeOperator_append hnode hword,
    hright _ (endsWord_cons (c := ')') rfl rest), expect_cons]

/-- A word is read as a whole. -/
theorem takeInfix_identifier {levels : Nat} (word : String) (h : isIdentifier word = true)
    {rest : List Char} (hrest : EndsWord rest) :
    takeInfix (levels + 1) (word.toList ++ rest) =
      if word = "NOT" then do
        let (operand, rest) ← takeInfix levels (← expect ' ' rest)
        some (.not operand, rest)
      else some (ofWord word, rest) := by
  obtain ⟨first, more, hfirst, hstarts, -⟩ := exists_of_isIdentifier h
  have htake := takeWord_append (isWord_of_isIdentifier h) hrest
  have hopen : first ≠ '(' := by rintro rfl; cases hstarts
  have hquote : first ≠ '"' := by rintro rfl; cases hstarts
  have hnumber : ¬Json.startsNumber first = true := by
    intro hnumber
    rcases (Bool.or_eq_true _ _).mp hnumber with hminus | hdigit
    · rw [eq_of_beq hminus] at hstarts
      cases hstarts
    · rw [isDigit_of_starts hstarts] at hdigit
      cases hdigit
  rw [hfirst, List.cons_append] at htake ⊢
  rw [takeInfix, if_neg hopen, if_neg hquote, if_neg hnumber, htake]

/-- A legible constant is read with a zero taken as positive. -/
theorem takeInfix_constantText {levels : Nat} {value : Value} (h : value.Legible)
    {rest : List Char} (hrest : EndsWord rest) :
    takeInfix (levels + 1) (constantText value ++ rest) = some (.const value.canonical, rest) := by
  cases value with
  | bool b =>
    cases b with
    | true => exact takeInfix_identifier "true" rfl hrest
    | false => exact takeInfix_identifier "false" rfl hrest
  | string s =>
    have htext : constantText (.string s) ++ rest = '"' :: (s.toList ++ '"' :: rest) := by
      simp [constantText]
    have hrun : ∀ c ∈ s.toList, (c != '"') = true := fun c hc =>
      bne_iff_ne.2 fun hquote => h (hquote ▸ hc)
    have hends : ∀ c ∈ ('"' :: rest).head?, (c != '"') = false := by
      rintro c ⟨⟩
      rfl
    rw [htext, takeInfix, if_neg (by decide), if_pos rfl, takeQuoted, takeWhile_run hrun hends,
      dropWhile_run hrun hends, expect_cons, String.ofList_toList]
    rfl
  | number x =>
    -- The number that is read stands for the constant, and starts like no other one.
    obtain ⟨c, more, n, htext, hstarts, htoken, hvalue⟩ :=
      Json.exists_takeToken_display h hrest.endsNumber
    have hopen : c ≠ '(' := by rintro rfl; cases hstarts
    have hquote : c ≠ '"' := by rintro rfl; cases hstarts
    have hread : takeInfix (levels + 1) (c :: (more ++ rest)) =
        some (.const (.number n.toBinary64), rest) := by
      rw [takeInfix, if_neg hopen, if_neg hquote, if_pos hstarts, takeShownNumber, htoken 0]
    show takeInfix _ (x.display.toList ++ rest) = some (.const (.number x.canonical), rest)
    rw [htext, ← hvalue]
    exact hread

/-- The text of a legible predicate is read as the predicate, with zeros taken as positive, where
what comes after it ends a word. -/
theorem takeInfix_shownText {p : Predicate} (h : p.Legible) {levels : Nat}
    (hlevels : p.height ≤ levels) {rest : List Char} (hrest : EndsWord rest) :
    takeInfix levels (p.shownText.toList ++ rest) = some (p.canonical, rest) := by
  -- The rest varies, since a left operand is read before its operator and a right one before the
  -- closing parenthesis.
  induction p generalizing levels rest with
  | const value =>
    obtain ⟨below, rfl, -⟩ := exists_levels hlevels
    rw [toList_shownText_const]
    exact takeInfix_constantText h hrest
  | field name =>
    obtain ⟨below, rfl, -⟩ := exists_levels hlevels
    obtain ⟨hidentifier, hshown⟩ := h
    simp only [shownWords, List.mem_cons, List.not_mem_nil, or_false, not_or] at hshown
    obtain ⟨hnot, -, -, htrue, hfalse⟩ := hshown
    rw [shownText, takeInfix_identifier name hidentifier hrest, if_neg hnot, ofWord, if_neg htrue,
      if_neg hfalse]
    rfl
  | arithmetic op left right ihl ihr =>
    obtain ⟨below, rfl, hfits⟩ := exists_levels hlevels
    rw [toList_shownText_arithmetic]
    exact takeInfix_infixText (fun _ => ihl h.1 (hfits left (.head _)))
      (fun _ => ihr h.2 (hfits right (.tail _ (.head _))))
      (ofOperator?_name op) (by cases op <;> rfl) rest
  | comparison op left right ihl ihr =>
    obtain ⟨below, rfl, hfits⟩ := exists_levels hlevels
    rw [toList_shownText_comparison]
    exact takeInfix_infixText (fun _ => ihl h.1 (hfits left (.head _)))
      (fun _ => ihr h.2 (hfits right (.tail _ (.head _))))
      (ofOperator?_symbol op) (by cases op <;> rfl) rest
  | logical op left right ihl ihr =>
    obtain ⟨below, rfl, hfits⟩ := exists_levels hlevels
    rw [toList_shownText_logical]
    exact takeInfix_infixText (fun _ => ihl h.1 (hfits left (.head _)))
      (fun _ => ihr h.2 (hfits right (.tail _ (.head _))))
      (ofOperator?_word op) (by cases op <;> rfl) rest
  | not operand ih =>
    obtain ⟨below, rfl, hfits⟩ := exists_levels hlevels
    have htext : negationText operand.shownText.toList ++ rest =
        "NOT".toList ++ ' ' :: (operand.shownText.toList ++ rest) := rfl
    rw [toList_shownText_not, htext, takeInfix_identifier "NOT" rfl (endsWord_cons rfl _),
      if_pos rfl, expect_cons]
    simp only [Option.bind_eq_bind, Option.bind_some, ih h (hfits operand (.head _)) hrest,
      canonical]

/-! ## Equality -/

/-- **No two different predicates are shown alike.** Two legible predicates have the same text
exactly when they are equal, and then they are the same tree up to the sign of zeros. -/
theorem render_eq_render_iff {a b : Predicate} (ha : a.Legible) (hb : b.Legible) :
    (a.render = b.render ↔ a.strictEq b = true) ∧
      (a.render = b.render ↔ a.canonical = b.canonical) := by
  have hcanonical : a.render = b.render ↔ a.canonical = b.canonical := by
    constructor
    · intro h
      have htext : a.shownText = b.shownText := by
        rw [← render_eq, ← render_eq]
        exact h
      have hend : EndsWord [] := fun _ hc => by cases hc
      -- Both texts are the same, so the same is read from them.
      have hreadA := takeInfix_shownText ha (Nat.le_max_left a.height b.height) hend
      have hreadB := takeInfix_shownText hb (Nat.le_max_right a.height b.height) hend
      rw [htext, hreadB] at hreadA
      exact (Prod.mk.inj (Option.some.inj hreadA)).1.symm
    · intro h
      rw [← render_canonical a, h, render_canonical]
  exact ⟨hcanonical.trans (strictEq_iff_canonical_eq ha.constantsFinite).symm, hcanonical⟩

/-- A difference of zero from a field is shown in the same way for both zeros. Its text is not that
of the difference of the string with the same digit. -/
theorem render_difference_of_zero :
    let difference (value : Value) : Predicate := .arithmetic .sub (.field "total") (.const value)
    let negative := difference (.number (.zero true))
    let positive := difference (.number (.zero false))
    let text := difference (.string "0")
    (negative.Legible ∧ positive.Legible ∧ text.Legible) ∧
      negative.render = positive.render ∧ positive.render ≠ text.render := by
  intro difference negative positive text
  have hname : isIdentifier "total" = true ∧ "total" ∉ shownWords := by decide
  have hnegative : negative.Legible := ⟨hname, rfl⟩
  have hpositive : positive.Legible := ⟨hname, rfl⟩
  have hquote : '"' ∉ "0".toList := by decide
  have htext : text.Legible := ⟨hname, hquote⟩
  refine ⟨⟨hnegative, hpositive, htext⟩, ?_, fun h => ?_⟩
  · exact (render_eq_render_iff hnegative hpositive).1.2 rfl
  · have hequal : positive.strictEq text = true := (render_eq_render_iff hpositive htext).1.1 h
    cases hequal

end Predicate

end AuditedRules
