import AuditedRules.Proofs.Intake.Fences
import Mathlib.Data.List.DropRight

/-!
# What is left of a reply

A reply that is stripped has no fence in it, and no white space at its ends, so that it is left as
it is when it is stripped again (`stripFences_stripped`). What could be feared is that the texts
before and behind a fence come together to a new one. This does not happen because fences are
dropped from the left: a text that stays in front of a fence does not end in a backquote, as the
fence would have been found there. The proof goes the other way round: the backquotes that what is
left of a text starts with, two at most, are those that the text itself starts with
(`backquotes_prefix`).

Fences are dropped in a single pass, which remembers that a fence has just been passed. This is the
same as a loop that looks for the first fence, keeps what is before it, and goes on behind its tag
(`dropLoop_eq`).
-/

namespace AuditedRules

/-! ## Trimmed texts -/

namespace Text

variable {text : List Char}

/-- There is no white space at either end of a text. -/
structure Trimmed (text : List Char) : Prop where
  /-- The first character is no white space. -/
  first : ∀ c, text.head? = some c → isBlank c = false
  /-- The last character is no white space. -/
  last : ∀ c, text.getLast? = some c → isBlank c = false

/-- Trimming takes nothing off a trimmed text. -/
theorem Trimmed.trim_eq (h : Trimmed text) : trim text = text := by
  have hfirst : text.dropWhile isBlank = text := by
    refine List.dropWhile_eq_self_iff.2 fun hlength => ?_
    rw [h.first _ (List.head?_eq_getElem? .. ▸ List.getElem?_eq_getElem hlength)]
    exact Bool.false_ne_true
  have hlast : text.rdropWhile isBlank = text := by
    refine List.rdropWhile_eq_self_iff.2 fun hne => ?_
    rw [h.last _ (List.getLast?_eq_some_getLast hne)]
    exact Bool.false_ne_true
  unfold trim
  rw [hfirst]
  exact hlast

/-- A text is trimmed by trimming. -/
theorem trimmed_trim (text : List Char) : Trimmed (trim text) := by
  have hprefix : trim text <+: text.dropWhile isBlank := List.rdropWhile_prefix isBlank _
  constructor
  · intro c hc
    -- The first character is the first one that is not skipped.
    obtain ⟨rest, hrest⟩ := hprefix
    have hhead : (text.dropWhile isBlank).head? = some c := by
      rw [← hrest, List.head?_append, hc, Option.some_or]
    have hnot := List.head?_dropWhile_not isBlank text
    rw [hhead] at hnot
    simpa using hnot
  · intro c hc
    have hne : trim text ≠ [] := by
      rintro hempty
      rw [hempty] at hc
      cases hc
    have hnot := List.rdropWhile_last_not isBlank (text.dropWhile isBlank) hne
    rw [List.getLast?_eq_some_getLast hne, Option.some.injEq] at hc
    rw [← hc]
    exact Bool.eq_false_iff.2 hnot

end Text

/-! ## No fence is left -/

section
variable {c : Char} {text rest : List Char}

/-- The backquotes that what is left of a text starts with, as long as they make no fence, are those
that the text starts with. -/
theorem backquotes_prefix {n : Nat} (hn : n ≤ 2)
    (h : List.replicate n '\x60' <+: dropFences false text) : List.replicate n '\x60' <+: text := by
  induction n generalizing text with
  | zero => exact List.nil_prefix
  | succ n ih =>
    by_cases hfence : fence <+: text
    · have hshort : List.replicate (n + 1) '\x60' <+: fence := by
        obtain rfl | rfl : n = 0 ∨ n = 1 := by omega
        · decide
        · decide
      exact hshort.trans hfence
    · cases text with
      | nil => exact h
      | cons c rest =>
        rw [dropFences_false_cons hfence, List.replicate_succ, List.cons_prefix_cons] at h
        obtain ⟨rfl, hrest⟩ := h
        rw [List.replicate_succ, List.cons_prefix_cons]
        exact ⟨rfl, ih (by omega) hrest⟩

/-- A character that stays does not start a fence in what is left. -/
theorem not_fence_kept (h : ¬ fence <+: c :: rest) : ¬ fence <+: c :: dropFences false rest := by
  intro hfence
  obtain ⟨rfl, hbehind⟩ := List.cons_prefix_cons.1 hfence
  exact h (List.cons_prefix_cons.2 ⟨rfl, backquotes_prefix (Nat.le_refl 2) hbehind⟩)

/-- No fence is left of a text. -/
theorem not_fence_infix_dropFences (behindFence : Bool) (text : List Char) :
    ¬ fence <:+: dropFences behindFence text := by
  fun_induction dropFences behindFence text with
  | case1 _ rest ih => exact ih
  | case2 _ c rest _ _ ih => exact ih
  | case3 _ c rest _ _ _ ih => exact ih
  | case4 _ c rest hstart _ _ ih =>
    rw [List.infix_cons_iff]
    exact not_or.2 ⟨not_fence_kept (not_fence_of_no_match hstart), ih⟩
  | case5 => decide

end

/-! ## The loop -/

/-- The text before the first fence, and the text behind it. -/
def cutAtFence? : List Char → Option (List Char × List Char)
  | '\x60' :: '\x60' :: '\x60' :: rest => some ([], rest)
  | c :: rest => (cutAtFence? rest).map fun (front, back) => (c :: front, back)
  | [] => none

/-- The text behind the tag that a text starts with, and behind the line break after it. -/
def behindTag (text : List Char) : List Char :=
  match text.dropWhile Char.isLower with
  | '\n' :: rest => rest
  | rest => rest

section
variable {c : Char} {text front back rest : List Char}

/-- Where no fence starts, the first fence is the first one behind. -/
theorem cutAtFence?_cons (h : ¬ fence <+: c :: rest) :
    cutAtFence? (c :: rest) = (cutAtFence? rest).map fun (front, back) => (c :: front, back) := by
  rw [cutAtFence?]
  rintro others rfl rfl
  exact h ⟨others, rfl⟩

/-- A text is cut when there is a fence in it. -/
theorem cutAtFence?_eq_none_iff : cutAtFence? text = none ↔ ¬ fence <:+: text := by
  fun_induction cutAtFence? text with
  | case1 rest => simpa using ⟨[], rest, rfl⟩
  | case2 c rest hstart ih =>
    rw [Option.map_eq_none_iff, ih, List.infix_cons_iff,
      or_iff_right (not_fence_of_no_match hstart)]
  | case3 => decide

/-- Where a text is cut there is a fence, and none starts before it. -/
theorem cutAtFence?_eq_some (h : cutAtFence? text = some (front, back)) :
    text = front ++ (fence ++ back) ∧ ¬ fence <:+: front ++ ['\x60', '\x60'] := by
  induction text generalizing front with
  | nil => cases h
  | cons c rest ih =>
    by_cases hfence : fence <+: c :: rest
    · obtain ⟨others, hothers⟩ := hfence
      cases hothers
      cases h
      exact ⟨rfl, by decide⟩
    · rw [cutAtFence?_cons hfence, Option.map_eq_some_iff] at h
      obtain ⟨⟨inner, behind⟩, hcut, hpair⟩ := h
      cases hpair
      obtain ⟨rfl, hfirst⟩ := ih hcut
      refine ⟨rfl, ?_⟩
      rw [List.cons_append, List.infix_cons_iff, not_or]
      have hpair : ['\x60', '\x60'] <+: fence ++ back := ⟨'\x60' :: back, rfl⟩
      have hbefore : c :: (inner ++ ['\x60', '\x60']) <+: c :: (inner ++ (fence ++ back)) :=
        (List.prefix_cons_inj c).2 ((List.prefix_append_right_inj inner).2 hpair)
      exact ⟨fun hstart => hfence (hstart.trans hbefore), hfirst⟩

/-- Behind a tag less is left. -/
theorem length_behindTag_le (text : List Char) : (behindTag text).length ≤ text.length := by
  have hle := (List.dropWhile_sublist Char.isLower (l := text)).length_le
  unfold behindTag
  split
  · rename_i rest hrest
    rw [hrest, List.length_cons] at hle
    omega
  · exact hle

/-- Each turn of the loop leaves a shorter text. -/
theorem length_behindTag_lt (h : cutAtFence? text = some (front, back)) :
    (behindTag back).length < text.length := by
  obtain ⟨rfl, -⟩ := cutAtFence?_eq_some h
  have hle := length_behindTag_le back
  simp only [List.length_append, fence, List.length_cons]
  omega

end

/-- Looks for the first fence, writes what is before it, and goes on behind its tag. -/
def dropLoop (written text : List Char) : List Char :=
  match _ : cutAtFence? text with
  | some (front, back) => dropLoop (written ++ front) (behindTag back)
  | none => written ++ text
termination_by text.length
decreasing_by exact length_behindTag_lt ‹cutAtFence? text = _›

section
variable {text front back : List Char}

/-- Up to the first fence a text stays, and its tag is dropped with the fence. -/
theorem dropFences_of_cut (h : cutAtFence? text = some (front, back)) :
    dropFences false text = front ++ dropFences true back := by
  obtain ⟨rfl, hfirst⟩ := cutAtFence?_eq_some h
  have hfree : ¬ fence <:+: front := fun hfence => hfirst (hfence.trans (List.infix_append_left ..))
  -- A backquote at the end would make a fence with two of those that follow.
  have hlast : front.getLast? ≠ some '\x60' := by
    intro hquote
    obtain ⟨init, rfl⟩ := List.getLast?_eq_some_iff.1 hquote
    exact hfirst ⟨init, [], by simp [fence]⟩
  rw [dropFences_append hfree hlast, dropFences_fence]

/-- What stands behind a fence is dropped up to where the text goes on. -/
theorem dropFences_true (text : List Char) :
    dropFences true text = dropFences false (behindTag text) := by
  induction text with
  | nil => rfl
  | cons c rest ih =>
    by_cases hfence : fence <+: c :: rest
    · obtain ⟨others, hothers⟩ := hfence
      cases hothers
      rfl
    · rw [dropFences_cons hfence]
      unfold behindTag
      rw [List.dropWhile_cons]
      cases hlower : c.isLower with
      | true => exact ih
      | false =>
        by_cases hbreak : c = '\n'
        · subst hbreak
          rfl
        · simp [hbreak, dropFences_false_cons hfence]

/-- The loop writes what a single pass leaves of the text. -/
theorem dropLoop_eq (written text : List Char) :
    dropLoop written text = written ++ dropFences false text := by
  fun_induction dropLoop written text with
  | case1 written text front back hcut ih =>
    rw [ih, dropFences_of_cut hcut, dropFences_true, List.append_assoc]
  | case2 written text hcut =>
    rw [dropFences_eq_self (cutAtFence?_eq_none_iff.1 hcut)]

end

/-! ## Stripped replies -/

/-- Trimming leaves a part of a text. -/
theorem Text.trim_infix (text : List Char) : trim text <:+: text := by
  obtain ⟨front, back, htext, -⟩ := exists_trim text
  exact ⟨front, back, by rw [List.append_assoc, ← htext]⟩

/-- No fence is left of a reply. -/
theorem not_fence_infix_stripFences (raw : List Char) : ¬ fence <:+: stripFences raw :=
  fun hfence => not_fence_infix_dropFences false raw (hfence.trans (Text.trim_infix _))

/-- The texts that are stripped already are those without a fence and without white space at their
ends. -/
theorem stripFences_eq_self_iff {text : List Char} :
    stripFences text = text ↔ ¬ fence <:+: text ∧ Text.Trimmed text := by
  constructor
  · intro h
    rw [← h]
    exact ⟨not_fence_infix_stripFences text, Text.trimmed_trim _⟩
  · rintro ⟨hfree, htrimmed⟩
    rw [stripFences, dropFences_eq_self hfree, htrimmed.trim_eq]

/-- What is left of any reply has no fence in it and no white space at its ends, and so it is left
as it is when it is stripped again. It is what the loop that looks for one fence after the other
writes, without the white space around it. -/
theorem stripFences_stripped (raw : List Char) :
    ¬ fence <:+: stripFences raw ∧ Text.Trimmed (stripFences raw) ∧
      stripFences (stripFences raw) = stripFences raw ∧
      stripFences raw = Text.trim (dropLoop [] raw) := by
  have hfree := not_fence_infix_stripFences raw
  have htrimmed : Text.Trimmed (stripFences raw) := Text.trimmed_trim _
  refine ⟨hfree, htrimmed, stripFences_eq_self_iff.2 ⟨hfree, htrimmed⟩, ?_⟩
  rw [dropLoop_eq, List.nil_append, stripFences]

end AuditedRules
