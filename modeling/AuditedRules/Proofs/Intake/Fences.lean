import AuditedRules.Intake

/-!
# Replies between fences

A reply is cleaned before it is read: fences are dropped wherever they stand, and the white space
around what is left is taken off. A text without a fence goes through the dropping as it is
(`dropFences_eq_self`), also in front of a fence unless it ends in a backquote
(`dropFences_append`). So of a text that is put between fences, with a tag behind the first one,
only blanks are left besides the text, and these do not count (`stripFences_wrap`): the reply gives
what the text by itself would give.

The tag ends where the text begins because a line break stands between them, or because the text
begins with a brace, which no tag has.
-/

namespace AuditedRules

/-! ## Trimming -/

namespace Text

variable {front text back : List Char}

/-- Blanks at the end do not count. -/
theorem trimRight_append (hback : ∀ c ∈ back, isBlank c = true) :
    trimRight (text ++ back) = trimRight text := by
  have hreverse : ∀ c ∈ back.reverse, isBlank c = true := fun c hc =>
    hback c (List.mem_reverse.1 hc)
  unfold trimRight
  rw [List.reverse_append, List.dropWhile_append_of_pos hreverse]

/-- Blanks at either end do not count. -/
theorem trim_append (hfront : ∀ c ∈ front, isBlank c = true)
    (hback : ∀ c ∈ back, isBlank c = true) : trim (front ++ (text ++ back)) = trim text := by
  unfold trim
  rw [List.dropWhile_append_of_pos hfront, List.dropWhile_append]
  split
  · rename_i hempty
    -- There are only blanks.
    have hnone : back.dropWhile isBlank = [] := by
      rw [← List.append_nil back, List.dropWhile_append_of_pos hback, List.dropWhile_nil]
    rw [hnone, List.isEmpty_iff.1 hempty]
  · exact trimRight_append hback

/-- What is trimmed off a text are blanks at its ends. -/
theorem exists_trim (text : List Char) :
    ∃ front back, text = front ++ (trim text ++ back) ∧
      (∀ c ∈ front, isBlank c = true) ∧ ∀ c ∈ back, isBlank c = true := by
  have hblank (cs : List Char) : ∀ c ∈ cs.takeWhile isBlank, isBlank c = true := fun c hc =>
    List.all_eq_true.1 (List.all_takeWhile (p := isBlank) (l := cs)) c hc
  have hright (cs : List Char) : cs = trimRight cs ++ (cs.reverse.takeWhile isBlank).reverse := by
    unfold trimRight
    rw [← List.reverse_append, List.takeWhile_append_dropWhile, List.reverse_reverse]
  refine ⟨text.takeWhile isBlank, ((text.dropWhile isBlank).reverse.takeWhile isBlank).reverse,
    ?_, hblank text, fun c hc => hblank _ c (List.mem_reverse.1 hc)⟩
  unfold trim
  rw [← hright, List.takeWhile_append_dropWhile]

end Text

/-! ## Dropping fences -/

/-- Three backquotes. -/
def fence : List Char := ['\x60', '\x60', '\x60']

section
variable {behindFence : Bool} {c : Char} {front text rest tag : List Char}

/-- A fence is dropped. -/
theorem dropFences_fence (behindFence : Bool) (rest : List Char) :
    dropFences behindFence (fence ++ rest) = dropFences true rest := rfl

/-- Where no fence starts, a letter or a line break may still belong to the fence before it. -/
theorem dropFences_cons (h : ¬ fence <+: c :: rest) :
    dropFences behindFence (c :: rest) =
      if behindFence && c.isLower then dropFences true rest
      else if behindFence && c == '\n' then dropFences false rest
      else c :: dropFences false rest := by
  rw [dropFences]
  rintro others rfl rfl
  exact h ⟨others, rfl⟩

/-- No fence starts where the pattern of one does not match. -/
theorem not_fence_of_no_match
    (h : ∀ others, c = '\x60' → rest = '\x60' :: '\x60' :: others → False) :
    ¬ fence <+: c :: rest := by
  rintro ⟨others, hothers⟩
  cases hothers
  exact h others rfl rfl

/-- Nothing but a backquote starts a fence. -/
theorem not_fence_ahead (h : c ≠ '\x60') : ¬ fence <+: c :: rest := fun hfence =>
  h (List.cons_prefix_cons.1 hfence).1.symm

/-- A character that belongs to no fence and no tag stays. -/
theorem dropFences_kept (hquote : c ≠ '\x60') (hlower : c.isLower = false) (hbreak : c ≠ '\n') :
    dropFences behindFence (c :: rest) = c :: dropFences false rest := by
  have hother : (c == '\n') = false := by simpa using hbreak
  rw [dropFences_cons (not_fence_ahead hquote), hlower, hother]
  simp

/-- A character of a text that does not start a fence stays. -/
theorem dropFences_false_cons (h : ¬ fence <+: c :: rest) :
    dropFences false (c :: rest) = c :: dropFences false rest :=
  dropFences_cons h

/-- Dropping fences adds nothing to a text. -/
theorem dropFences_sublist (behindFence : Bool) (text : List Char) :
    (dropFences behindFence text).Sublist text := by
  fun_induction dropFences behindFence text with
  | case1 _ rest ih => exact ((ih.cons _).cons _).cons _
  | case2 _ c rest _ _ ih => exact ih.cons c
  | case3 _ c rest _ _ _ ih => exact ih.cons c
  | case4 _ c rest _ _ _ ih => exact ih.cons_cons c
  | case5 => exact List.Sublist.slnil

/-- A text without a fence stays as it is. -/
theorem dropFences_eq_self (h : ¬ fence <:+: text) : dropFences false text = text := by
  induction text with
  | nil => rfl
  | cons c text ih =>
    have hrest : ¬ fence <:+: text := fun hfence => h (List.infix_cons hfence)
    rw [dropFences_false_cons fun hfence => h hfence.isInfix, ih hrest]

/-- A text without a fence stays as it is in front of another text, if the two do not make a fence
together. -/
theorem dropFences_append (h : ¬ fence <:+: text) (hlast : text.getLast? ≠ some '\x60') :
    dropFences false (text ++ rest) = text ++ dropFences false rest := by
  induction text with
  | nil => rfl
  | cons c text ih =>
    have hrest : ¬ fence <:+: text := fun hfence => h (List.infix_cons hfence)
    -- A fence that starts here would end in the text, which has none, or go on behind its end.
    have hstart : ¬ fence <+: c :: (text ++ rest) := by
      intro hfence
      obtain ⟨rfl, hsecond⟩ := List.cons_prefix_cons.1 hfence
      rcases text with _ | ⟨d, _ | ⟨e, text⟩⟩
      · exact hlast rfl
      · obtain ⟨rfl, -⟩ := List.cons_prefix_cons.1 hsecond
        exact hlast rfl
      · obtain ⟨rfl, hthird⟩ := List.cons_prefix_cons.1 hsecond
        obtain ⟨rfl, -⟩ := List.cons_prefix_cons.1 hthird
        exact h ⟨[], text, rfl⟩
    have hlast' : text.getLast? ≠ some '\x60' := by
      intro hquote
      cases text with
      | nil => cases hquote
      | cons d text => exact hlast (List.getLast?_cons_cons.trans hquote)
    rw [List.cons_append, dropFences_false_cons hstart, ih hrest hlast']
    rfl

/-- Characters other than backquotes stay in front of anything. -/
theorem dropFences_append_of_not_mem (h : '\x60' ∉ front) :
    dropFences false (front ++ rest) = front ++ dropFences false rest := by
  refine dropFences_append (fun hfence => h ?_) fun hlast => h (List.mem_of_getLast? hlast)
  exact hfence.subset List.mem_cons_self

/-- A tag is dropped with the fence before it. -/
theorem dropFences_tag (htag : ∀ c ∈ tag, c.isLower = true) :
    dropFences true (tag ++ rest) = dropFences true rest := by
  induction tag with
  | nil => rfl
  | cons c tag ih =>
    obtain ⟨hfirst, hothers⟩ := List.forall_mem_cons.1 htag
    have hquote : c ≠ '\x60' := by
      rintro rfl
      cases hfirst
    rw [List.cons_append, dropFences_cons (not_fence_ahead hquote), hfirst]
    exact ih hothers

end

/-! ## Texts between fences -/

/-- A line break, if there is one. -/
def lineBreak (present : Bool) : List Char :=
  if present then ['\n'] else []

/-- How a text is put between fences. -/
structure Wrapping where
  /-- The white space in front of the first fence. -/
  before : List Char
  /-- The tag behind the first fence. -/
  tag : List Char
  /-- A line break stands behind the tag. -/
  breakAfterTag : Bool
  /-- A line break stands behind the text. -/
  breakAfterText : Bool
  /-- The white space behind the last fence. -/
  after : List Char
  /-- Around the fences there is only white space. -/
  before_blank : ∀ c ∈ before, Text.isBlank c = true
  after_blank : ∀ c ∈ after, Text.isBlank c = true
  /-- The tag has only lower-case letters. -/
  tag_lower : ∀ c ∈ tag, c.isLower = true

namespace Wrapping

/-- The text between fences. -/
def wrap (w : Wrapping) (text : List Char) : List Char :=
  w.before ++ (fence ++ (w.tag ++ (lineBreak w.breakAfterTag ++ (text ++
    (lineBreak w.breakAfterText ++ (fence ++ w.after))))))

variable {w : Wrapping} {text rest : List Char}

/-- Behind the tag the text begins, after the line break or with a brace. -/
theorem dropFences_start (hstart : w.breakAfterTag = true ∨ text.head? = some '\x7b') :
    dropFences true (w.tag ++ (lineBreak w.breakAfterTag ++ (text ++ rest))) =
      dropFences false (text ++ rest) := by
  rw [dropFences_tag w.tag_lower]
  cases hbreak : w.breakAfterTag with
  | true => rfl
  | false =>
    rw [hbreak] at hstart
    cases text with
    | nil => exact absurd hstart (by simp)
    | cons c text =>
      have hbrace : c = '\x7b' := by simpa using hstart
      rw [hbrace, lineBreak, if_neg Bool.false_ne_true, List.nil_append, List.cons_append,
        dropFences_kept (by decide) (by decide) (by decide),
        dropFences_kept (by decide) (by decide) (by decide)]

/-- The text ends in front of the last fence, with the line break or without a backquote. -/
theorem dropFences_end (hfree : ¬ fence <:+: text)
    (hend : w.breakAfterText = true ∨ text.getLast? ≠ some '\x60') :
    dropFences false (text ++ (lineBreak w.breakAfterText ++ (fence ++ rest))) =
      text ++ (lineBreak w.breakAfterText ++ dropFences true rest) := by
  cases hbreak : w.breakAfterText with
  | true =>
    have hfree' : ¬ fence <:+: text ++ ['\n'] := by
      rw [List.infix_concat_iff]
      rintro (hsuffix | hinfix)
      · have hlast := hsuffix.getLast (by decide : fence ≠ [])
        rw [List.getLast_concat] at hlast
        exact absurd hlast (by decide)
      · exact hfree hinfix
    have hlast : (text ++ ['\n']).getLast? ≠ some '\x60' := by simp
    have hdrop : dropFences false ((text ++ ['\n']) ++ (fence ++ rest)) =
        (text ++ ['\n']) ++ dropFences true rest := dropFences_append hfree' hlast
    rw [List.append_assoc, List.append_assoc] at hdrop
    exact hdrop
  | false =>
    rw [hbreak] at hend
    exact dropFences_append hfree (hend.resolve_left Bool.false_ne_true)

/-- Of a text between fences the same is left as of the text. -/
theorem stripFences_wrap (hfree : ¬ fence <:+: text)
    (hstart : w.breakAfterTag = true ∨ text.head? = some '\x7b')
    (hend : w.breakAfterText = true ∨ text.getLast? ≠ some '\x60') :
    stripFences (w.wrap text) = stripFences text := by
  have hquote : Text.isBlank '\x60' = false := by decide
  have hbefore : '\x60' ∉ w.before := fun hmem => by
    rw [w.before_blank _ hmem] at hquote
    cases hquote
  have hdrop : dropFences false (w.wrap text) =
      w.before ++ (text ++ (lineBreak w.breakAfterText ++ dropFences true w.after)) := by
    rw [wrap, dropFences_append_of_not_mem hbefore, dropFences_fence, dropFences_start hstart,
      dropFences_end hfree hend]
  have hafter : ∀ c ∈ lineBreak w.breakAfterText ++ dropFences true w.after,
      Text.isBlank c = true := by
    intro c hc
    rcases List.mem_append.1 hc with hc | hc
    · unfold lineBreak at hc
      split at hc
      · rw [List.mem_singleton.1 hc]
        decide
      · cases hc
    · exact w.after_blank c ((dropFences_sublist true w.after).subset hc)
  unfold stripFences
  rw [hdrop, Text.trim_append w.before_blank hafter, dropFences_eq_self hfree]

end Wrapping

namespace CompiledPredicate

/-- A reply that consists of a text between fences gives the predicate or the error that the text
by itself gives, under every limit. The text has no fence in it, and it begins where the tag ends
and ends where the last fence begins. -/
theorem ofReply_wrap (w : Wrapping) {text : String} (hfree : ¬ fence <:+: text.toList)
    (hstart : w.breakAfterTag = true ∨ text.toList.head? = some '\x7b')
    (hend : w.breakAfterText = true ∨ text.toList.getLast? ≠ some '\x60') (limit : Nat) :
    ofReply limit (String.ofList (w.wrap text.toList)) = ofReply limit text := by
  unfold ofReply
  rw [String.toList_ofList, Wrapping.stripFences_wrap hfree hstart hend]

/-- The reply of a compiler with backquotes in a constant, but no three of them in a row. -/
def quotedReply : Json :=
  .object [("ast", .object [("type", .string "const"), ("value", .string "\x60\x60a\x60\x60")])]

/-- The reply with backquotes in its constant gives by itself what it gives between fences on the
same line, with a tag and with white space around. -/
theorem ofReply_wrap_quoted :
    let text := quotedReply.compact
    let w : Wrapping := ⟨[' '], ['j', 's', 'o', 'n'], false, false, ['\n', '\t'],
      List.all_eq_true.1 rfl, List.all_eq_true.1 rfl, List.all_eq_true.1 rfl⟩
    ¬ fence <:+: text.toList ∧ text.toList.head? = some '\x7b' ∧
      text.toList.getLast? ≠ some '\x60' ∧
      ofReply 1 (String.ofList (w.wrap text.toList)) = ofReply 1 text := by
  intro text w
  have htext : text.toList = quotedReply.write [] := String.toList_ofList
  have hfree : ¬ fence <:+: text.toList := by
    rw [htext]
    decide
  have hstart : text.toList.head? = some '\x7b' := by
    rw [htext]
    decide
  have hend : text.toList.getLast? ≠ some '\x60' := by
    rw [htext]
    decide
  exact ⟨hfree, hstart, hend, ofReply_wrap w hfree (.inr hstart) (.inr hend) 1⟩

end CompiledPredicate

end AuditedRules
