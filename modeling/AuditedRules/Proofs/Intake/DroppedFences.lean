import AuditedRules.Proofs.Intake.Fences
import AuditedRules.Proofs.Json.ReadTexts

/-!
# Dropping fences from JSON text

Fences are dropped from a reply before anything is known of its structure. In a text that can be
read a backquote stands only between the quotes of a string, so fences are there and nowhere else:
all other lexemes and the blanks between them stay. Of a string the characters are left that are no
fence and belong to none, and they spell a text again (`Spells.exists_dropFences`). So what is left
of the text can be read, and it says the same with fewer characters in its names and strings
(`Writes.exists_stripFences`). A fence that is written with escapes is not seen and stays.
-/

namespace AuditedRules

/-! ## Characters -/

section
variable {behindFence : Bool} {c : Char} {front text rest : List Char}

/-- A fence in front of a character that is no backquote does not reach it. -/
theorem fence_ahead_of_append_cons (hquote : c ≠ '\x60') (h : fence <+: front ++ c :: rest) :
    fence <+: front := by
  rcases front with _ | ⟨a, _ | ⟨b, _ | ⟨d, front⟩⟩⟩
  · exact absurd (List.cons_prefix_cons.1 h).1.symm hquote
  · obtain ⟨-, h⟩ := List.cons_prefix_cons.1 h
    exact absurd (List.cons_prefix_cons.1 h).1.symm hquote
  · obtain ⟨-, h⟩ := List.cons_prefix_cons.1 h
    obtain ⟨-, h⟩ := List.cons_prefix_cons.1 h
    exact absurd (List.cons_prefix_cons.1 h).1.symm hquote
  · obtain ⟨hfirst, h⟩ := List.cons_prefix_cons.1 h
    obtain ⟨hsecond, h⟩ := List.cons_prefix_cons.1 h
    obtain ⟨hthird, -⟩ := List.cons_prefix_cons.1 h
    exact ⟨front, by rw [← hfirst, ← hsecond, ← hthird]; rfl⟩

/-- What is dropped in front of a character that belongs to no fence and to no tag does not depend
on what follows. -/
theorem dropFences_append_cons (hquote : c ≠ '\x60') (hlower : c.isLower = false)
    (hbreak : c ≠ '\n') :
    dropFences behindFence (front ++ c :: rest) =
      dropFences behindFence front ++ c :: dropFences false rest := by
  -- Where no fence starts in front of the character, none starts in the whole text.
  have hcons {d : Char} {front : List Char}
      (h : ∀ others, d = '\x60' → front = '\x60' :: '\x60' :: others → False) (behindFence : Bool) :
      dropFences behindFence (d :: (front ++ c :: rest)) =
        if behindFence && d.isLower then dropFences true (front ++ c :: rest)
        else if behindFence && d == '\n' then dropFences false (front ++ c :: rest)
        else d :: dropFences false (front ++ c :: rest) :=
    dropFences_cons fun hfence => not_fence_of_no_match h
      (show fence <+: d :: front from fence_ahead_of_append_cons hquote hfence)
  fun_induction dropFences behindFence front with
  | case1 _ front ih => exact ih
  | case2 _ d front hnot hletter ih =>
    rw [List.cons_append, hcons hnot, if_pos hletter]
    exact ih
  | case3 _ d front hnot hletter hline ih =>
    rw [List.cons_append, hcons hnot, if_neg hletter, if_pos hline]
    exact ih
  | case4 _ d front hnot hletter hline ih =>
    rw [List.cons_append, hcons hnot, if_neg hletter, if_neg hline, ih]
    rfl
  | case5 => exact dropFences_kept hquote hlower hbreak

/-- Backquotes are dropped from a text with a fence. -/
theorem count_dropFences_lt (h : fence <:+: text) :
    (dropFences behindFence text).count '\x60' < text.count '\x60' := by
  have hbehind {c : Char} {rest : List Char}
      (hnot : ∀ others, c = '\x60' → rest = '\x60' :: '\x60' :: others → False)
      (h : fence <:+: c :: rest) : fence <:+: rest :=
    (List.infix_cons_iff.1 h).resolve_left (not_fence_of_no_match hnot)
  fun_induction dropFences behindFence text with
  | case1 _ rest ih =>
    -- Three of them are dropped here, and none is added behind.
    have hle := (dropFences_sublist true rest).count_le '\x60'
    simp only [List.count_cons_self]
    omega
  | case2 _ c rest hnot _ ih =>
    exact Nat.lt_of_lt_of_le (ih (hbehind hnot h)) List.count_le_count_cons
  | case3 _ c rest hnot _ _ ih =>
    exact Nat.lt_of_lt_of_le (ih (hbehind hnot h)) List.count_le_count_cons
  | case4 _ c rest hnot _ _ ih =>
    rw [List.count_cons, List.count_cons]
    exact Nat.add_lt_add_right (ih (hbehind hnot h)) _
  | case5 => exact absurd h (by decide)

/-- A backquote is no white space, so none is trimmed. -/
theorem Text.count_trim (text : List Char) :
    (Text.trim text).count '\x60' = text.count '\x60' := by
  obtain ⟨front, back, htext, hfront, hback⟩ := Text.exists_trim text
  have hnone {blank : List Char} (h : ∀ c ∈ blank, Text.isBlank c = true) :
      blank.count '\x60' = 0 :=
    List.count_eq_zero.2 fun hmem => absurd (h _ hmem) (by decide)
  have hcount := congrArg (List.count '\x60') htext
  rw [List.count_append, List.count_append, hnone hfront, hnone hback] at hcount
  omega

/-- A reply is only trimmed if and only if it has no fence. -/
theorem stripFences_eq_trim_iff : stripFences text = Text.trim text ↔ ¬ fence <:+: text := by
  unfold stripFences
  constructor
  · intro hsame hfence
    have hcount := congrArg (List.count '\x60') hsame
    rw [Text.count_trim, Text.count_trim] at hcount
    exact absurd hcount (Nat.ne_of_lt (count_dropFences_lt hfence))
  · intro hfree
    rw [dropFences_eq_self hfree]

end

namespace Json

/-! ## Characters of strings -/

section
variable {raw cs : List Char}

/-- A backquote between quotes stands for itself. -/
theorem Spells.of_backquote (h : Spells ('\x60' :: raw) cs) :
    ∃ others, Spells raw others ∧ cs = '\x60' :: others := by
  generalize hwhole : '\x60' :: raw = whole at h
  cases h with
  | nil => cases hwhole
  | char _ _ _ rest =>
    obtain ⟨rfl, rfl⟩ := List.cons.inj hwhole
    exact ⟨_, rest, rfl⟩
  | letter _ _ => exact absurd (List.cons.inj hwhole).1 (by decide)
  | digits _ _ _ => exact absurd (List.cons.inj hwhole).1 (by decide)

/-- A fence between quotes stands for itself. -/
theorem Spells.of_fence (h : Spells (fence ++ raw) cs) :
    ∃ others, Spells raw others ∧ cs = fence ++ others := by
  obtain ⟨second, hsecond, rfl⟩ := h.of_backquote
  obtain ⟨third, hthird, rfl⟩ := hsecond.of_backquote
  obtain ⟨others, hothers, rfl⟩ := hthird.of_backquote
  exact ⟨others, hothers, rfl⟩

/-- Fences dropped from characters between quotes leave characters that stand for a text. -/
theorem Spells.exists_dropFences (h : Spells raw cs) (behindFence : Bool) :
    ∃ cs', Spells (dropFences behindFence raw) cs' := by
  -- A fence takes three characters at once, so the induction is on the length.
  induction hlength : raw.length using Nat.strong_induction_on generalizing raw cs behindFence with
  | _ n ih =>
    subst hlength
    cases h with
    | nil => exact ⟨[], .nil⟩
    | @char c raw cs quote backslash control rest =>
      by_cases hfence : fence <+: c :: raw
      · -- The fence stands for itself, and what follows it is spelled by itself.
        obtain ⟨others, hfence⟩ := hfence
        have hspells : Spells (fence ++ others) (c :: cs) := by
          rw [hfence]
          exact .char quote backslash control rest
        obtain ⟨cs, hothers, -⟩ := hspells.of_fence
        have hshorter : others.length < (c :: raw).length := by
          rw [← hfence, List.length_append]
          exact Nat.lt_add_of_pos_left (by decide)
        rw [← hfence, dropFences_fence]
        exact ih others.length hshorter hothers true rfl
      · rw [dropFences_cons hfence]
        split
        · exact ih raw.length (Nat.lt_succ_self _) rest true rfl
        obtain ⟨cs', hleft⟩ := ih raw.length (Nat.lt_succ_self _) rest false rfl
        split
        · exact ⟨cs', hleft⟩
        · exact ⟨c :: cs', .char quote backslash control hleft⟩
    | @letter letter c raw cs escape rest =>
      -- Neither the backslash nor the letter starts a fence or belongs to one.
      have hletter : ¬ fence <+: letter :: raw :=
        not_fence_ahead (ne_backquote_of_shortEscape? escape)
      have hshorter : raw.length < ('\\' :: letter :: raw).length :=
        Nat.lt_succ_of_lt (Nat.lt_succ_self _)
      obtain ⟨cs', hleft⟩ := ih raw.length hshorter rest false rfl
      rw [dropFences_kept (by decide) (by decide) (by decide), dropFences_false_cons hletter]
      exact ⟨c :: cs', .letter escape hleft⟩
    | @digits digits c raw cs backquote escape rest =>
      have hshorter : raw.length < ('\\' :: 'u' :: (digits ++ raw)).length := by
        rw [List.length_cons, List.length_cons, List.length_append]
        omega
      obtain ⟨cs', hleft⟩ := ih raw.length hshorter rest false rfl
      rw [dropFences_kept (by decide) (by decide) (by decide),
        dropFences_false_cons (not_fence_ahead (by decide)),
        dropFences_append_of_not_mem backquote]
      exact ⟨c :: cs', .digits backquote escape hleft⟩

end

/-- The second text is spelled by what is left between the quotes of the first one when fences are
dropped from there. -/
def TextLosesFences (s s' : String) : Prop :=
  ∃ raw, Spells raw s.toList ∧ Spells (dropFences false raw) s'.toList

/-! ## Values -/

mutual

/-- The second value is the first one with fences lost from its names and strings. -/
inductive LosesFences : Json → Json → Prop
  | null : LosesFences .null .null
  | bool (b : Bool) : LosesFences (.bool b) (.bool b)
  | number (n : DocumentNumber) : LosesFences (.number n) (.number n)
  | string {s s' : String} (text : TextLosesFences s s') : LosesFences (.string s) (.string s')
  | array {items items' : List Json} (values : List.Forall₂ LosesFences items items') :
    LosesFences (.array items) (.array items')
  | object {members members' : List (String × Json)}
      (values : List.Forall₂ MemberLosesFences members members') :
    LosesFences (.object members) (.object members')

/-- The second member is the first one with fences lost from its name and from its value. -/
inductive MemberLosesFences : String × Json → String × Json → Prop
  | mk {name name' : String} {v v' : Json} (text : TextLosesFences name name')
      (value : LosesFences v v') : MemberLosesFences (name, v) (name', v')

end

/-- What is so of all items on the left and carried over is so of all items on the right. -/
theorem forall_mem_of_forall₂ {α β : Type} {r : α → β → Prop} {p : α → Prop} {q : β → Prop}
    {front : List α} {back : List β} (h : List.Forall₂ r front back) (hp : ∀ a ∈ front, p a)
    (hq : ∀ a b, r a b → p a → q b) : ∀ b ∈ back, q b := by
  induction h with
  | nil => exact fun b hb => absurd hb List.not_mem_nil
  | cons hfirst _ ih =>
    obtain ⟨ha, hothers⟩ := List.forall_mem_cons.1 hp
    exact List.forall_mem_cons.2 ⟨hq _ _ hfirst ha, ih hothers⟩

/-- A value that has lost fences has no more levels than before. -/
theorem LosesFences.nesting_le {v v' : Json} {levels : Nat} (h : v.LosesFences v')
    (hv : v.nesting ≤ levels) : v'.nesting ≤ levels := by
  induction levels generalizing v v' with
  | zero =>
    cases h with
    | array _ => exact absurd hv (Nat.not_succ_le_zero _)
    | object _ => exact absurd hv (Nat.not_succ_le_zero _)
    | _ => exact hv
  | succ levels ih =>
    cases h with
    | array values =>
      rw [nesting_array_le_iff] at hv ⊢
      exact forall_mem_of_forall₂ values hv fun _ _ hitem => ih hitem
    | object values =>
      rw [nesting_object_le_iff] at hv ⊢
      refine forall_mem_of_forall₂ values hv fun _ _ hmember => ?_
      cases hmember with
      | mk _ value => exact ih value
    | _ => exact hv

/-! ## Tokens -/

/-- The second token is the first one, apart from a string, which loses fences. -/
def Token.LosesFences : Token → Token → Prop
  | .string (some s), token' => ∃ s', token' = .string (some s') ∧ TextLosesFences s s'
  | token, token' => token' = token

/-- A token that is no string loses no fences. -/
theorem Token.LosesFences.refl {token : Token} (h : ∀ s, token ≠ .string s) :
    token.LosesFences token := by
  cases token with
  | string s => exact absurd rfl (h s)
  | _ => rfl

section
variable {token : Token} {s : String} {rest tokens : List Token}

/-- If the first of some tokens is no string, what is left of the tokens starts with the same one.
-/
theorem exists_of_cons (hother : ∀ s, token ≠ .string s)
    (h : List.Forall₂ Token.LosesFences (token :: rest) tokens) :
    ∃ rest', tokens = token :: rest' ∧ List.Forall₂ Token.LosesFences rest rest' := by
  obtain ⟨token', rest', htoken, hrest, rfl⟩ := List.forall₂_cons_left_iff.1 h
  have hsame : token' = token := by
    cases token with
    | string s => exact absurd rfl (hother s)
    | _ => exact htoken
  exact ⟨rest', by rw [hsame], hrest⟩

/-- In front of what is left a string that has lost fences stands. -/
theorem exists_of_string_cons
    (h : List.Forall₂ Token.LosesFences (.string (some s) :: rest) tokens) :
    ∃ s' rest', TextLosesFences s s' ∧ tokens = .string (some s') :: rest' ∧
      List.Forall₂ Token.LosesFences rest rest' := by
  obtain ⟨_, rest', ⟨s', rfl, htext⟩, hrest, rfl⟩ := List.forall₂_cons_left_iff.1 h
  exact ⟨s', rest', htext, rfl, hrest⟩

end

mutual

/-- What is left of the tokens of a value are those of a value that has lost fences. -/
theorem exists_of_tokensOnto : ∀ (v : Json) {rest tokens : List Token},
    List.Forall₂ Token.LosesFences (v.tokensOnto rest) tokens →
      ∃ v' rest', v.LosesFences v' ∧ tokens = v'.tokensOnto rest' ∧
        List.Forall₂ Token.LosesFences rest rest'
  | .null, _, _, h => by
    obtain ⟨rest', rfl, hrest⟩ := exists_of_cons (by simp) h
    exact ⟨.null, rest', .null, rfl, hrest⟩
  | .bool b, _, _, h => by
    obtain ⟨rest', rfl, hrest⟩ := exists_of_cons (by simp) h
    exact ⟨.bool b, rest', .bool b, rfl, hrest⟩
  | .number n, _, _, h => by
    obtain ⟨rest', rfl, hrest⟩ := exists_of_cons (by simp) h
    exact ⟨.number n, rest', .number n, rfl, hrest⟩
  | .string s, _, _, h => by
    obtain ⟨s', rest', htext, rfl, hrest⟩ := exists_of_string_cons h
    exact ⟨.string s', rest', .string htext, rfl, hrest⟩
  | .array [], _, _, h => by
    obtain ⟨_, rfl, hclose⟩ := exists_of_cons (by simp) h
    obtain ⟨rest', rfl, hrest⟩ := exists_of_cons (by simp) hclose
    exact ⟨.array [], rest', .array .nil, rfl, hrest⟩
  | .array (item :: items), _, _, h => by
    rw [tokensOnto] at h
    -- The bracket stays, and each item loses its own fences.
    obtain ⟨_, rfl, hfirst⟩ := exists_of_cons (by simp) h
    obtain ⟨item', _, hitem, rfl, hothers⟩ := exists_of_tokensOnto item hfirst
    obtain ⟨items', rest', hitems, rfl, hrest⟩ := exists_of_itemTokens items hothers
    exact ⟨.array (item' :: items'), rest', .array (.cons hitem hitems), by rw [tokensOnto], hrest⟩
  | .object [], _, _, h => by
    obtain ⟨_, rfl, hclose⟩ := exists_of_cons (by simp) h
    obtain ⟨rest', rfl, hrest⟩ := exists_of_cons (by simp) hclose
    exact ⟨.object [], rest', .object .nil, rfl, hrest⟩
  | .object ((name, value) :: members), _, _, h => by
    rw [tokensOnto] at h
    obtain ⟨_, rfl, hfirst⟩ := exists_of_cons (by simp) h
    obtain ⟨name', _, hname, rfl, hcolon⟩ := exists_of_string_cons hfirst
    obtain ⟨_, rfl, hfurther⟩ := exists_of_cons (by simp) hcolon
    obtain ⟨value', _, hvalue, rfl, hothers⟩ := exists_of_tokensOnto value hfurther
    obtain ⟨members', rest', hmembers, rfl, hrest⟩ := exists_of_memberTokens members hothers
    exact ⟨.object ((name', value') :: members'), rest',
      .object (.cons (.mk hname hvalue) hmembers), by rw [tokensOnto], hrest⟩

/-- What is left of the tokens of further items are those of items that have lost fences. -/
theorem exists_of_itemTokens : ∀ (items : List Json) {rest tokens : List Token},
    List.Forall₂ Token.LosesFences (itemTokens items rest) tokens →
      ∃ items' rest', List.Forall₂ LosesFences items items' ∧ tokens = itemTokens items' rest' ∧
        List.Forall₂ Token.LosesFences rest rest'
  | [], _, _, h => by
    obtain ⟨rest', rfl, hrest⟩ := exists_of_cons (by simp) h
    exact ⟨[], rest', .nil, rfl, hrest⟩
  | item :: items, _, _, h => by
    rw [itemTokens] at h
    obtain ⟨_, rfl, hfirst⟩ := exists_of_cons (by simp) h
    obtain ⟨item', _, hitem, rfl, hothers⟩ := exists_of_tokensOnto item hfirst
    obtain ⟨items', rest', hitems, rfl, hrest⟩ := exists_of_itemTokens items hothers
    exact ⟨item' :: items', rest', .cons hitem hitems, by rw [itemTokens], hrest⟩

/-- What is left of the tokens of further members are those of members that have lost fences. -/
theorem exists_of_memberTokens : ∀ (members : List (String × Json)) {rest tokens : List Token},
    List.Forall₂ Token.LosesFences (memberTokens members rest) tokens →
      ∃ members' rest', List.Forall₂ MemberLosesFences members members' ∧
        tokens = memberTokens members' rest' ∧ List.Forall₂ Token.LosesFences rest rest'
  | [], _, _, h => by
    obtain ⟨rest', rfl, hrest⟩ := exists_of_cons (by simp) h
    exact ⟨[], rest', .nil, rfl, hrest⟩
  | (name, value) :: members, _, _, h => by
    rw [memberTokens] at h
    obtain ⟨_, rfl, hfirst⟩ := exists_of_cons (by simp) h
    obtain ⟨name', _, hname, rfl, hcolon⟩ := exists_of_string_cons hfirst
    obtain ⟨_, rfl, hfurther⟩ := exists_of_cons (by simp) hcolon
    obtain ⟨value', _, hvalue, rfl, hothers⟩ := exists_of_tokensOnto value hfurther
    obtain ⟨members', rest', hmembers, rfl, hrest⟩ := exists_of_memberTokens members hothers
    exact ⟨(name', value') :: members', rest', .cons (.mk hname hvalue) hmembers,
      by rw [memberTokens], hrest⟩

end

/-! ## Texts -/

/-- A lexeme does not start with a backquote. -/
theorem Lexeme.not_fence_ahead {own text : List Char} {token : Token} (h : Lexeme own token) :
    ¬ fence <+: own ++ text := by
  cases h with
  | plain plain _ _ => exact AuditedRules.not_fence_ahead (plain _ List.mem_cons_self).2
  | string _ => exact AuditedRules.not_fence_ahead (by decide)

/-- Between tokens no fence starts. -/
theorem Cut.not_fence_ahead {text : List Char} {tokens : List Token} (h : Cut text tokens) :
    ¬ fence <+: text := by
  cases h with
  | nil => decide
  | space space _ =>
    refine AuditedRules.not_fence_ahead ?_
    rintro rfl
    cases space
  | token lexeme _ _ => exact lexeme.not_fence_ahead

/-- The first character of a row of lexemes stays when fences are dropped. -/
theorem Cut.head?_dropFences {text : List Char} {tokens : List Token} (h : Cut text tokens) :
    (dropFences false text).head? = text.head? := by
  cases text with
  | nil => rfl
  | cons c text => rw [dropFences_false_cons h.not_fence_ahead, List.head?_cons, List.head?_cons]

/-- Whether a token ends in front of a text depends on its first character alone. -/
theorem Token.Ends.of_head? {token : Token} {text text' : List Char} (h : token.Ends text)
    (hhead : text'.head? = text.head?) : token.Ends text' := by
  cases token with
  | number n =>
    intro c hc
    rw [hhead] at hc
    exact h c hc
  | _ => trivial

/-- What is left of a row of lexemes is a row of lexemes of what is left of the tokens. -/
theorem Cut.exists_dropFences {text : List Char} {tokens : List Token} (h : Cut text tokens) :
    ∃ tokens', Cut (dropFences false text) tokens' ∧
      List.Forall₂ Token.LosesFences tokens tokens' := by
  induction h with
  | nil => exact ⟨[], .nil, .nil⟩
  | @space c text tokens space rest ih =>
    obtain ⟨tokens', hcut, hloses⟩ := ih
    rw [dropFences_false_cons (Cut.space space rest).not_fence_ahead]
    exact ⟨tokens', .space space hcut, hloses⟩
  | @token own text token tokens lexeme ends rest ih =>
    obtain ⟨tokens', hcut, hloses⟩ := ih
    have hends := ends.of_head? rest.head?_dropFences
    cases lexeme with
    | plain plain other take =>
      -- There is no backquote in the lexeme, and the first character behind it is the same.
      rw [dropFences_append_of_not_mem fun hmem => (plain _ hmem).2 rfl]
      exact ⟨token :: tokens', .token (.plain plain other take) hends hcut,
        .cons (.refl other) hloses⟩
    | @string raw cs spells =>
      obtain ⟨cs', hspells⟩ := spells.exists_dropFences false
      have hdrop : dropFences false ('"' :: (raw ++ ['"']) ++ text) =
          '"' :: (dropFences false raw ++ ['"']) ++ dropFences false text := by
        rw [List.cons_append, List.append_assoc, List.singleton_append,
          dropFences_kept (by decide) (by decide) (by decide),
          dropFences_append_cons (by decide) (by decide) (by decide), List.cons_append,
          List.append_assoc, List.singleton_append]
      have htext : TextLosesFences (String.ofList cs) (String.ofList cs') := by
        refine ⟨raw, ?_, ?_⟩
        · rw [String.toList_ofList]
          exact spells
        · rw [String.toList_ofList]
          exact hspells
      rw [hdrop]
      exact ⟨.string (some (String.ofList cs')) :: tokens', .token (.string hspells) trivial hcut,
        .cons ⟨_, rfl, htext⟩ hloses⟩

/-- A row of lexemes may be trimmed. -/
theorem Cut.trim {text : List Char} {tokens : List Token} (h : Cut text tokens) :
    Cut (Text.trim text) tokens := by
  obtain ⟨front, back, htext, hfront, hback⟩ := Text.exists_trim text
  rw [htext] at h
  exact (h.of_blank_append hfront).of_append_blank hback

/-- A text that writes a value is stripped to one that writes the value with fences lost. -/
theorem Writes.exists_stripFences {text : List Char} {v : Json} (h : Writes text v) :
    ∃ v', v.LosesFences v' ∧ Writes (stripFences text) v' := by
  obtain ⟨tokens, hcut, hloses⟩ := Cut.exists_dropFences h
  obtain ⟨v', rest, hv, rfl, hrest⟩ := exists_of_tokensOnto v hloses
  cases hrest
  exact ⟨v', hv, hcut.trim⟩

end Json

end AuditedRules
