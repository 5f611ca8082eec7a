import AuditedRules.Proofs.Json.Lexemes
import AuditedRules.Proofs.Predicate.NestedText

/-!
# Texts that can be read

A text all of whose tokens have values is a row of lexemes with blanks between them (`Cut`), and
every such row is cut into its tokens again (`cut_tokensWithin`, `Cut.lexed`). White space in front
of a row and behind it counts for nothing, since no lexeme starts or ends with any.

The tokens that make up a complete document in which everything stands for something are those of a
JSON value whose members stand as they are written (`written_of_read`). So such a text writes a
value (`exists_writes`), and it stands for one, which differs from what is written in the order of
members and in names that are written twice. A text stands for a value exactly when it is
well-formed and everything in it stands for something (`exists_denotes_iff`).
-/

namespace AuditedRules

namespace Json

/-! ## Texts -/

/-- A text is a row of lexemes with blanks between them. -/
inductive Cut : List Char → List Token → Prop
  | nil : Cut [] []
  /-- A blank counts for nothing. -/
  | space {c : Char} {text : List Char} {tokens : List Token} (space : isSpace c = true)
    (rest : Cut text tokens) : Cut (c :: text) tokens
  /-- A lexeme is a token. -/
  | token {own text : List Char} {token : Token} {tokens : List Token} (lexeme : Lexeme own token)
    (ends : token.Ends text) (rest : Cut text tokens) : Cut (own ++ text) (token :: tokens)

/-- A plain character is no blank between tokens. -/
theorem IsPlain.isSpace_eq_false {c : Char} (h : IsPlain c) : isSpace c = false := by
  refine Bool.eq_false_iff.2 fun hspace => ?_
  simp only [isSpace, Bool.or_eq_true, beq_iff_eq] at hspace
  rcases hspace with ((rfl | rfl) | rfl) | rfl <;> exact absurd h (by decide)

/-- A row of lexemes is cut into its tokens. -/
theorem Cut.lexed {text : List Char} {tokens : List Token} (h : Cut text tokens) :
    Lexed text tokens := by
  induction h with
  | nil => exact .nil
  | @space c text tokens space _ ih =>
    intro bound hbound
    cases bound with
    | zero => cases hbound
    | succ bound =>
      rw [tokensWithin, if_pos space]
      exact ih bound (Nat.lt_of_succ_lt_succ hbound)
  | @token own text token tokens lexeme ends _ ih =>
    cases lexeme with
    | plain plain _ take =>
      have hspace := (plain _ List.mem_cons_self).isSpace_eq_false
      exact .cons _ hspace (fun bound _ => take bound text ends) ih
    | @string raw cs spells =>
      refine .cons (raw ++ ['"']) rfl (fun bound hbound => ?_) ih
      rw [List.append_assoc] at hbound ⊢
      exact spells.takeString_eq hbound

/-- Neither a point nor the letter of an exponent starts a token. -/
theorem tokensWithin_continuation {c : Char} (h : c = '.' ∨ c = 'e' ∨ c = 'E') (bound : Nat)
    (text : List Char) : tokensWithin (bound + 1) (c :: text) = [.bad] := by
  rcases h with rfl | rfl | rfl <;> rfl

/-- Where the digits end and tokens with values follow, no number goes on. -/
theorem endsNumber_of_readable {bound : Nat} {text : List Char} (hdigits : EndsDigits text)
    (hbound : text.length < bound) (h : ∀ token ∈ tokensWithin bound text, token.Readable) :
    EndsNumber text := by
  cases text with
  | nil => exact fun _ hc => by cases hc
  | cons c text =>
    have hstart : ¬ (c = '.' ∨ c = 'e' ∨ c = 'E') := by
      intro hc
      cases bound with
      | zero => cases hbound
      | succ bound =>
        rw [tokensWithin_continuation hc] at h
        exact h .bad List.mem_cons_self
    intro c' hc'
    cases hc'
    exact ⟨hdigits c rfl, fun hc => hstart (.inl hc), fun hc => hstart (.inr (.inl hc)),
      fun hc => hstart (.inr (.inr hc))⟩

/-- A text whose tokens all have values is a row of lexemes. -/
theorem cut_tokensWithin {bound : Nat} {text : List Char} (hbound : text.length < bound)
    (h : ∀ token ∈ tokensWithin bound text, token.Readable) :
    Cut text (tokensWithin bound text) := by
  induction bound generalizing text with
  | zero => cases hbound
  | succ bound ih =>
    cases text with
    | nil => exact .nil
    | cons c text =>
      have hshorter : text.length < bound := Nat.lt_of_succ_lt_succ hbound
      unfold tokensWithin at h ⊢
      split at h
      · rename_i hspace
        rw [if_pos hspace]
        exact .space hspace (ih hshorter h)
      · rename_i hspace
        rw [if_neg hspace]
        split at h
        · rename_i token rest htoken
          obtain ⟨hreadable, hothers⟩ := List.forall_mem_cons.1 h
          obtain ⟨own, rfl, hlexeme, hdigits⟩ := exists_of_takeToken htoken hreadable
          have hrest : rest.length < bound := by
            rw [List.length_append] at hshorter
            omega
          refine .token hlexeme ?_ (ih hrest hothers)
          -- Only a number may be continued by what stands behind it.
          cases token with
          | number n => exact endsNumber_of_readable (hdigits ⟨n, rfl⟩) hrest hothers
          | _ => trivial
        · exact absurd (h .bad List.mem_cons_self) id

/-! ## White space around a text -/

/-- A lexeme starts and ends with characters that are no white space. -/
theorem Lexeme.ends_visible {own : List Char} {token : Token} (h : Lexeme own token) :
    (∀ c ∈ own.head?, Text.isBlank c = false) ∧ (∀ c ∈ own.getLast?, Text.isBlank c = false) ∧
      own ≠ [] := by
  cases h with
  | plain plain _ _ =>
    exact ⟨fun x hx => (plain x (List.mem_of_mem_head? hx)).1,
      fun x hx => (plain x (List.mem_of_mem_getLast? hx)).1, List.cons_ne_nil _ _⟩
  | @string raw cs _ =>
    have hquote : Text.isBlank '"' = false := by decide
    have hlast : ('"' :: (raw ++ ['"'])).getLast? = some '"' := by
      rw [← List.cons_append, List.getLast?_concat]
    refine ⟨fun x hx => ?_, fun x hx => ?_, List.cons_ne_nil _ _⟩
    · cases hx
      exact hquote
    · rw [hlast, Option.mem_some_iff] at hx
      rw [← hx]
      exact hquote

/-- White space in front of a row of lexemes counts for nothing. -/
theorem Cut.of_blank_append {front text : List Char} {tokens : List Token}
    (hfront : ∀ c ∈ front, Text.isBlank c = true) (h : Cut (front ++ text) tokens) :
    Cut text tokens := by
  induction front with
  | nil => exact h
  | cons c front ih =>
    obtain ⟨hfirst, hothers⟩ := List.forall_mem_cons.1 hfront
    refine ih hothers ?_
    generalize hwhole : c :: front ++ text = whole at h
    cases h with
    | nil => cases hwhole
    | space _ rest =>
      obtain ⟨-, rfl⟩ := List.cons.inj hwhole
      exact rest
    | @token own _ _ _ lexeme _ _ =>
      obtain ⟨hvisible, -, hne⟩ := lexeme.ends_visible
      cases own with
      | nil => exact absurd rfl hne
      | cons first own =>
        obtain ⟨rfl, -⟩ := List.cons.inj hwhole
        rw [hvisible c rfl] at hfirst
        cases hfirst

/-- What does not continue a token does not do so without its last character. -/
theorem Token.Ends.of_concat {token : Token} {text : List Char} {c : Char}
    (h : token.Ends (text ++ [c])) : token.Ends text := by
  cases token with
  | number n =>
    intro x hx
    cases text with
    | nil => cases hx
    | cons first text => exact h x hx
  | _ => trivial

/-- A blank at the end of a row of lexemes counts for nothing. -/
theorem Cut.of_concat_blank {text : List Char} {c : Char} {tokens : List Token}
    (hblank : Text.isBlank c = true) (h : Cut (text ++ [c]) tokens) : Cut text tokens := by
  generalize hwhole : text ++ [c] = whole at h
  induction h generalizing text with
  | nil => exact absurd hwhole (by simp)
  | @space first whole tokens space rest ih =>
    cases text with
    | nil =>
      obtain ⟨-, rfl⟩ := List.cons.inj hwhole
      exact rest
    | cons first' text =>
      obtain ⟨rfl, hrest⟩ := List.cons.inj hwhole
      exact .space space (ih hrest)
  | @token own whole token tokens lexeme ends rest ih =>
    obtain ⟨-, hvisible, -⟩ := lexeme.ends_visible
    rcases List.eq_nil_or_concat whole with rfl | ⟨front, last, rfl⟩
    · -- The lexeme is the end of the text, so it would end with the blank.
      rw [List.append_nil] at hwhole
      have hlast : own.getLast? = some c := by rw [← hwhole, List.getLast?_concat]
      rw [hvisible c hlast] at hblank
      cases hblank
    · rw [List.concat_eq_append] at ends ih
      rw [List.concat_eq_append, ← List.append_assoc] at hwhole
      obtain ⟨rfl, hlast⟩ := List.append_inj' hwhole rfl
      obtain ⟨rfl, -⟩ := List.cons.inj hlast
      exact .token lexeme ends.of_concat (ih rfl)

/-- White space at the end may be taken off a row of lexemes. -/
theorem Cut.of_append_blank {text back : List Char} {tokens : List Token}
    (hback : ∀ c ∈ back, Text.isBlank c = true) (h : Cut (text ++ back) tokens) :
    Cut text tokens := by
  induction back generalizing text with
  | nil =>
    rw [List.append_nil] at h
    exact h
  | cons c back ih =>
    obtain ⟨hfirst, hothers⟩ := List.forall_mem_cons.1 hback
    rw [List.append_cons] at h
    exact (ih hothers h).of_concat_blank hfirst

end Json

/-! ## Complete and readable documents -/

namespace Document

mutual

/-- Everything in the document stands for something. -/
def isReadable : Document → Bool
  | .sequence items _ => areReadable items
  | .mapping members _ => membersReadable members
  | .unreadable => false
  | .null => true
  | .bool _ => true
  | .number _ => true
  | .string _ => true
  | .plain _ => true
  | .broken => true

/-- All items are readable. -/
def areReadable : List Document → Bool
  | [] => true
  | item :: items => isReadable item && areReadable items

/-- All keys and values are readable. -/
def membersReadable : List (Document × Document) → Bool
  | [] => true
  | (key, value) :: members => isReadable key && (isReadable value && membersReadable members)

end

/-- Items are complete and readable if each of them is. -/
theorem areComplete_and_areReadable {α : Type} {items : List Document} {values : List α}
    (h : List.Forall₂ (fun item _ => item.isComplete = true ∧ item.isReadable = true)
      items values) :
    areComplete items = true ∧ areReadable items = true := by
  induction h with
  | nil => exact ⟨rfl, rfl⟩
  | cons hfirst _ ih =>
    rw [areComplete, areReadable, hfirst.1, hfirst.2, ih.1, ih.2]
    exact ⟨rfl, rfl⟩

/-- Members are complete and readable if the key and the value of each are. -/
theorem membersComplete_and_membersReadable {α : Type} {members : List (Document × Document)}
    {entries : List α} (h : List.Forall₂ (fun m _ => (m.1.isComplete = true ∧
      m.1.isReadable = true) ∧ m.2.isComplete = true ∧ m.2.isReadable = true) members entries) :
    membersComplete members = true ∧ membersReadable members = true := by
  induction h with
  | nil => exact ⟨rfl, rfl⟩
  | @cons m _ _ _ hfirst _ ih =>
    obtain ⟨key, value⟩ := m
    obtain ⟨⟨hkey, hkey'⟩, hvalue, hvalue'⟩ := hfirst
    rw [membersComplete, membersReadable, hkey, hvalue, hkey', hvalue', ih.1, ih.2]
    exact ⟨rfl, rfl⟩

end Document

/-! ## Reading tokens -/

namespace Json

/-- A complete and readable document is that of a value, and the tokens read are those of it. -/
def GivesWritten (read : List Token → Document × List Token) : Prop :=
  ∀ tokens, (read tokens).1.isComplete = true → (read tokens).1.isReadable = true →
    ∃ v : Json, (read tokens).1 = v.toDocument ∧ tokens = v.tokensOnto (read tokens).2

/-- Complete and readable items up to a closing bracket are those of values. -/
def GivesItemsWritten (read : List Token → List Document × Bool × List Token) : Prop :=
  ∀ tokens, (read tokens).2.1 = true → Document.areComplete (read tokens).1 = true →
    Document.areReadable (read tokens).1 = true →
      ∃ item items, (read tokens).1 = itemDocuments (item :: items) ∧
        tokens = item.tokensOnto (itemTokens items (read tokens).2.2)

/-- Complete and readable members up to a closing brace are those of names and values. -/
def GivesMembersWritten
    (read : List Token → List (Document × Document) × Bool × List Token) : Prop :=
  ∀ tokens, (read tokens).2.1 = true → Document.membersComplete (read tokens).1 = true →
    Document.membersReadable (read tokens).1 = true →
      ∃ name value members, (read tokens).1 = memberDocuments ((name, value) :: members) ∧
        tokens = .string (some name) :: .colon ::
          value.tokensOnto (memberTokens members (read tokens).2.2)

section
variable {bound : Nat}

/-- A value is written if its items and its members are. -/
theorem givesWritten_readValue (hitems : GivesItemsWritten (readItems bound))
    (hmembers : GivesMembersWritten (readMembers bound)) :
    GivesWritten (readValue (bound + 1)) := by
  intro tokens
  unfold readValue
  split
  · exact fun _ _ => ⟨.null, rfl, rfl⟩
  · exact fun _ _ => ⟨.bool _, rfl, rfl⟩
  · exact fun _ _ => ⟨.number _, rfl, rfl⟩
  · exact fun _ hreadable => by cases hreadable
  · exact fun _ _ => ⟨.string _, rfl, rfl⟩
  · exact fun _ hreadable => by cases hreadable
  · exact fun _ _ => ⟨.array [], rfl, rfl⟩
  · -- An array with items, all of which are complete since it is.
    rename_i rest _
    intro hcomplete hreadable
    obtain ⟨hall, hclosed⟩ := Bool.and_eq_true_iff.1 hcomplete
    obtain ⟨item, items, hread, hrest⟩ := hitems rest hclosed hall hreadable
    refine ⟨.array (item :: items), ?_, congrArg (Token.openArray :: ·) hrest⟩
    dsimp only
    rw [hread, hclosed, toDocument]
  · exact fun _ _ => ⟨.object [], rfl, rfl⟩
  · -- An object with members.
    rename_i rest _
    intro hcomplete hreadable
    obtain ⟨hall, hclosed⟩ := Bool.and_eq_true_iff.1 hcomplete
    obtain ⟨name, value, members, hread, hrest⟩ := hmembers rest hclosed hall hreadable
    refine ⟨.object ((name, value) :: members), ?_, congrArg (Token.openObject :: ·) hrest⟩
    dsimp only
    rw [hread, hclosed, toDocument]
  · exact fun hcomplete _ => by cases hcomplete

/-- Items are written if values and further items are. -/
theorem givesItemsWritten_readItems (hvalue : GivesWritten (readValue bound))
    (hitems : GivesItemsWritten (readItems bound)) :
    GivesItemsWritten (readItems (bound + 1)) := by
  intro tokens
  have hfirst := hvalue tokens
  unfold readItems
  dsimp only
  split
  · rename_i rest heq
    intro _ hcomplete hreadable
    obtain ⟨item, hread, htokens⟩ := hfirst (Bool.and_eq_true_iff.1 hcomplete).1
      (Bool.and_eq_true_iff.1 hreadable).1
    rw [heq] at htokens
    exact ⟨item, [], by rw [hread]; rfl, htokens⟩
  · rename_i rest heq
    intro hclosed hcomplete hreadable
    obtain ⟨hcomplete, hcompletes⟩ := Bool.and_eq_true_iff.1 hcomplete
    obtain ⟨hreadable, hreadables⟩ := Bool.and_eq_true_iff.1 hreadable
    obtain ⟨item, hread, htokens⟩ := hfirst hcomplete hreadable
    obtain ⟨next, items, hreads, hrest⟩ := hitems rest hclosed hcompletes hreadables
    rw [heq, hrest] at htokens
    exact ⟨item, next :: items, by rw [hread, hreads]; rfl, htokens⟩
  · exact fun hclosed _ _ => by cases hclosed

/-- A member starts with a token, and its key stands for that token alone. -/
theorem exists_name_of_readValue {s : Option String} {more rest : List Token}
    (hread : (readValue bound (.string s :: more)).1.isReadable = true)
    (hrest : (readValue bound (.string s :: more)).2 = .colon :: rest) :
    ∃ name, s = some name ∧ (readValue bound (.string s :: more)).1 = .string name ∧
      more = .colon :: rest := by
  cases bound with
  | zero => cases hrest
  | succ bound =>
    cases s with
    | none => cases hread
    | some name => exact ⟨name, rfl, rfl, hrest⟩

/-- Members are written if values and further members are. -/
theorem givesMembersWritten_readMembers (hvalue : GivesWritten (readValue bound))
    (hmembers : GivesMembersWritten (readMembers bound)) :
    GivesMembersWritten (readMembers (bound + 1)) := by
  intro tokens
  unfold readMembers
  dsimp only
  split
  · rename_i s more rest heq
    have hfirst := hvalue rest
    split
    · rename_i behind hbehind
      intro _ hcomplete hreadable
      obtain ⟨-, hvalues⟩ := Bool.and_eq_true_iff.1 hcomplete
      obtain ⟨hkey, hvalues'⟩ := Bool.and_eq_true_iff.1 hreadable
      -- A key that stands for something is the text of its token.
      obtain ⟨name, rfl, hname, rfl⟩ := exists_name_of_readValue hkey heq
      obtain ⟨value, hread, htokens⟩ := hfirst (Bool.and_eq_true_iff.1 hvalues).1
        (Bool.and_eq_true_iff.1 hvalues').1
      rw [hbehind] at htokens
      exact ⟨name, value, [], by rw [hname, hread]; rfl, by rw [htokens]; rfl⟩
    · rename_i behind hbehind
      intro hclosed hcomplete hreadable
      obtain ⟨-, hvalues⟩ := Bool.and_eq_true_iff.1 hcomplete
      obtain ⟨hkey, hvalues'⟩ := Bool.and_eq_true_iff.1 hreadable
      obtain ⟨hfirstComplete, hcompletes⟩ := Bool.and_eq_true_iff.1 hvalues
      obtain ⟨hfirstReadable, hreadables⟩ := Bool.and_eq_true_iff.1 hvalues'
      obtain ⟨name, rfl, hname, rfl⟩ := exists_name_of_readValue hkey heq
      obtain ⟨value, hread, htokens⟩ := hfirst hfirstComplete hfirstReadable
      obtain ⟨next, further, members, hreads, hrest⟩ :=
        hmembers behind hclosed hcompletes hreadables
      rw [hbehind, hrest] at htokens
      exact ⟨name, value, (next, further) :: members, by rw [hname, hread, hreads]; rfl,
        by rw [htokens]; rfl⟩
    · exact fun hclosed _ _ => by cases hclosed
  · exact fun hclosed _ _ => by cases hclosed

/-- All three readers give what is written. They call each other with one bound less, so the
induction is about all of them at once. -/
theorem written_of_read (bound : Nat) :
    GivesWritten (readValue bound) ∧ GivesItemsWritten (readItems bound) ∧
      GivesMembersWritten (readMembers bound) := by
  induction bound with
  | zero =>
    refine ⟨fun _ hcomplete => ?_, fun _ hclosed => ?_, fun _ hclosed => ?_⟩
    · cases hcomplete
    · cases hclosed
    · cases hclosed
  | succ bound ih =>
    obtain ⟨hvalue, hitems, hmembers⟩ := ih
    exact ⟨givesWritten_readValue hitems hmembers, givesItemsWritten_readItems hvalue hitems,
      givesMembersWritten_readMembers hvalue hmembers⟩

end

mutual

/-- The tokens of a value have values. -/
theorem readable_tokensOnto : ∀ (v : Json) {tokens : List Token},
    (∀ token ∈ tokens, token.Readable) → ∀ token ∈ v.tokensOnto tokens, token.Readable
  | .null, _, h => List.forall_mem_cons.2 ⟨trivial, h⟩
  | .bool _, _, h => List.forall_mem_cons.2 ⟨trivial, h⟩
  | .number _, _, h => List.forall_mem_cons.2 ⟨trivial, h⟩
  | .string _, _, h => List.forall_mem_cons.2 ⟨trivial, h⟩
  | .array [], _, h =>
    List.forall_mem_cons.2 ⟨trivial, List.forall_mem_cons.2 ⟨trivial, h⟩⟩
  | .array (item :: items), _, h => by
    rw [tokensOnto]
    exact List.forall_mem_cons.2 ⟨trivial, readable_tokensOnto item (readable_itemTokens items h)⟩
  | .object [], _, h =>
    List.forall_mem_cons.2 ⟨trivial, List.forall_mem_cons.2 ⟨trivial, h⟩⟩
  | .object ((_, value) :: members), _, h => by
    rw [tokensOnto]
    refine List.forall_mem_cons.2 ⟨trivial, List.forall_mem_cons.2 ⟨trivial,
      List.forall_mem_cons.2 ⟨trivial, ?_⟩⟩⟩
    exact readable_tokensOnto value (readable_memberTokens members h)

/-- The tokens of further items have values, if the tokens behind them do. -/
theorem readable_itemTokens : ∀ (items : List Json) {tokens : List Token},
    (∀ token ∈ tokens, token.Readable) → ∀ token ∈ itemTokens items tokens, token.Readable
  | [], _, h => List.forall_mem_cons.2 ⟨trivial, h⟩
  | item :: items, _, h => by
    rw [itemTokens]
    exact List.forall_mem_cons.2 ⟨trivial, readable_tokensOnto item (readable_itemTokens items h)⟩

/-- The tokens of further members have values, if the tokens behind them do. -/
theorem readable_memberTokens : ∀ (members : List (String × Json)) {tokens : List Token},
    (∀ token ∈ tokens, token.Readable) → ∀ token ∈ memberTokens members tokens, token.Readable
  | [], _, h => List.forall_mem_cons.2 ⟨trivial, h⟩
  | (_, value) :: members, _, h => by
    rw [memberTokens]
    refine List.forall_mem_cons.2 ⟨trivial, List.forall_mem_cons.2 ⟨trivial,
      List.forall_mem_cons.2 ⟨trivial, ?_⟩⟩⟩
    exact readable_tokensOnto value (readable_memberTokens members h)

end

/-! ## Written values -/

/-- The text is a row of the lexemes of the value, whose members stand in it as the value lists
them. -/
def Writes (text : List Char) (v : Json) : Prop :=
  Cut text (v.tokensOnto [])

/-- A text is read as the document of the value that it writes. -/
theorem Writes.read {text : String} {v : Json} (h : Writes text.toList v) :
    Json.read text = ⟨v.toDocument, false⟩ := by
  have htokens : tokens text.toList = v.tokensOnto [] := h.lexed _ (Nat.lt_succ_self _)
  unfold Json.read
  rw [htokens]
  dsimp only
  rw [readValue_tokensOnto v (by omega)]
  rfl

/-- The text is that of one complete value, whatever the value is and however deep it is nested. -/
def WellFormed (text : String) : Prop :=
  (Json.read text).root.isComplete = true ∧ (Json.read text).trailing = false

/-- A well-formed text in which everything stands for something writes a value. -/
theorem exists_writes {text : String} (h : WellFormed text)
    (hreadable : (Json.read text).root.isReadable = true) :
    ∃ v : Json, Writes text.toList v := by
  obtain ⟨hcomplete, htrailing⟩ := h
  have hread : Json.read text = ⟨(readValue (2 * (tokens text.toList).length + 2)
    (tokens text.toList)).1, !(readValue (2 * (tokens text.toList).length + 2)
      (tokens text.toList)).2.isEmpty⟩ := rfl
  rw [hread] at hcomplete htrailing hreadable
  obtain ⟨v, -, htokens⟩ := (written_of_read _).1 _ hcomplete hreadable
  have hrest := List.isEmpty_iff.1 (Bool.not_eq_eq_eq_not.1 htrailing)
  rw [hrest] at htokens
  -- Nothing follows the value, so its tokens are all that the text has, and these have values.
  have hall : ∀ token ∈ tokens text.toList, token.Readable := by
    rw [htokens]
    exact readable_tokensOnto v fun _ ht => absurd ht List.not_mem_nil
  have hcut : Cut text.toList (tokens text.toList) := cut_tokensWithin (Nat.lt_succ_self _) hall
  rw [htokens] at hcut
  exact ⟨v, hcut⟩

end Json

/-! ## Denoted values -/

/-- What each item gives, all of them give in their order. -/
theorem exists_forall₂ {α β : Type} {r : α → β → Prop} {items : List α}
    (h : ∀ item ∈ items, ∃ value, r item value) : ∃ values, List.Forall₂ r items values := by
  induction items with
  | nil => exact ⟨[], .nil⟩
  | cons item items ih =>
    obtain ⟨⟨value, hvalue⟩, hothers⟩ := List.forall_mem_cons.1 h
    obtain ⟨values, hvalues⟩ := ih hothers
    exact ⟨value :: values, .cons hvalue hvalues⟩

namespace Decoder

variable {format : Format} {levels : Nat} {d : Document}

/-- The name of a member is complete and readable. -/
theorem isComplete_of_memberName {expected name : String}
    (h : memberName format expected d = .ok name) :
    d.isComplete = true ∧ d.isReadable = true := by
  cases d with
  | string s => exact ⟨rfl, rfl⟩
  | plain s => exact ⟨rfl, rfl⟩
  | _ => cases format <;> cases h

/-- A document that is read as a value is complete and readable. -/
theorem isComplete_of_json {v : Json} (h : json format levels d = .ok v) :
    d.isComplete = true ∧ d.isReadable = true := by
  induction levels generalizing d v with
  | zero =>
    cases d with
    | sequence documents closed => cases h
    | mapping documents closed => cases h
    | unreadable => cases h
    | broken => cases h
    | _ => exact ⟨rfl, rfl⟩
  | succ levels ih =>
    cases d with
    | sequence documents closed =>
      obtain ⟨values, hvalues, h⟩ := bind_eq_ok_iff.1 h
      obtain ⟨rfl, -⟩ := finish_eq_ok_iff.1 h
      obtain ⟨hcomplete, hreadable⟩ := Document.areComplete_and_areReadable
        ((forall₂_of_items hvalues).imp fun d value hread => ih hread)
      exact ⟨by rw [Document.isComplete, hcomplete]; rfl, hreadable⟩
    | mapping documents closed =>
      obtain ⟨entries, hentries, h⟩ := bind_eq_ok_iff.1 h
      obtain ⟨rfl, -⟩ := finish_eq_ok_iff.1 h
      obtain ⟨hcomplete, hreadable⟩ := Document.membersComplete_and_membersReadable
        ((forall₂_of_members hentries).imp fun d entry hread =>
          ⟨isComplete_of_memberName hread.1, ih hread.2⟩)
      exact ⟨by rw [Document.isComplete, hcomplete]; rfl, hreadable⟩
    | unreadable => cases h
    | broken => cases h
    | _ => exact ⟨rfl, rfl⟩

/-- A number or another scalar is read on any number of levels. -/
theorem exists_json_of_scalar? {value : Scalar} (hvalue : d.scalar? = some value)
    (hwide : ∀ i, value ≠ .wide i) : ∃ read, json format levels d = .ok read := by
  rw [json_of_scalar? format levels hvalue]
  cases value with
  | wide i => exact absurd rfl (hwide i)
  | _ => exact ⟨_, rfl⟩

/-- The document of a value is read on as many levels as the value has. -/
theorem exists_json_toDocument {v : Json} (h : v.nesting ≤ levels) :
    ∃ read, json .json levels v.toDocument = .ok read := by
  induction levels generalizing v with
  | zero =>
    cases v with
    | array items => exact absurd h (Nat.not_succ_le_zero _)
    | object members => exact absurd h (Nat.not_succ_le_zero _)
    | number n => cases n <;> exact exists_json_of_scalar? rfl (by simp)
    | _ => exact exists_json_of_scalar? rfl (by simp)
  | succ levels ih =>
    cases v with
    | array items =>
      have hitems := Json.nesting_array_le_iff.1 h
      obtain ⟨values, hvalues⟩ := exists_forall₂ fun item hitem => ih (hitems item hitem)
      refine ⟨.array values, ?_⟩
      rw [Json.toDocument, Json.itemDocuments_eq_map, json,
        items_eq_ok (List.forall₂_map_left_iff.2 hvalues)]
      rfl
    | object members =>
      have hmembers := Json.nesting_object_le_iff.1 h
      have hread : ∀ m ∈ members, ∃ entry : String × Json, (Document.string m.1) =
          .string entry.1 ∧ json .json levels m.2.toDocument = .ok entry.2 := by
        intro m hm
        obtain ⟨value, hvalue⟩ := ih (hmembers m hm)
        exact ⟨(m.1, value), rfl, hvalue⟩
      obtain ⟨entries, hentries⟩ := exists_forall₂ hread
      refine ⟨.ofMembers entries, ?_⟩
      rw [Json.toDocument, Json.memberDocuments_eq_map, json,
        members_eq_ok (List.forall₂_map_left_iff.2 hentries)]
      rfl
    | number n => cases n <;> exact exists_json_of_scalar? rfl (by simp)
    | _ => exact exists_json_of_scalar? rfl (by simp)

end Decoder

section
variable {text : String} {v : Json}

/-- A text that writes a value stands for some value, which it is read as. -/
theorem Json.Writes.exists_denotes {written : Json} (h : Json.Writes text.toList written) :
    ∃ v, Denotes text v := by
  obtain ⟨v, hread⟩ := Decoder.exists_json_toDocument (Nat.le_refl written.nesting)
  refine ⟨v, ⟨written.nesting, ?_⟩, ?_⟩
  · rw [h.read]
    exact hread
  · rw [h.read]

/-- A text that stands for a value is well-formed, and so does everything in it. -/
theorem Denotes.wellFormed (h : Denotes text v) :
    Json.WellFormed text ∧ (Json.read text).root.isReadable = true := by
  obtain ⟨⟨levels, hread⟩, htrailing⟩ := h
  obtain ⟨hcomplete, hreadable⟩ := Decoder.isComplete_of_json hread
  exact ⟨⟨hcomplete, htrailing⟩, hreadable⟩

/-- What a text stands for is written in it. -/
theorem Denotes.exists_writes (h : Denotes text v) :
    ∃ written, Json.Writes text.toList written := by
  obtain ⟨hformed, hreadable⟩ := h.wellFormed
  exact Json.exists_writes hformed hreadable

/-- A text stands for a value if and only if it is well-formed and everything in it stands for
something. -/
theorem exists_denotes_iff :
    (∃ v, Denotes text v) ↔ Json.WellFormed text ∧ (Json.read text).root.isReadable = true := by
  constructor
  · rintro ⟨v, h⟩
    exact h.wellFormed
  · rintro ⟨hformed, hreadable⟩
    obtain ⟨written, hwritten⟩ := Json.exists_writes hformed hreadable
    exact hwritten.exists_denotes

end

end AuditedRules
