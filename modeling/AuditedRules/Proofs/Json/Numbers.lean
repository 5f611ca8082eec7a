import AuditedRules.Document.Decoder
import AuditedRules.Json.Reader
import AuditedRules.Proofs.Binary64.Exact
import AuditedRules.Proofs.Json.Members
import AuditedRules.Proofs.Steps

/-!
# The numbers of a JSON value

Every number that is read from JSON text is finite (`numbersFinite_of_read`). A token for a number
is an integer of 64 bits, which is no infinity as a double, or a double that did not overflow; this
holds of the tokens of a text, then of the numbers of the document put together from them, and then
of the value that is decoded, in which further doubles that are not finite would be null. Integers
that are given by the spelling of a text without quotes have 64 bits as well (`fits_of_ofPlain`).
-/

namespace AuditedRules

/-- An integer of 64 bits, with or without sign, or a finite double. -/
def DocumentNumber.Fits : DocumentNumber → Prop
  | .int i => -(Json.maxNegative : Int) ≤ i ∧ i ≤ Json.maxUnsigned
  | .float x => x.isFinite

/-- A number that fits stands for a finite double. -/
theorem DocumentNumber.Fits.isFinite {n : DocumentNumber} (h : n.Fits) : n.toBinary64.isFinite := by
  cases n with
  | int i =>
    obtain ⟨hlow, hhigh⟩ := h
    unfold Json.maxNegative at hlow
    unfold Json.maxUnsigned at hhigh
    -- Both bounds are within 64 bits.
    have hbits : i.natAbs < Nat.pow 2 64 := by
      show i.natAbs < 18446744073709551616
      omega
    exact Binary64.isFinite_ofInt hbits (by decide)
  | float x => exact h

/-- An integer that a double is fits into a document. -/
theorem Binary64.fits_of_exactInt? {x : Binary64} {i : Int} (h : x.exactInt? = some i) :
    (DocumentNumber.int i).Fits := by
  have hbound := natAbs_le_of_exactInt? h
  unfold maxSignificand at hbound
  unfold DocumentNumber.Fits Json.maxNegative Json.maxUnsigned
  omega

namespace Json

/-! ## Tokens -/

/-- The number of the token, if it has one, fits. -/
def Token.Fits : Token → Prop
  | .number (some n) => n.Fits
  | _ => True

/-- A double that did not overflow fits. -/
theorem fits_of_finiteNumber {x : Binary64} {n : DocumentNumber}
    (h : wholeNumber.finiteNumber x = some n) : n.Fits := by
  unfold wholeNumber.finiteNumber at h
  split at h
  · rename_i hfinite
    cases h
    exact hfinite
  · cases h

/-- A whole number fits. -/
theorem fits_of_wholeNumber {negative : Bool} {magnitude : Nat} {n : DocumentNumber}
    (h : wholeNumber negative magnitude = some n) : n.Fits := by
  unfold wholeNumber at h
  split at h
  · split at h
    · cases h
      rfl
    · split at h
      · rename_i hle
        cases h
        exact ⟨by omega, by omega⟩
      · exact fits_of_finiteNumber h
  · split at h
    · rename_i hle
      cases h
      exact ⟨by omega, by omega⟩
    · exact fits_of_finiteNumber h

/-- A number made from its parts fits. -/
theorem fits_numberOfParts (negative : Bool) (whole : List Char) (fraction : Option (List Char))
    (exponent : Option Int) :
    (Token.number (numberOfParts negative whole fraction exponent)).Fits := by
  cases h : numberOfParts negative whole fraction exponent with
  | none => trivial
  | some n =>
    unfold numberOfParts at h
    split at h
    · exact fits_of_wholeNumber h
    · exact fits_of_finiteNumber h

/-- A number at the front of a text fits. -/
theorem fits_of_takeNumber {negative : Bool} {text rest : List Char} {token : Token}
    (h : takeNumber negative text = some (token, rest)) : token.Fits := by
  unfold takeNumber at h
  dsimp only at h
  split at h
  · cases h
  · obtain ⟨⟨fraction, afterFraction⟩, -, h⟩ := Option.bind_eq_some_iff.1 h
    obtain ⟨⟨exponent, afterExponent⟩, -, h⟩ := Option.bind_eq_some_iff.1 h
    cases h
    exact fits_numberOfParts _ _ _ _

/-- A string at the front of a text is no number. -/
theorem fits_of_takeString {bound : Nat} {text rest : List Char} {read : Option (List Char)}
    {token : Token} (h : takeString bound text read = some (token, rest)) : token.Fits := by
  induction bound generalizing text read with
  | zero => cases h
  | succ bound ih =>
    cases text with
    | nil => cases h
    | cons c text =>
      unfold takeString at h
      split at h
      · cases h
        trivial
      split at h
      · split at h
        · obtain ⟨⟨char, afterEscape⟩, -, h⟩ := Option.bind_eq_some_iff.1 h
          exact ih h
        · obtain ⟨char, -, h⟩ := Option.bind_eq_some_iff.1 h
          exact ih h
        · cases h
      split at h
      · cases h
      · exact ih h

/-- The token at the front of a text fits. -/
theorem fits_of_takeToken {bound : Nat} {c : Char} {text rest : List Char} {token : Token}
    (h : takeToken bound c text = some (token, rest)) : token.Fits := by
  unfold takeToken at h
  split at h
  case h_7 => exact fits_of_takeString h
  case h_11 => exact fits_of_takeNumber h
  case h_12 => exact fits_of_takeNumber h
  all_goals
    cases h
    trivial

/-- The tokens of a text fit. -/
theorem fits_of_mem_tokensWithin {bound : Nat} {text : List Char} {token : Token}
    (h : token ∈ tokensWithin bound text) : token.Fits := by
  induction bound generalizing text with
  | zero =>
    rw [List.mem_singleton.1 h]
    trivial
  | succ bound ih =>
    cases text with
    | nil => cases h
    | cons c text =>
      unfold tokensWithin at h
      split at h
      · exact ih h
      · split at h
        · rename_i first rest hfirst
          rcases List.mem_cons.1 h with rfl | h
          · exact fits_of_takeToken hfirst
          · exact ih h
        · rw [List.mem_singleton.1 h]
          trivial

end Json

/-! ## Documents -/

/-- Every number in the document fits, wherever it is not given by the spelling of a text. -/
inductive Document.Fits : Document → Prop
  | null : Fits .null
  | bool (b : Bool) : Fits (.bool b)
  | number {n : DocumentNumber} (h : n.Fits) : Fits (.number n)
  | string (s : String) : Fits (.string s)
  | plain (s : String) : Fits (.plain s)
  | sequence {items : List Document} {closed : Bool} (h : ∀ item ∈ items, Fits item) :
      Fits (.sequence items closed)
  | mapping {members : List (Document × Document)} {closed : Bool} (h : ∀ m ∈ members, Fits m.2) :
      Fits (.mapping members closed)
  | unreadable : Fits .unreadable
  | broken : Fits .broken

/-- An integer of 64 bits fits, whether it is made with a sign or without. -/
theorem fits_of_sizedInteger? {negative : Bool} {n : Nat} {i : Int}
    (h : Yaml.sizedInteger? negative n = some (.integer i)) : (DocumentNumber.int i).Fits := by
  unfold Yaml.sizedInteger? at h
  unfold DocumentNumber.Fits Json.maxNegative Json.maxUnsigned
  have hsigned : Nat.pow 2 63 = 9223372036854775808 := by decide
  have hunsigned : Nat.pow 2 64 = 18446744073709551616 := by decide
  rw [hsigned, hunsigned] at h
  cases negative with
  | true =>
    rw [if_pos rfl] at h
    split at h
    · cases h
      omega
    · split at h <;> cases h
  | false =>
    rw [if_neg Bool.false_ne_true] at h
    split at h
    · cases h
      omega
    · split at h <;> cases h

/-- An integer in a text without quotes fits. -/
theorem fits_of_ofPlain {text : String} {i : Int} (h : Scalar.ofPlain text = .integer i) :
    (DocumentNumber.int i).Fits := by
  have hnumber : ∀ (negative : Bool) (unsigned : List Char),
      Yaml.number? negative unsigned = some (.integer i) → (DocumentNumber.int i).Fits := by
    intro negative unsigned h
    unfold Yaml.number? at h
    split at h
    · cases h
    · split at h
      · rename_i scalar hsized
        obtain ⟨n, -, hsized⟩ := Option.bind_eq_some_iff.1 hsized
        rw [h] at hsized
        exact fits_of_sizedInteger? hsized
      · obtain ⟨x, -, hx⟩ := Option.map_eq_some_iff.1 h
        cases hx
  -- Of the spellings only that of a number gives an integer.
  unfold Scalar.ofPlain at h
  split at h
  · cases h
  · split at h
    · cases h
    · split at h
      · cases h
      · cases hsigned : Yaml.signedNumber? text.toList with
        | none =>
          rw [hsigned] at h
          cases h
        | some scalar =>
          rw [hsigned] at h
          obtain rfl : scalar = .integer i := h
          unfold Yaml.signedNumber? at hsigned
          split at hsigned <;> exact hnumber _ _ hsigned

/-- An integer in a document that fits, fits. -/
theorem Document.Fits.integer {document : Document} (h : document.Fits) {i : Int}
    (hi : document.scalar? = some (.integer i)) : (DocumentNumber.int i).Fits := by
  cases h with
  | @number n hn =>
    cases n with
    | int j =>
      cases hi
      exact hn
    | float x => cases hi
  | plain s => exact fits_of_ofPlain (Option.some.inj hi)
  | _ => cases hi

namespace Json

/-- All of the tokens fit. -/
def AllFit (tokens : List Token) : Prop :=
  ∀ token ∈ tokens, token.Fits

/-- The tokens after the first fit. -/
theorem AllFit.tail {token : Token} {rest : List Token} (h : AllFit (token :: rest)) :
    AllFit rest :=
  fun t ht => h t (List.mem_cons_of_mem _ ht)

/-- No tokens fit. -/
theorem allFit_nil : AllFit [] :=
  fun _ ht => absurd ht List.not_mem_nil

/-- Values that are read from tokens that fit, fit, and leave tokens that fit. -/
def GivesFit (read : List Token → Document × List Token) : Prop :=
  ∀ tokens, AllFit tokens → (read tokens).1.Fits ∧ AllFit (read tokens).2

/-- Items that are read from tokens that fit, fit, and leave tokens that fit. -/
def GivesItemsFit (read : List Token → List Document × Bool × List Token) : Prop :=
  ∀ tokens, AllFit tokens → (∀ item ∈ (read tokens).1, item.Fits) ∧ AllFit (read tokens).2.2

/-- The values of members that are read from tokens that fit, fit, and leave tokens that fit. -/
def GivesMembersFit (read : List Token → List (Document × Document) × Bool × List Token) : Prop :=
  ∀ tokens, AllFit tokens → (∀ m ∈ (read tokens).1, m.2.Fits) ∧ AllFit (read tokens).2.2

variable {bound : Nat}

/-- A value fits if its items and the values of its members do. -/
theorem givesFit_readValue (hitems : GivesItemsFit (readItems bound))
    (hmembers : GivesMembersFit (readMembers bound)) : GivesFit (readValue (bound + 1)) := by
  intro tokens h
  unfold readValue
  split
  · exact ⟨.null, h.tail⟩
  · exact ⟨.bool _, h.tail⟩
  · exact ⟨.number (h _ List.mem_cons_self), h.tail⟩
  · exact ⟨.unreadable, h.tail⟩
  · exact ⟨.string _, h.tail⟩
  · exact ⟨.unreadable, h.tail⟩
  · exact ⟨.sequence fun _ hitem => absurd hitem List.not_mem_nil, h.tail.tail⟩
  · obtain ⟨hread, hrest⟩ := hitems _ h.tail
    exact ⟨.sequence hread, hrest⟩
  · exact ⟨.mapping fun _ hm => absurd hm List.not_mem_nil, h.tail.tail⟩
  · obtain ⟨hread, hrest⟩ := hmembers _ h.tail
    exact ⟨.mapping hread, hrest⟩
  · exact ⟨.broken, allFit_nil⟩

/-- Items fit if values and further items do. -/
theorem givesItemsFit_readItems (hvalue : GivesFit (readValue bound))
    (hitems : GivesItemsFit (readItems bound)) : GivesItemsFit (readItems (bound + 1)) := by
  intro tokens h
  unfold readItems
  obtain ⟨hitem, hrest⟩ := hvalue _ h
  dsimp only
  split
  · rename_i rest heq
    rw [heq] at hrest
    exact ⟨List.forall_mem_singleton.2 hitem, hrest.tail⟩
  · rename_i rest heq
    rw [heq] at hrest
    obtain ⟨hread, hafter⟩ := hitems _ hrest.tail
    exact ⟨List.forall_mem_cons.2 ⟨hitem, hread⟩, hafter⟩
  · exact ⟨List.forall_mem_singleton.2 hitem, allFit_nil⟩

/-- The values of members fit if values and those of further members do. -/
theorem givesMembersFit_readMembers (hvalue : GivesFit (readValue bound))
    (hmembers : GivesMembersFit (readMembers bound)) :
    GivesMembersFit (readMembers (bound + 1)) := by
  intro tokens h
  unfold readMembers
  obtain ⟨-, hrest⟩ := hvalue _ h
  dsimp only
  split
  · rename_i rest heq
    rw [heq] at hrest
    obtain ⟨hmember, hafter⟩ := hvalue _ hrest.tail
    split
    · rename_i rest heq
      rw [heq] at hafter
      exact ⟨List.forall_mem_singleton.2 hmember, hafter.tail⟩
    · rename_i rest heq
      rw [heq] at hafter
      obtain ⟨hread, hlast⟩ := hmembers _ hafter.tail
      exact ⟨List.forall_mem_cons.2 ⟨hmember, hread⟩, hlast⟩
    · exact ⟨List.forall_mem_singleton.2 hmember, allFit_nil⟩
  · exact ⟨List.forall_mem_singleton.2 .broken, allFit_nil⟩

/-- All three readers give what fits. They call each other with one bound less, so the induction is
about all of them at once. -/
theorem fits_of_read (bound : Nat) :
    GivesFit (readValue bound) ∧ GivesItemsFit (readItems bound) ∧
      GivesMembersFit (readMembers bound) := by
  induction bound with
  | zero =>
    exact ⟨fun _ _ => ⟨.broken, allFit_nil⟩,
      fun _ _ => ⟨fun _ hitem => absurd hitem List.not_mem_nil, allFit_nil⟩,
      fun _ _ => ⟨fun _ hm => absurd hm List.not_mem_nil, allFit_nil⟩⟩
  | succ bound ih =>
    obtain ⟨hvalue, hitems, hmembers⟩ := ih
    exact ⟨givesFit_readValue hitems hmembers, givesItemsFit_readItems hvalue hitems,
      givesMembersFit_readMembers hvalue hmembers⟩

/-- The document of a text fits. -/
theorem fits_read (text : String) : (read text).root.Fits := by
  have htokens : AllFit (tokens text.toList) := fun _ ht => fits_of_mem_tokensWithin ht
  show (readValue (2 * (tokens text.toList).length + 2) (tokens text.toList)).1.Fits
  exact ((fits_of_read _).1 _ htokens).1

end Json

/-! ## Values -/

/-- Every number in the value stands for a finite double. -/
inductive Json.NumbersFinite : Json → Prop
  | null : NumbersFinite .null
  | bool (b : Bool) : NumbersFinite (.bool b)
  | number {n : DocumentNumber} (h : n.toBinary64.isFinite) : NumbersFinite (.number n)
  | string (s : String) : NumbersFinite (.string s)
  | array {items : List Json} (h : ∀ item ∈ items, NumbersFinite item) :
      NumbersFinite (.array items)
  | object {members : List (String × Json)} (h : ∀ m ∈ members, NumbersFinite m.2) :
      NumbersFinite (.object members)

/-- The numbers of a member are numbers of the value. -/
theorem Json.NumbersFinite.of_get? {v m : Json} {name : String} (h : v.NumbersFinite)
    (hm : v.get? name = some m) : m.NumbersFinite := by
  cases h with
  | object h => exact h (name, m) (mem_of_entryValue? hm)
  | _ => cases hm

/-- An object has the numbers of the members that it is built from. -/
theorem Json.numbersFinite_ofMembers {members : List (String × Json)}
    (h : ∀ m ∈ members, m.2.NumbersFinite) : (Json.ofMembers members).NumbersFinite := by
  -- The entries so far have finite numbers, too.
  have hfold : ∀ entries : List (String × Json), (∀ e ∈ entries, e.2.NumbersFinite) →
      ∀ e ∈ members.foldl (fun entries m => setEntry m.1 m.2 entries) entries,
        e.2.NumbersFinite := by
    induction members with
    | nil => exact fun entries hentries => hentries
    | cons first rest ih =>
      intro entries hentries
      refine ih (fun m hm => h m (List.mem_cons_of_mem _ hm)) _ fun e he => ?_
      rcases mem_setEntry _ _ _ e he with rfl | he
      · exact h first List.mem_cons_self
      · exact hentries e he
  exact .object (hfold [] (by simp))

namespace Decoder

/-- A sequence or mapping is read only when it is closed. -/
theorem finish_eq_ok_iff {α : Type} {closed : Bool} {value read : α} :
    finish closed value = .ok read ↔ closed = true ∧ value = read := by
  unfold finish
  cases closed <;> simp

/-- What the items of a sequence give has come from one of them. -/
theorem exists_mem_of_items {α : Type} {item : Document → Except Fault α} {index : Nat}
    {documents : List Document} {values : List α} (h : items item index documents = .ok values)
    {value : α} (hvalue : value ∈ values) : ∃ document ∈ documents, item document = .ok value := by
  induction documents generalizing index values with
  | nil =>
    cases h
    cases hvalue
  | cons document documents ih =>
    obtain ⟨first, hfirst, h⟩ := bind_eq_ok_iff.1 h
    obtain ⟨rest, hrest, h⟩ := bind_eq_ok_iff.1 h
    cases h
    rcases List.mem_cons.1 hvalue with rfl | hvalue
    · exact ⟨document, List.mem_cons_self, mapError_eq_ok_iff.1 hfirst⟩
    · obtain ⟨other, hother, hread⟩ := ih hrest hvalue
      exact ⟨other, List.mem_cons_of_mem _ hother, hread⟩

/-- What the members of a mapping give has come from one of them. -/
theorem exists_mem_of_members {α : Type} {format : Format} {read : Document → Except Fault α}
    {documents : List (Document × Document)} {entries : List (String × α)}
    (h : members format read documents = .ok entries) {entry : String × α}
    (hentry : entry ∈ entries) : ∃ m ∈ documents, read m.2 = .ok entry.2 := by
  induction documents generalizing entries with
  | nil =>
    cases h
    cases hentry
  | cons m documents ih =>
    obtain ⟨name, -, h⟩ := bind_eq_ok_iff.1 h
    obtain ⟨first, hfirst, h⟩ := bind_eq_ok_iff.1 h
    obtain ⟨others, hothers, h⟩ := bind_eq_ok_iff.1 h
    cases h
    rcases List.mem_cons.1 hentry with rfl | hentry
    · exact ⟨m, List.mem_cons_self, mapError_eq_ok_iff.1 hfirst⟩
    · obtain ⟨other, hother, hread⟩ := ih hothers hentry
      exact ⟨other, List.mem_cons_of_mem _ hother, hread⟩

/-- What is read from a leaf that fits has finite numbers only. -/
theorem numbersFinite_of_leafJson {document : Document} {v : Json} (hfits : document.Fits)
    (h : leafJson document = .ok v) : v.NumbersFinite := by
  unfold leafJson at h
  split at h
  · rename_i value hvalue
    cases value with
    | null =>
      cases h
      exact .null
    | bool b =>
      cases h
      exact .bool b
    | integer i =>
      cases h
      exact .number (hfits.integer hvalue).isFinite
    | wide i => cases h
    | float x =>
      -- A double that is not finite has become null.
      have hv : (if x.isFinite then Json.number (.float x) else .null) = v := Except.ok.inj h
      split at hv
      · rename_i hfinite
        rw [← hv]
        exact .number hfinite
      · rw [← hv]
        exact .null
    | string s =>
      cases h
      exact .string s
  · cases h

/-- What is read from a document that fits has finite numbers only. -/
theorem numbersFinite_of_json {format : Format} {levels : Nat} {document : Document} {v : Json}
    (hfits : document.Fits) (h : json format levels document = .ok v) : v.NumbersFinite := by
  induction levels generalizing document v with
  | zero =>
    cases document with
    | sequence documents closed => cases h
    | mapping documents closed => cases h
    | _ => exact numbersFinite_of_leafJson hfits h
  | succ levels ih =>
    cases document with
    | sequence documents closed =>
      obtain ⟨values, hvalues, h⟩ := bind_eq_ok_iff.1 h
      obtain ⟨-, rfl⟩ := finish_eq_ok_iff.1 h
      cases hfits with
      | sequence hitems =>
        refine .array fun value hvalue => ?_
        obtain ⟨document, hmem, hread⟩ := exists_mem_of_items hvalues hvalue
        exact ih (hitems document hmem) hread
    | mapping documents closed =>
      obtain ⟨entries, hentries, h⟩ := bind_eq_ok_iff.1 h
      obtain ⟨-, rfl⟩ := finish_eq_ok_iff.1 h
      cases hfits with
      | mapping hmembers =>
        refine Json.numbersFinite_ofMembers fun entry hentry => ?_
        obtain ⟨m, hmem, hread⟩ := exists_mem_of_members hentries hentry
        exact ih (hmembers m hmem) hread
    | _ => exact numbersFinite_of_leafJson hfits h

end Decoder

/-- What is read from JSON text has finite numbers only. -/
theorem Json.numbersFinite_of_read {text : String} {v : Json}
    (h : (Json.read text).decode .json Decoder.json = .ok v) : v.NumbersFinite := by
  obtain ⟨value, hvalue, h⟩ := bind_eq_ok_iff.1 h
  split at h
  · cases h
  · cases h
    exact Decoder.numbersFinite_of_json (fits_read text) hvalue

end AuditedRules
