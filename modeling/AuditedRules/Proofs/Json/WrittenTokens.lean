import AuditedRules.Proofs.Json.Lexemes

/-!
# The tokens of a written value

The compact text of a value is cut into the tokens that one expects: brackets, commas and colons as
they are written, and one token for each scalar (`lexed_write`). The bounds that make the cutting
end are never reached, since they exceed the length of what is left, so the tokens of a text are
stated for every such bound (`Lexed`), and each token of a text is one step of that (`Lexed.cons`).
All that is asked of the value is that its numbers are kept (`NumbersKept`).

Whether a number is read as what it was depends on how numbers are read. The one fact that is needed
of a reading is that it gives the number back from the text of the number alone
(`NumberReading.Keeps`); that text has the same parts in front of whatever does not continue it
(`exists_parts_numberText`). The reading that takes the nearest double keeps every number that
documents have (`keeps_numberOfParts`).

A value is read from its text as the same value when, besides, its objects have their members in
ascending order and it is not nested too deep (`Writable`).
-/

namespace AuditedRules.Json

/-! ## Values that can be written -/

/-- A value with at most so many levels of arrays and objects that can be read from its text. -/
inductive Writable : Nat → Json → Prop
  | null {levels : Nat} : Writable levels .null
  | bool {levels : Nat} (b : Bool) : Writable levels (.bool b)
  | number {levels : Nat} {n : DocumentNumber} (fits : n.Fits) : Writable levels (.number n)
  | string {levels : Nat} (s : String) : Writable levels (.string s)
  | array {levels : Nat} {items : List Json} (writable : ∀ item ∈ items, Writable levels item) :
    Writable (levels + 1) (.array items)
  | object {levels : Nat} {members : List (String × Json)} (ascending : Ascending members)
      (writable : ∀ m ∈ members, Writable levels m.2) :
    Writable (levels + 1) (.object members)

/-- A value all of whose numbers have a property. -/
inductive AllNumbers (P : DocumentNumber → Prop) : Json → Prop
  | null : AllNumbers P .null
  | bool (b : Bool) : AllNumbers P (.bool b)
  | number {n : DocumentNumber} (holds : P n) : AllNumbers P (.number n)
  | string (s : String) : AllNumbers P (.string s)
  | array {items : List Json} (all : ∀ item ∈ items, AllNumbers P item) :
    AllNumbers P (.array items)
  | object {members : List (String × Json)} (all : ∀ m ∈ members, AllNumbers P m.2) :
    AllNumbers P (.object members)

/-- A value whose numbers are those that documents have. -/
abbrev NumbersFit (v : Json) : Prop :=
  v.AllNumbers DocumentNumber.Fits

/-- A property of numbers that follows from another one holds of all numbers where that does. -/
theorem AllNumbers.mono {P Q : DocumentNumber → Prop} (hPQ : ∀ n, P n → Q n) {v : Json}
    (h : v.AllNumbers P) : v.AllNumbers Q := by
  induction h with
  | null => exact .null
  | bool b => exact .bool b
  | number holds => exact .number (hPQ _ holds)
  | string s => exact .string s
  | array _ ih => exact .array ih
  | object _ ih => exact .object ih

/-- The numbers of a value that can be written fit. -/
theorem Writable.numbersFit {levels : Nat} {v : Json} (h : v.Writable levels) : v.NumbersFit := by
  induction h with
  | null => exact .null
  | bool b => exact .bool b
  | number fits => exact .number fits
  | string s => exact .string s
  | array _ ih => exact .array ih
  | object _ _ ih => exact .object ih

/-! ## Strings -/

/-- A hexadecimal digit has its value. -/
theorem hexValue?_hexDigit : ∀ n < 16, Text.hexValue? (hexDigit n) = some n := by
  decide

/-- The escape of a control character stands for it. -/
theorem takeUnicode_control {n : Nat} (h : n < 32) (text : List Char) :
    takeUnicode ('0' :: '0' :: hexDigit (n / 16) :: hexDigit (n % 16) :: text) =
      some (some (Char.ofNat n), text) := by
  have hdigits : takeHex4 ('0' :: '0' :: hexDigit (n / 16) :: hexDigit (n % 16) :: text) =
      some (n, text) := by
    have hzero : Text.hexValue? '0' = some 0 := rfl
    unfold takeHex4
    simp [hzero, hexValue?_hexDigit (n / 16) (by omega), hexValue?_hexDigit (n % 16) (by omega),
      Nat.div_add_mod']
  have hhigh : isHighSurrogate n = false := by simp [isHighSurrogate]; omega
  have hlow : isLowSurrogate n = false := by simp [isLowSurrogate]; omega
  unfold takeUnicode
  simp [hdigits, hhigh, hlow]

/-- A character is read as it was written. -/
theorem takeString_escapeChar (bound : Nat) (c : Char) (text read : List Char) :
    takeString (bound + 1) (escapeChar c ++ text) (some read) =
      takeString bound text (some (c :: read)) := by
  unfold escapeChar
  -- The quote, the backslash and five control characters have an escape of their own.
  iterate 7
    split
    · subst_vars
      rfl
  split
  · rename_i hcontrol
    show (takeUnicode ('0' :: '0' :: hexDigit (c.toNat / 16) :: hexDigit (c.toNat % 16) ::
      text)).bind _ = _
    rw [takeUnicode_control hcontrol, Char.ofNat_toNat]
    rfl
  · rename_i hquote hbackslash _ _ _ _ _ hplain
    show (if c == '"' then _ else if c == '\\' then _ else if c.toNat < 32 then _ else _) = _
    rw [if_neg (by simpa using hquote), if_neg (by simpa using hbackslash), if_neg hplain]
    rfl

/-- Characters are read as they were written, up to the closing quote. -/
theorem takeString_escaped {bound : Nat} {cs read rest : List Char}
    (h : (cs.flatMap escapeChar ++ '"' :: rest).length < bound) :
    takeString bound (cs.flatMap escapeChar ++ '"' :: rest) (some read) =
      some (.string (some (String.ofList (read.reverse ++ cs))), rest) := by
  induction cs generalizing bound read with
  | nil =>
    cases bound with
    | zero => cases h
    | succ bound =>
      rw [List.append_nil]
      rfl
  | cons c cs ih =>
    cases bound with
    | zero => cases h
    | succ bound =>
      -- Each character takes one from the bound, and is not shorter than one character.
      have hlong : 0 < (escapeChar c).length := by
        unfold escapeChar
        repeat' split
        all_goals exact Nat.zero_lt_succ _
      rw [List.flatMap_cons, List.append_assoc] at h ⊢
      rw [List.length_append] at h
      rw [takeString_escapeChar, ih (by omega), List.reverse_cons, List.append_assoc]
      rfl

/-- A string is read as it was written. -/
theorem takeToken_writeString {reading : NumberReading} {bound : Nat} {s : String}
    {rest : List Char} (h : (s.toList.flatMap escapeChar ++ '"' :: rest).length < bound) :
    takeToken bound '"' (s.toList.flatMap escapeChar ++ '"' :: rest) reading =
      some (.string (some s), rest) := by
  show takeString bound _ (some []) = _
  rw [takeString_escaped h, List.reverse_nil, List.nil_append, String.ofList_toList]

/-! ## Tokens of a text -/

/-- A text is cut into tokens, whatever bound exceeds its length. -/
def Lexed (text : List Char) (tokens : List Token) (reading : NumberReading := numberOfParts) :
    Prop :=
  ∀ bound, text.length < bound → tokensWithin bound text reading = tokens

section
variable {reading : NumberReading} {rest : List Char} {tokens : List Token}

/-- An empty text has no tokens. -/
theorem Lexed.nil : Lexed [] [] reading := by
  intro bound h
  cases bound with
  | zero => cases h
  | succ bound => rfl

/-- A token at the front of a text comes before the tokens of what follows it. -/
theorem Lexed.cons {c : Char} (front : List Char) {token : Token} (hspace : isSpace c = false)
    (htoken : ∀ bound, (front ++ rest).length < bound →
      takeToken bound c (front ++ rest) reading = some (token, rest))
    (hrest : Lexed rest tokens reading) :
    Lexed (c :: (front ++ rest)) (token :: tokens) reading := by
  intro bound h
  cases bound with
  | zero => cases h
  | succ bound =>
    rw [List.length_cons] at h
    rw [tokensWithin, hspace, htoken (bound + 1) (by omega)]
    rw [List.length_append] at h
    show token :: tokensWithin bound rest reading = token :: tokens
    rw [hrest bound (by omega)]

/-- A character that is a token by itself. -/
theorem Lexed.mark {c : Char} {token : Token}
    (htoken : ∀ bound rest, takeToken bound c rest reading = some (token, rest))
    (hspace : isSpace c = false) (hrest : Lexed rest tokens reading) :
    Lexed (c :: rest) (token :: tokens) reading :=
  .cons [] hspace (fun bound _ => htoken bound rest) hrest

/-- A string is one token. -/
theorem Lexed.string {s : String} (hrest : Lexed rest tokens reading) :
    Lexed (writeString s rest) (.string (some s) :: tokens) reading := by
  have hread : Lexed ('"' :: ((s.toList.flatMap escapeChar ++ ['"']) ++ rest))
      (.string (some s) :: tokens) reading := by
    refine .cons _ rfl (fun bound h => ?_) hrest
    rw [List.append_assoc] at h ⊢
    exact takeToken_writeString h
  rw [List.append_assoc] at hread
  exact hread

end

/-! ## Numbers -/

/-- A reading keeps a number: it reads the text of the number as that number. -/
def NumberReading.Keeps (reading : NumberReading) (n : DocumentNumber) : Prop :=
  tokens (numberText n) reading = [.number (some n)]

/-- A value all of whose numbers are kept by a reading. -/
def NumbersKept (v : Json) (reading : NumberReading) : Prop :=
  v.AllNumbers reading.Keeps

/-- The end of the text does not continue a number. -/
theorem endsNumber_nil : EndsNumber [] := fun _ hc => by cases hc

/-- A number that some reading takes from a text alone, after its sign, has the same parts in front
of whatever does not continue it, and for every reading. -/
theorem exists_parts_of_takeNumber {negative : Bool} {digits : List Char} {token : Token}
    (hread : takeNumber negative digits = some (token, [])) :
    ∃ c more whole fraction exponent,
      (if negative then '-' :: digits else digits) = c :: more ∧ isSpace c = false ∧
        ∀ bound (reading : NumberReading), Cuts (takeToken bound c · reading) EndsNumber more
          (.number (reading negative whole fraction exponent)) := by
  obtain ⟨own, whole, fraction, exponent, hown, -, -, -, hcut⟩ := exists_of_takeNumber hread
  obtain rfl : digits = own := hown.trans (List.append_nil own)
  cases negative with
  | true => exact ⟨'-', digits, whole, fraction, exponent, rfl, rfl, fun _ => hcut⟩
  | false =>
    obtain ⟨c, more, rfl, hdigit⟩ := exists_digit_of_takeNumber hread
    exact ⟨c, more, whole, fraction, exponent, rfl, isSpace_digit hdigit,
      fun bound reading rest h => (takeToken_digit bound hdigit (more ++ rest)).trans
        (hcut reading rest h)⟩

/-- The text of a number has the same parts in front of whatever does not continue it, for every
reading. Doubles that are no numbers are written as the word for nothing instead. -/
theorem exists_parts_numberText (n : DocumentNumber) :
    numberText n = ['n', 'u', 'l', 'l'] ∨
    ∃ c more negative whole fraction exponent, numberText n = c :: more ∧ isSpace c = false ∧
      ∀ bound (reading : NumberReading), Cuts (takeToken bound c · reading) EndsNumber more
        (.number (reading negative whole fraction exponent)) := by
  cases n with
  | int i =>
    -- The parts are those that the nearest reading finds in the text alone.
    have hread := takeNumber_digitsOf (decide (i < 0)) i.natAbs endsNumber_nil
    rw [List.append_nil] at hread
    obtain ⟨c, more, whole, fraction, exponent, htext, hparts⟩ := exists_parts_of_takeNumber hread
    simp only [decide_eq_true_eq] at htext
    exact .inr ⟨c, more, _, whole, fraction, exponent, htext, hparts⟩
  | float x =>
    cases x with
    | finite negative units hunits =>
      have hread := takeNumber_magnitude negative hunits endsNumber_nil
      rw [List.append_nil] at hread
      obtain ⟨c, more, whole, fraction, exponent, hparts⟩ := exists_parts_of_takeNumber hread
      exact .inr ⟨c, more, negative, whole, fraction, exponent, hparts⟩
    | nan => exact .inl rfl
    | infinity negative => exact .inl rfl

/-- A number that is kept is one token, where the text does not continue it. -/
theorem Lexed.number {reading : NumberReading} {n : DocumentNumber} (hkept : reading.Keeps n)
    {rest : List Char} {tokens : List Token} (hends : EndsNumber rest)
    (hrest : Lexed rest tokens reading) :
    Lexed (numberText n ++ rest) (.number (some n) :: tokens) reading := by
  rcases exists_parts_numberText n with
    hnull | ⟨c, more, negative, whole, fraction, exponent, htext, hspace, hcut⟩
  · -- The word for nothing is not read as a number.
    unfold NumberReading.Keeps at hkept
    rw [hnull] at hkept
    cases hkept
  · have hlexed {rest : List Char} {tokens : List Token} (hends : EndsNumber rest)
        (hrest : Lexed rest tokens reading) : Lexed (numberText n ++ rest)
          (.number (reading negative whole fraction exponent) :: tokens) reading := by
      rw [htext]
      exact .cons more hspace (fun bound _ => hcut bound reading rest hends) hrest
    -- What the parts are read as is what the text alone is read as.
    have halone := hlexed endsNumber_nil .nil _ (Nat.lt_succ_self _)
    rw [List.append_nil] at halone
    rw [← (List.cons.inj (halone.symm.trans hkept)).1]
    exact hlexed hends hrest

/-- The nearest double to the shortest decimal of a double is that double, so where it is taken all
numbers of documents are kept. -/
theorem keeps_numberOfParts {n : DocumentNumber} (hn : n.Fits) :
    NumberReading.Keeps numberOfParts n := by
  obtain ⟨c, more, htext, hstarts, htoken⟩ := takeToken_numberText hn endsNumber_nil
  have hlexed : Lexed (c :: (more ++ [])) [.number (some n)] :=
    .cons more (isSpace_of_startsNumber hstarts) (fun bound _ => htoken bound) .nil
  rw [List.append_nil, ← htext] at hlexed
  exact hlexed _ (Nat.lt_succ_self _)

/-- A value whose numbers are those of documents is kept where the nearest doubles are taken. -/
theorem NumbersFit.numbersKept {v : Json} (h : v.NumbersFit) : v.NumbersKept numberOfParts :=
  h.mono fun _ => keeps_numberOfParts

/-! ## Tokens of a value -/

mutual

/-- The tokens of a value, followed by others. -/
def tokensOnto : Json → List Token → List Token
  | .null, rest => .null :: rest
  | .bool b, rest => .bool b :: rest
  | .number n, rest => .number (some n) :: rest
  | .string s, rest => .string (some s) :: rest
  | .array [], rest => .openArray :: .closeArray :: rest
  | .array (item :: items), rest => .openArray :: tokensOnto item (itemTokens items rest)
  | .object [], rest => .openObject :: .closeObject :: rest
  | .object ((name, value) :: members), rest =>
    .openObject :: .string (some name) :: .colon :: tokensOnto value (memberTokens members rest)

/-- The tokens of the further items of an array and of its closing bracket. -/
def itemTokens : List Json → List Token → List Token
  | [], rest => .closeArray :: rest
  | item :: items, rest => .comma :: tokensOnto item (itemTokens items rest)

/-- The tokens of the further members of an object and of its closing brace. -/
def memberTokens : List (String × Json) → List Token → List Token
  | [], rest => .closeObject :: rest
  | (name, value) :: members, rest =>
    .comma :: .string (some name) :: .colon :: tokensOnto value (memberTokens members rest)

end

/-- A mark that is no part of a number ends it. -/
theorem endsNumber_mark {c : Char} (rest : List Char)
    (h : c.isDigit = false ∧ c ≠ '.' ∧ c ≠ 'e' ∧ c ≠ 'E') : EndsNumber (c :: rest) := by
  intro c' hc'
  cases hc'
  exact h

/-- Further items do not continue a number. -/
theorem endsNumber_writeItems (items : List Json) (rest : List Char) :
    EndsNumber (writeItems items rest) := by
  cases items with
  | nil => exact endsNumber_mark rest (by decide)
  | cons item items => exact endsNumber_mark _ (by decide)

/-- Further members do not continue a number. -/
theorem endsNumber_writeMembers (members : List (String × Json)) (rest : List Char) :
    EndsNumber (writeMembers members rest) := by
  cases members with
  | nil => exact endsNumber_mark rest (by decide)
  | cons member members => exact endsNumber_mark _ (by decide)

section
variable {reading : NumberReading}

mutual

/-- A value whose numbers are kept is cut into its tokens. -/
theorem lexed_write : ∀ {v : Json} {rest : List Char} {tokens : List Token},
    v.NumbersKept reading → EndsNumber rest → Lexed rest tokens reading →
      Lexed (v.write rest) (v.tokensOnto tokens) reading
  | .null, _, _, _, _, h => .cons ['u', 'l', 'l'] rfl (fun _ _ => rfl) h
  | .bool true, _, _, _, _, h => .cons ['r', 'u', 'e'] rfl (fun _ _ => rfl) h
  | .bool false, _, _, _, _, h => .cons ['a', 'l', 's', 'e'] rfl (fun _ _ => rfl) h
  | .number _, _, _, .number kept, hends, h => .number kept hends h
  | .string _, _, _, _, _, h => .string h
  | .array [], _, _, _, _, h => .mark (fun _ _ => rfl) rfl (.mark (fun _ _ => rfl) rfl h)
  | .array (item :: items), _, _, .array kept, _, h => by
    refine .mark (fun _ _ => rfl) rfl ?_
    refine lexed_write (kept item List.mem_cons_self) (endsNumber_writeItems items _) ?_
    exact lexed_writeItems (fun i hi => kept i (List.mem_cons_of_mem _ hi)) h
  | .object [], _, _, _, _, h => .mark (fun _ _ => rfl) rfl (.mark (fun _ _ => rfl) rfl h)
  | .object ((name, value) :: members), _, _, .object kept, _, h => by
    refine .mark (fun _ _ => rfl) rfl (.string (.mark (fun _ _ => rfl) rfl ?_))
    refine lexed_write (kept (name, value) List.mem_cons_self)
      (endsNumber_writeMembers members _) ?_
    exact lexed_writeMembers (fun m hm => kept m (List.mem_cons_of_mem _ hm)) h

/-- Further items of an array are cut into their tokens. -/
theorem lexed_writeItems : ∀ {items : List Json} {rest : List Char} {tokens : List Token},
    (∀ item ∈ items, item.NumbersKept reading) → Lexed rest tokens reading →
      Lexed (writeItems items rest) (itemTokens items tokens) reading
  | [], _, _, _, h => .mark (fun _ _ => rfl) rfl h
  | item :: items, _, _, kept, h => by
    refine .mark (fun _ _ => rfl) rfl ?_
    refine lexed_write (kept item List.mem_cons_self) (endsNumber_writeItems items _) ?_
    exact lexed_writeItems (fun i hi => kept i (List.mem_cons_of_mem _ hi)) h

/-- Further members of an object are cut into their tokens. -/
theorem lexed_writeMembers : ∀ {members : List (String × Json)} {rest : List Char}
    {tokens : List Token}, (∀ m ∈ members, m.2.NumbersKept reading) → Lexed rest tokens reading →
      Lexed (writeMembers members rest) (memberTokens members tokens) reading
  | [], _, _, _, h => .mark (fun _ _ => rfl) rfl h
  | (name, value) :: members, _, _, kept, h => by
    refine .mark (fun _ _ => rfl) rfl (.string (.mark (fun _ _ => rfl) rfl ?_))
    refine lexed_write (kept (name, value) List.mem_cons_self)
      (endsNumber_writeMembers members _) ?_
    exact lexed_writeMembers (fun m hm => kept m (List.mem_cons_of_mem _ hm)) h

end

end

end AuditedRules.Json
