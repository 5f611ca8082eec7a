import AuditedRules.Proofs.Json.NumberText
import AuditedRules.Text.Blank

/-!
# The characters of tokens

What one token takes of a text is a lexeme (`Lexeme`): a string in quotes, whose characters stand
for a text (`Spells`), or a few characters among which there are no white space and no backquote.
The token at the front of a text takes a lexeme, if it has a value (`exists_of_takeToken`).

A lexeme is cut off a text whatever follows it, apart from a number, which must not be continued. So
the same token is taken off every other text that starts with the lexeme (`Cuts`), and to know the
parts of a number or of an escape is to know this of each part.
-/

namespace AuditedRules.Json

/-- What is cut off the front of a text has the given value, whatever follows of what may end it. -/
def Cuts {α : Type} (take : List Char → Option (α × List Char)) (Ends : List Char → Prop)
    (own : List Char) (value : α) : Prop :=
  ∀ rest, Ends rest → take (own ++ rest) = some (value, rest)

/-! ## Plain characters -/

/-- A character that is no white space and no backquote. -/
def IsPlain (c : Char) : Prop :=
  Text.isBlank c = false ∧ c ≠ '\x60'

instance : DecidablePred IsPlain := fun _ => inferInstanceAs (Decidable (_ ∧ _))

/-- Characters that are tested one by one are plain. -/
theorem forall_isPlain {own : List Char} (h : own.all (fun c => decide (IsPlain c)) = true) :
    ∀ c ∈ own, IsPlain c := fun c hc =>
  of_decide_eq_true (List.all_eq_true.1 h c hc)

/-- A digit is plain. -/
theorem isPlain_of_isDigit {c : Char} (h : c.isDigit = true) : IsPlain c := by
  have hzero : '0'.val ≤ c.val := of_decide_eq_true (Bool.and_eq_true_iff.1 h).1
  have hnine : c.val ≤ '9'.val := of_decide_eq_true (Bool.and_eq_true_iff.1 h).2
  have hlow : 48 ≤ c.toNat := UInt32.le_iff_toNat_le.1 hzero
  have hhigh : c.toNat ≤ 57 := UInt32.le_iff_toNat_le.1 hnine
  constructor
  · simp only [Text.isBlank, Bool.or_eq_false_iff, Bool.and_eq_false_iff, decide_eq_false_iff_not,
      beq_eq_false_iff_ne]
    omega
  · rintro rfl
    exact absurd hhigh (by decide)

/-! ## Numbers -/

/-- A text does not go on with digits or a point. -/
def EndsFraction (rest : List Char) : Prop :=
  ∀ c ∈ rest.head?, c.isDigit = false ∧ c ≠ '.'

/-- What does not continue a number does not continue a fraction. -/
theorem EndsNumber.endsFraction {rest : List Char} (h : EndsNumber rest) : EndsFraction rest :=
  fun c hc => ⟨(h c hc).1, (h c hc).2.1⟩

/-- What does not continue a fraction does not continue its digits. -/
theorem EndsFraction.endsDigits {rest : List Char} (h : EndsFraction rest) : EndsDigits rest :=
  fun c hc => (h c hc).1

/-- Behind the digits at the front of a text there is no digit. -/
theorem endsDigits_dropWhile (text : List Char) : EndsDigits (text.dropWhile Char.isDigit) := by
  intro c hc
  have hhead := List.head?_dropWhile_not Char.isDigit text
  rw [Option.mem_def.1 hc] at hhead
  exact hhead

/-- The digits at the front of a text are digits. -/
theorem isDigit_of_mem_takeWhile {text : List Char} :
    ∀ c ∈ text.takeWhile Char.isDigit, c.isDigit = true := fun c hc =>
  List.all_eq_true.1 (List.all_takeWhile (p := Char.isDigit) (l := text)) c hc

section
variable {text rest : List Char}

/-- A fraction takes plain characters, and behind it the digits end. -/
theorem exists_of_takeFraction {fraction : Option (List Char)} (htext : EndsDigits text)
    (h : takeFraction text = some (fraction, rest)) :
    ∃ own, text = own ++ rest ∧ (∀ c ∈ own, IsPlain c) ∧ EndsDigits rest ∧
      (∀ rest', EndsDigits rest' → EndsDigits (own ++ rest')) ∧
      Cuts takeFraction EndsFraction own fraction := by
  unfold takeFraction at h
  split at h
  · rename_i digits
    dsimp only at h
    split at h
    · cases h
    · rename_i hsome
      obtain ⟨rfl, rfl⟩ := Prod.mk.inj (Option.some.inj h)
      have hne : digits.takeWhile Char.isDigit ≠ [] := by simpa using hsome
      refine ⟨'.' :: digits.takeWhile Char.isDigit, ?_, ?_, endsDigits_dropWhile digits,
        fun rest' _ => endsDigits_cons rfl _, fun rest' hrest' => ?_⟩
      · rw [List.cons_append, List.takeWhile_append_dropWhile]
      · exact List.forall_mem_cons.2 ⟨by decide, fun c hc =>
          isPlain_of_isDigit (isDigit_of_mem_takeWhile c hc)⟩
      · exact takeFraction_digits isDigit_of_mem_takeWhile hne hrest'.endsDigits
  · obtain ⟨rfl, rfl⟩ := Prod.mk.inj (Option.some.inj h)
    exact ⟨[], rfl, fun _ hc => absurd hc List.not_mem_nil, htext, fun _ hrest' => hrest',
      fun rest' hrest' => takeFraction_none fun hhead => (hrest' _ hhead).2 rfl⟩

/-- The sign at the front of a text, which is not negative without one, and the text behind it. -/
def takeSign : List Char → Bool × List Char
  | '+' :: rest => (false, rest)
  | '-' :: rest => (true, rest)
  | rest => (false, rest)

/-- The exponent that digits behind a sign stand for. -/
def signedExponent (negative : Bool) (text : List Char) : Option (Option Int × List Char) :=
  let digits := text.takeWhile Char.isDigit
  if digits.isEmpty then none
  else
    let n := (Binary64.digitsValue digits : Int)
    some (some (if negative then -n else n), text.dropWhile Char.isDigit)

/-- An exponent is a letter, a sign and digits. -/
theorem takeExponent_cons (c : Char) (text : List Char) :
    takeExponent (c :: text) =
      if c == 'e' || c == 'E' then signedExponent (takeSign text).1 (takeSign text).2
      else some (none, c :: text) := rfl

/-- The sign of a text is the same in front of other digits. -/
theorem exists_of_takeSign (text : List Char) :
    ∃ own, text = own ++ (takeSign text).2 ∧ (∀ c ∈ own, IsPlain c) ∧
      ∀ digit more, digit.isDigit = true →
        takeSign (own ++ digit :: more) = ((takeSign text).1, digit :: more) := by
  unfold takeSign
  split
  · exact ⟨['+'], rfl, forall_isPlain (by decide), fun _ _ _ => rfl⟩
  · exact ⟨['-'], rfl, forall_isPlain (by decide), fun _ _ _ => rfl⟩
  · refine ⟨[], rfl, fun _ hc => absurd hc List.not_mem_nil, fun digit more hdigit => ?_⟩
    rw [List.nil_append]
    split
    · rename_i heq
      rw [(List.cons.inj heq).1] at hdigit
      cases hdigit
    · rename_i heq
      rw [(List.cons.inj heq).1] at hdigit
      cases hdigit
    · rfl

/-- Digits behind a sign take plain characters, of which there is one, and behind them there is no
digit. -/
theorem exists_of_signedExponent {negative : Bool} {exponent : Option Int}
    (h : signedExponent negative text = some (exponent, rest)) :
    ∃ digit more, digit.isDigit = true ∧ text = digit :: more ++ rest ∧
      (∀ c ∈ digit :: more, IsPlain c) ∧ EndsDigits rest ∧
      Cuts (signedExponent negative) EndsDigits (digit :: more) exponent := by
  unfold signedExponent at h
  dsimp only at h
  split at h
  · cases h
  · rename_i hsome
    obtain ⟨rfl, rfl⟩ := Prod.mk.inj (Option.some.inj h)
    have hall : ∀ c ∈ text.takeWhile Char.isDigit, c.isDigit = true := isDigit_of_mem_takeWhile
    have htext := List.takeWhile_append_dropWhile (p := Char.isDigit) (l := text)
    have hends := endsDigits_dropWhile text
    generalize text.takeWhile Char.isDigit = digits at *
    generalize text.dropWhile Char.isDigit = rest at *
    cases digits with
    | nil => exact absurd rfl hsome
    | cons digit more =>
      refine ⟨digit, more, hall digit List.mem_cons_self, htext.symm,
        fun c hc => isPlain_of_isDigit (hall c hc), hends, fun rest' hrest' => ?_⟩
      unfold signedExponent
      rw [takeWhile_digits hall hrest', dropWhile_digits hall hrest']
      rfl

/-- An exponent takes plain characters, and behind it the digits end. -/
theorem exists_of_takeExponent {exponent : Option Int} (htext : EndsDigits text)
    (h : takeExponent text = some (exponent, rest)) :
    ∃ own, text = own ++ rest ∧ (∀ c ∈ own, IsPlain c) ∧ EndsDigits rest ∧
      (∀ rest', EndsNumber rest' → EndsFraction (own ++ rest')) ∧
      Cuts takeExponent EndsNumber own exponent := by
  -- Without its letter there is no exponent, and nothing is taken.
  have hnone (hrest : EndsDigits rest) : ∃ own, rest = own ++ rest ∧ (∀ c ∈ own, IsPlain c) ∧
      EndsDigits rest ∧ (∀ rest', EndsNumber rest' → EndsFraction (own ++ rest')) ∧
      Cuts takeExponent EndsNumber own none :=
    ⟨[], rfl, fun _ hc => absurd hc List.not_mem_nil, hrest,
      fun _ hrest' => hrest'.endsFraction, fun _ hrest' => takeExponent_none hrest'⟩
  cases text with
  | nil =>
    obtain ⟨rfl, rfl⟩ := Prod.mk.inj (Option.some.inj h)
    exact hnone htext
  | cons letter text =>
    rw [takeExponent_cons] at h
    split at h
    · rename_i hmarker
      have hletter : letter = 'e' ∨ letter = 'E' := by simpa using hmarker
      obtain ⟨sign, htextSign, hplainSign, hsign⟩ := exists_of_takeSign text
      obtain ⟨digit, more, hdigit, hdigits, hplain, hends, hcut⟩ := exists_of_signedExponent h
      rw [hdigits] at htextSign
      refine ⟨letter :: (sign ++ digit :: more), ?_, ?_, hends, fun rest' _ c hc => ?_,
        fun rest' hrest' => ?_⟩
      · rw [htextSign, ← List.append_assoc]
        rfl
      · refine List.forall_mem_cons.2 ⟨?_, fun c hc => ?_⟩
        · rcases hletter with rfl | rfl <;> decide
        · exact (List.mem_append.1 hc).elim (hplainSign c) (hplain c)
      · cases hc
        rcases hletter with rfl | rfl <;> decide
      · rw [List.cons_append, List.append_assoc, takeExponent_cons, if_pos hmarker,
          List.cons_append, hsign digit _ hdigit]
        exact hcut rest' hrest'.endsDigits
    · obtain ⟨rfl, rfl⟩ := Prod.mk.inj (Option.some.inj h)
      exact hnone htext

/-- A number takes plain characters, and behind it the digits end. These characters have the same
parts wherever the number ends, and for every reading. -/
theorem exists_of_takeNumber {reading : NumberReading} {negative : Bool} {token : Token}
    (h : takeNumber negative text reading = some (token, rest)) :
    ∃ own whole fraction exponent, text = own ++ rest ∧ (∀ c ∈ own, IsPlain c) ∧
      EndsDigits rest ∧ token = .number (reading negative whole fraction exponent) ∧
      ∀ reading : NumberReading, Cuts (takeNumber negative · reading) EndsNumber own
        (.number (reading negative whole fraction exponent)) := by
  unfold takeNumber at h
  dsimp only at h
  split at h
  · cases h
  · rename_i hvalid
    obtain ⟨⟨fraction, behindFraction⟩, hfraction, h⟩ := Option.bind_eq_some_iff.1 h
    obtain ⟨⟨exponent, behindExponent⟩, hexponent, h⟩ := Option.bind_eq_some_iff.1 h
    obtain ⟨rfl, rfl⟩ := Prod.mk.inj (Option.some.inj h)
    have hwhole : WholePart (text.takeWhile Char.isDigit) := by
      have hparts : text.takeWhile Char.isDigit ≠ [] ∧
          ((text.takeWhile Char.isDigit).head? = some '0' →
            (text.takeWhile Char.isDigit).length = 1) := by
        simpa using hvalid
      exact ⟨isDigit_of_mem_takeWhile, hparts.1, hparts.2⟩
    -- The three parts, one behind the other.
    obtain ⟨ownFraction, htail, hplainFraction, hbehind, hdigits, hcutFraction⟩ :=
      exists_of_takeFraction (endsDigits_dropWhile text) hfraction
    obtain ⟨ownExponent, rfl, hplainExponent, hends, hpoint, hcutExponent⟩ :=
      exists_of_takeExponent hbehind hexponent
    refine ⟨text.takeWhile Char.isDigit ++ (ownFraction ++ ownExponent), _, _, _, ?_, ?_, hends,
      rfl, fun reading rest' hrest' => ?_⟩
    · rw [List.append_assoc, List.append_assoc, ← htail, List.takeWhile_append_dropWhile]
    · intro c hc
      rcases List.mem_append.1 hc with hc | hc
      · exact isPlain_of_isDigit (isDigit_of_mem_takeWhile c hc)
      · exact (List.mem_append.1 hc).elim (hplainFraction c) (hplainExponent c)
    · dsimp only
      rw [List.append_assoc, List.append_assoc]
      exact takeNumber_wholePart negative hwhole (hdigits _ (hpoint rest' hrest').endsDigits)
        (hcutFraction _ (hpoint rest' hrest')) (hcutExponent rest' hrest')

end

/-! ## Strings -/

/-- Nothing is asked of what follows. -/
def Anything (_ : List Char) : Prop := True

/-- A hexadecimal digit is no backquote. -/
theorem ne_backquote_of_hexValue? {c : Char} {n : Nat} (h : Text.hexValue? c = some n) :
    c ≠ '\x60' := by
  rintro rfl
  cases h

/-- A letter that is escaped is no backquote. -/
theorem ne_backquote_of_shortEscape? {letter c : Char} (h : shortEscape? letter = some c) :
    letter ≠ '\x60' := by
  rintro rfl
  cases h

section
variable {text rest : List Char}

/-- Four hexadecimal digits are cut off. -/
theorem exists_of_takeHex4 {n : Nat} (h : takeHex4 text = some (n, rest)) :
    ∃ own, text = own ++ rest ∧ '\x60' ∉ own ∧ Cuts takeHex4 Anything own n := by
  unfold takeHex4 at h
  split at h
  · rename_i a b c d rest
    obtain ⟨na, ha, h⟩ := Option.bind_eq_some_iff.1 h
    obtain ⟨nb, hb, h⟩ := Option.bind_eq_some_iff.1 h
    obtain ⟨nc, hc, h⟩ := Option.bind_eq_some_iff.1 h
    obtain ⟨nd, hd, h⟩ := Option.bind_eq_some_iff.1 h
    obtain ⟨rfl, rfl⟩ := Prod.mk.inj (Option.some.inj h)
    refine ⟨[a, b, c, d], rfl, ?_, fun rest' _ => ?_⟩
    · simp [(ne_backquote_of_hexValue? ha).symm, (ne_backquote_of_hexValue? hb).symm,
        (ne_backquote_of_hexValue? hc).symm, (ne_backquote_of_hexValue? hd).symm]
    · show takeHex4 (a :: b :: c :: d :: rest') = _
      unfold takeHex4
      simp [ha, hb, hc, hd]
  · cases h

/-- The digits of a character are cut off, those of both halves if it takes two. -/
theorem exists_of_takeUnicode {c : Char} (h : takeUnicode text = some (some c, rest)) :
    ∃ own, text = own ++ rest ∧ '\x60' ∉ own ∧ Cuts takeUnicode Anything own (some c) := by
  obtain ⟨⟨n, behind⟩, hfirst, h⟩ := Option.bind_eq_some_iff.1 h
  obtain ⟨own, htext, hquote, hcut⟩ := exists_of_takeHex4 hfirst
  dsimp only at h
  split at h
  · -- Half of a pair needs a second escape, so two runs of digits are cut off.
    rename_i hhigh
    split at h
    · rename_i more
      obtain ⟨⟨m, after⟩, hsecond, h⟩ := Option.bind_eq_some_iff.1 h
      dsimp only at h
      split at h
      · rename_i hlow
        obtain ⟨hc, rfl⟩ := Prod.mk.inj (Option.some.inj h)
        obtain ⟨own', hmore, hquote', hcut'⟩ := exists_of_takeHex4 hsecond
        refine ⟨own ++ '\\' :: 'u' :: own', ?_, ?_, fun rest' _ => ?_⟩
        · rw [htext, hmore, List.append_assoc]
          rfl
        · simp [hquote, hquote']
        · unfold takeUnicode
          rw [List.append_assoc, hcut _ trivial]
          simp [hhigh, hcut' rest' trivial, hlow, hc]
      · cases h
    · cases h
  · -- A character by itself is cut off with its four digits.
    rename_i hhigh
    split at h
    · cases h
    · rename_i hlow
      obtain ⟨hc, rfl⟩ := Prod.mk.inj (Option.some.inj h)
      refine ⟨own, htext, hquote, fun rest' _ => ?_⟩
      unfold takeUnicode
      rw [hcut _ trivial]
      simp [hhigh, hlow, hc]

/-- The characters between two quotes stand for those of a text. -/
inductive Spells : List Char → List Char → Prop
  | nil : Spells [] []
  /-- A character stands for itself. -/
  | char {c : Char} {raw cs : List Char} (quote : c ≠ '"') (backslash : c ≠ '\\')
    (control : ¬ c.toNat < 32) (rest : Spells raw cs) : Spells (c :: raw) (c :: cs)
  /-- An escaped letter stands for a character. -/
  | letter {letter c : Char} {raw cs : List Char} (escape : shortEscape? letter = some c)
    (rest : Spells raw cs) : Spells ('\\' :: letter :: raw) (c :: cs)
  /-- Escaped digits stand for a character. -/
  | digits {digits : List Char} {c : Char} {raw cs : List Char} (backquote : '\x60' ∉ digits)
    (escape : Cuts takeUnicode Anything digits (some c)) (rest : Spells raw cs) :
    Spells ('\\' :: 'u' :: (digits ++ raw)) (c :: cs)

/-- A character that stands for itself is read. -/
theorem takeString_char {c : Char} (hquote : c ≠ '"') (hbackslash : c ≠ '\\')
    (hcontrol : ¬ c.toNat < 32) (bound : Nat) (text : List Char) (read : Option (List Char)) :
    takeString (bound + 1) (c :: text) read = takeString bound text (read.map (c :: ·)) := by
  show (if c == '"' then _ else if c == '\\' then _ else if c.toNat < 32 then _ else _) = _
  rw [if_neg (by simpa using hquote), if_neg (by simpa using hbackslash), if_neg hcontrol]

/-- An escaped letter is read as what it stands for. -/
theorem takeString_letter {letter c : Char} (h : shortEscape? letter = some c) (bound : Nat)
    (text : List Char) (read : Option (List Char)) :
    takeString (bound + 1) ('\\' :: letter :: text) read =
      takeString bound text (read.map (c :: ·)) := by
  have hu : letter = 'u' → False := by
    rintro rfl
    cases h
  rw [takeString]
  · show (shortEscape? letter).bind _ = _
    rw [h]
    rfl
  · exact hu

/-- Escaped digits are read as what they stand for. -/
theorem takeString_digits {digits : List Char} {c : Char}
    (h : Cuts takeUnicode Anything digits (some c)) (bound : Nat) (text read : List Char) :
    takeString (bound + 1) ('\\' :: 'u' :: (digits ++ text)) (some read) =
      takeString bound text (some (c :: read)) := by
  show (takeUnicode (digits ++ text)).bind _ = _
  rw [h text trivial]
  rfl

/-- What is between quotes is read as the text that it stands for. -/
theorem Spells.takeString_eq {raw cs : List Char} (h : Spells raw cs) {bound : Nat}
    {read : List Char} (hbound : (raw ++ '"' :: rest).length < bound) :
    takeString bound (raw ++ '"' :: rest) (some read) =
      some (.string (some (String.ofList (read.reverse ++ cs))), rest) := by
  -- Each character takes one from the bound, however many it takes of the text.
  induction h generalizing bound read with
  | nil =>
    cases bound with
    | zero => cases hbound
    | succ bound =>
      rw [List.append_nil]
      rfl
  | @char c raw cs quote backslash control _ ih =>
    cases bound with
    | zero => cases hbound
    | succ bound =>
      have hshorter : (raw ++ '"' :: rest).length < bound := Nat.lt_of_succ_lt_succ hbound
      rw [List.cons_append, takeString_char quote backslash control, Option.map_some,
        ih hshorter, List.reverse_cons, List.append_assoc]
      rfl
  | @letter letter c raw cs escape _ ih =>
    cases bound with
    | zero => cases hbound
    | succ bound =>
      have hshorter : (raw ++ '"' :: rest).length < bound :=
        Nat.lt_of_succ_lt (Nat.lt_of_succ_lt_succ hbound)
      rw [List.cons_append, List.cons_append, takeString_letter escape, Option.map_some,
        ih hshorter, List.reverse_cons, List.append_assoc]
      rfl
  | @digits digits c raw cs _ escape _ ih =>
    cases bound with
    | zero => cases hbound
    | succ bound =>
      have hshorter : (raw ++ '"' :: rest).length < bound := by
        simp only [List.length_cons, List.length_append] at hbound ⊢
        omega
      rw [List.cons_append, List.cons_append, List.append_assoc, takeString_digits escape,
        ih hshorter, List.reverse_cons, List.append_assoc]
      rfl

/-- A string is read as one, without a text once an escape stood for no character. -/
theorem exists_string_of_takeString {bound : Nat} {read : Option (List Char)} {token : Token}
    (h : takeString bound text read = some (token, rest)) :
    ∃ s, token = .string s ∧ (read = none → s = none) := by
  induction bound generalizing text read with
  | zero => cases h
  | succ bound ih =>
    cases text with
    | nil => cases h
    | cons c text =>
      unfold takeString at h
      split at h
      · cases h
        exact ⟨_, rfl, fun hread => by rw [hread]; rfl⟩
      split at h
      · split at h
        · obtain ⟨⟨char, behind⟩, -, h⟩ := Option.bind_eq_some_iff.1 h
          obtain ⟨s, htoken, hnone⟩ := ih h
          refine ⟨s, htoken, fun hread => hnone ?_⟩
          rw [hread]
          cases char <;> rfl
        · obtain ⟨char, -, h⟩ := Option.bind_eq_some_iff.1 h
          obtain ⟨s, htoken, hnone⟩ := ih h
          exact ⟨s, htoken, fun hread => hnone (by rw [hread]; rfl)⟩
        · cases h
      split at h
      · cases h
      · obtain ⟨s, htoken, hnone⟩ := ih h
        exact ⟨s, htoken, fun hread => hnone (by rw [hread]; rfl)⟩

/-- A text that is read stands between the quotes. -/
theorem exists_of_takeString {bound : Nat} {read : List Char} {s : String}
    (h : takeString bound text (some read) = some (.string (some s), rest)) :
    ∃ raw cs, text = raw ++ '"' :: rest ∧ Spells raw cs ∧
      s = String.ofList (read.reverse ++ cs) := by
  induction bound generalizing text read with
  | zero => cases h
  | succ bound ih =>
    cases text with
    | nil => cases h
    | cons c text =>
      unfold takeString at h
      split at h
      · -- The closing quote: there is nothing left to be spelled.
        rename_i hquote
        cases h
        exact ⟨[], [], by rw [eq_of_beq hquote]; rfl, .nil, by rw [List.append_nil]⟩
      rename_i hquote
      split at h
      · rename_i hbackslash
        rw [eq_of_beq hbackslash]
        split at h
        · -- An escape by number; without a character the string would have no text.
          rename_i digits
          obtain ⟨⟨char, behind⟩, hchar, hread⟩ := Option.bind_eq_some_iff.1 h
          cases char with
          | none =>
            obtain ⟨s', hs, hnone⟩ := exists_string_of_takeString hread
            rw [hnone rfl] at hs
            cases hs
          | some char =>
            obtain ⟨own, rfl, hbackquote, hcut⟩ := exists_of_takeUnicode hchar
            obtain ⟨raw, cs, rfl, hspells, rfl⟩ := ih hread
            refine ⟨'\\' :: 'u' :: (own ++ raw), char :: cs, ?_,
              .digits hbackquote hcut hspells, ?_⟩
            · rw [List.cons_append, List.cons_append, List.append_assoc]
            · rw [List.reverse_cons, List.append_assoc]
              rfl
        · -- An escape by a letter.
          rename_i letter behind _
          obtain ⟨char, hchar, h⟩ := Option.bind_eq_some_iff.1 h
          obtain ⟨raw, cs, rfl, hspells, rfl⟩ := ih h
          refine ⟨'\\' :: letter :: raw, char :: cs, rfl, .letter hchar hspells, ?_⟩
          rw [List.reverse_cons, List.append_assoc]
          rfl
        · cases h
      rename_i hbackslash
      split at h
      · cases h
      · -- Any other character stands for itself.
        rename_i hcontrol
        obtain ⟨raw, cs, rfl, hspells, rfl⟩ := ih h
        refine ⟨c :: raw, c :: cs, rfl, .char (by simpa using hquote) (by simpa using hbackslash)
          hcontrol hspells, ?_⟩
        rw [List.reverse_cons, List.append_assoc]
        rfl

end

/-! ## Lexemes -/

/-- What has to be so of the text behind a token: a number is not continued. -/
def Token.Ends : Token → List Char → Prop
  | .number _, rest => EndsNumber rest
  | _, _ => True

/-- The token has a value, unless it is a mark or a word. -/
def Token.Readable : Token → Prop
  | .number none => False
  | .string none => False
  | .bad => False
  | _ => True

/-- The characters of a token. -/
inductive Lexeme : List Char → Token → Prop
  /-- A token of plain characters. -/
  | plain {c : Char} {own : List Char} {token : Token} (plain : ∀ x ∈ c :: own, IsPlain x)
    (other : ∀ s, token ≠ .string s)
    (take : ∀ bound, Cuts (takeToken bound c) token.Ends own token) : Lexeme (c :: own) token
  /-- A string in its quotes. -/
  | string {raw cs : List Char} (spells : Spells raw cs) :
    Lexeme ('"' :: (raw ++ ['"'])) (.string (some (String.ofList cs)))

/-- A token at the front of a text that has a value is a lexeme. Behind a number the digits end. -/
theorem exists_of_takeToken {bound : Nat} {c : Char} {text rest : List Char} {token : Token}
    (h : takeToken bound c text = some (token, rest)) (hreadable : token.Readable) :
    ∃ own, text = own ++ rest ∧ Lexeme (c :: own) token ∧
      ((∃ n, token = .number n) → EndsDigits rest) := by
  -- A mark or a word is the same whatever follows.
  have hword (own : List Char) (hplain : (c :: own).all (fun x => decide (IsPlain x)) = true)
      (htake : ∀ bound rest', takeToken bound c (own ++ rest') = some (token, rest'))
      (hother : ∀ s, token ≠ .string s) (hnumber : ∀ n, token ≠ .number n) :
      Lexeme (c :: own) token ∧ ((∃ n, token = .number n) → EndsDigits rest) :=
    ⟨.plain (forall_isPlain hplain) hother fun bound rest' _ => htake bound rest',
      fun hnum => absurd hnum.choose_spec (hnumber _)⟩
  unfold takeToken at h
  split at h
  case h_7 text =>
    obtain ⟨_ | s, rfl, -⟩ := exists_string_of_takeString h
    · exact absurd hreadable id
    obtain ⟨raw, cs, rfl, hspells, rfl⟩ := exists_of_takeString h
    exact ⟨raw ++ ['"'], by rw [List.append_assoc]; rfl, .string hspells, fun hnum => by
      obtain ⟨n, hn⟩ := hnum
      cases hn⟩
  case h_8 text =>
    obtain ⟨rfl, rfl⟩ := Prod.mk.inj (Option.some.inj h)
    exact ⟨['u', 'l', 'l'], rfl, hword _ rfl (fun _ _ => rfl) (by simp) (by simp)⟩
  case h_9 text =>
    obtain ⟨rfl, rfl⟩ := Prod.mk.inj (Option.some.inj h)
    exact ⟨['r', 'u', 'e'], rfl, hword _ rfl (fun _ _ => rfl) (by simp) (by simp)⟩
  case h_10 text =>
    obtain ⟨rfl, rfl⟩ := Prod.mk.inj (Option.some.inj h)
    exact ⟨['a', 'l', 's', 'e'], rfl, hword _ rfl (fun _ _ => rfl) (by simp) (by simp)⟩
  case h_11 text =>
    obtain ⟨own, whole, fraction, exponent, rfl, hplain, hends, rfl, hcut⟩ :=
      exists_of_takeNumber h
    have hall : ∀ x ∈ '-' :: own, IsPlain x := List.forall_mem_cons.2 ⟨by decide, hplain⟩
    exact ⟨own, rfl, .plain hall (by simp) fun _ rest' hrest' => hcut numberOfParts rest' hrest',
      fun _ => hends⟩
  case h_12 =>
    obtain ⟨own, whole, fraction, exponent, htext, hplain, hends, rfl, hcut⟩ :=
      exists_of_takeNumber h
    obtain ⟨first, others, hfirst, hdigit⟩ := exists_digit_of_takeNumber h
    obtain ⟨rfl, rfl⟩ := List.cons.inj hfirst
    cases own with
    | nil =>
      -- The digits end behind the number, so they do not end before it.
      have hnone : c.isDigit = false := hends c (by rw [← List.nil_append rest, ← htext]; rfl)
      rw [hdigit] at hnone
      cases hnone
    | cons first own =>
      obtain ⟨rfl, rfl⟩ := List.cons.inj htext
      refine ⟨own, rfl, .plain hplain (by simp) fun bound rest' hrest' => ?_, fun _ => hends⟩
      exact (takeToken_digit bound hdigit _).trans (hcut numberOfParts rest' hrest')
  all_goals
    obtain ⟨rfl, rfl⟩ := Prod.mk.inj (Option.some.inj h)
    exact ⟨[], rfl, hword _ rfl (fun _ _ => rfl) (by simp) (by simp)⟩

end AuditedRules.Json
