import AuditedRules.Json.Token
import AuditedRules.Json.Writer
import AuditedRules.Proofs.Binary64.ShortestDecimal
import AuditedRules.Proofs.Json.Numbers

/-!
# Numbers that are written and read again

A number is cut off the front of a text at the first character that cannot continue it, so a written
number is read in full where something else follows (`EndsNumber`). What its parts say is found from
the digits that were written: the value of digits is the number they were made from, and zeros at
either end count as powers of ten (`Binary64.digitsValue_append`).

A positive decimal has four layouts. Each of them gives its digits and its exponent back, except
that a whole number is written with zeros up to its point and perhaps one after it; that is another
decimal of the same value, which is all that reading needs (`takeNumber_decimal`). Without a point
the number may be kept as an integer, which stands for the same double (`exists_wholeNumber`).
-/

namespace AuditedRules

/-! ## Runs of characters -/

/-- A run of characters that pass a test is cut off a text up to where one fails it. -/
theorem takeWhile_run {test : Char → Bool} {run rest : List Char}
    (hrun : ∀ c ∈ run, test c = true) (hrest : ∀ c ∈ rest.head?, test c = false) :
    (run ++ rest).takeWhile test = run := by
  rw [List.takeWhile_append_of_pos hrun]
  cases rest with
  | nil => simp
  | cons c rest => simp [hrest c rfl]

/-- A run of characters that pass a test is dropped from a text up to where one fails it. -/
theorem dropWhile_run {test : Char → Bool} {run rest : List Char}
    (hrun : ∀ c ∈ run, test c = true) (hrest : ∀ c ∈ rest.head?, test c = false) :
    (run ++ rest).dropWhile test = rest := by
  rw [List.dropWhile_append_of_pos hrun]
  cases rest with
  | nil => rfl
  | cons c rest => simp [hrest c rfl]

/-! ## Digits -/

namespace Binary64

/-- The value of digits after others counts once, that of those before it by a power of ten. -/
theorem digitsValue_append (front back : List Char) :
    digitsValue (front ++ back) =
      Nat.pow 10 back.length * digitsValue front + digitsValue back := by
  have hall : ∀ digits, digitsValue digits = Nat.ofDigitChars 10 digits 0 := fun _ => rfl
  rw [hall, hall, hall, Nat.ofDigitChars_append, Nat.ofDigitChars_eq_ofDigitChars_zero]
  rfl

/-- Zeros have no value. -/
theorem digitsValue_zeros (n : Nat) : digitsValue (List.replicate n '0') = 0 := by
  have hzeros : digitsValue (List.replicate n '0') = 10 ^ n * 0 := Nat.ofDigitChars_replicate_zero
  rw [hzeros, Nat.mul_zero]

/-- Zeros before digits do not change their value. -/
theorem digitsValue_zeros_append (n : Nat) (digits : List Char) :
    digitsValue (List.replicate n '0' ++ digits) = digitsValue digits := by
  rw [digitsValue_append, digitsValue_zeros, Nat.mul_zero, Nat.zero_add]

/-- Each zero after digits counts as a factor of ten. -/
theorem digitsValue_append_zeros (digits : List Char) (n : Nat) :
    digitsValue (digits ++ List.replicate n '0') = digitsValue digits * Nat.pow 10 n := by
  rw [digitsValue_append, digitsValue_zeros, List.length_replicate, Nat.add_zero, Nat.mul_comm]

/-- The digits of a number have its value. -/
theorem digitsValue_digitsOf (n : Nat) : digitsValue (NumberStyle.digitsOf n) = n :=
  Nat.ofDigitChars_ten_toDigits

end Binary64

namespace NumberStyle

/-- A number has a digit. -/
theorem digitsOf_ne_nil (n : Nat) : digitsOf n ≠ [] := Nat.toDigits_ne_nil

/-- The digits of a number are digits. -/
theorem isDigit_of_mem_digitsOf {n : Nat} {c : Char} (h : c ∈ digitsOf n) : c.isDigit = true :=
  Nat.isDigit_of_mem_toDigits (by decide) (by decide) h

/-- A positive number does not start with a zero. -/
theorem head?_digitsOf_ne_zero {n : Nat} (hpos : 0 < n) : (digitsOf n).head? ≠ some '0' := by
  unfold digitsOf
  induction n using Nat.strongRecOn with
  | ind n ih =>
    rw [Nat.toDigits_eq_if (by decide)]
    split
    · intro h
      rw [List.head?_cons, Option.some.injEq, Nat.digitChar_eq_zero] at h
      omega
    · -- The digits of a tenth come first, and there are some.
      have htenth := ih (n / 10) (by omega) (by omega)
      cases hdigits : Nat.toDigits 10 (n / 10) with
      | nil => exact absurd hdigits Nat.toDigits_ne_nil
      | cons first others =>
        rw [hdigits] at htenth
        exact htenth

end NumberStyle

namespace Json

/-! ## Where numbers end -/

/-- A text does not start with a digit. -/
def EndsDigits (rest : List Char) : Prop :=
  ∀ c ∈ rest.head?, c.isDigit = false

/-- A text does not continue a number. -/
def EndsNumber (rest : List Char) : Prop :=
  ∀ c ∈ rest.head?, c.isDigit = false ∧ c ≠ '.' ∧ c ≠ 'e' ∧ c ≠ 'E'

/-- What does not continue a number does not continue its digits. -/
theorem EndsNumber.endsDigits {rest : List Char} (h : EndsNumber rest) : EndsDigits rest :=
  fun c hc => (h c hc).1

/-- A character that is no digit ends the digits before it. -/
theorem endsDigits_cons {c : Char} (h : c.isDigit = false) (rest : List Char) :
    EndsDigits (c :: rest) := by
  intro c' hc'
  cases hc'
  exact h

/-- Digits are cut off a text up to where they end. -/
theorem takeWhile_digits {digits rest : List Char} (hdigits : ∀ c ∈ digits, c.isDigit = true)
    (hrest : EndsDigits rest) : (digits ++ rest).takeWhile Char.isDigit = digits :=
  takeWhile_run hdigits hrest

/-- After digits the text goes on where they end. -/
theorem dropWhile_digits {digits rest : List Char} (hdigits : ∀ c ∈ digits, c.isDigit = true)
    (hrest : EndsDigits rest) : (digits ++ rest).dropWhile Char.isDigit = rest :=
  dropWhile_run hdigits hrest

/-! ## Parts of a number -/

/-- Without a point there is no fraction. -/
theorem takeFraction_none {rest : List Char} (h : rest.head? ≠ some '.') :
    takeFraction rest = some (none, rest) := by
  unfold takeFraction
  split
  · exact absurd rfl h
  · rfl

/-- The digits after a point are the fraction. -/
theorem takeFraction_digits {digits rest : List Char} (hdigits : ∀ c ∈ digits, c.isDigit = true)
    (hne : digits ≠ []) (hrest : EndsDigits rest) :
    takeFraction ('.' :: (digits ++ rest)) = some (some digits, rest) := by
  have hsome : digits.isEmpty = false := by simpa using hne
  show (if ((digits ++ rest).takeWhile Char.isDigit).isEmpty then none
    else some (some ((digits ++ rest).takeWhile Char.isDigit),
      (digits ++ rest).dropWhile Char.isDigit)) = _
  rw [takeWhile_digits hdigits hrest, dropWhile_digits hdigits hrest, hsome]
  rfl

/-- Without its letter there is no exponent. -/
theorem takeExponent_none {rest : List Char} (h : EndsNumber rest) :
    takeExponent rest = some (none, rest) := by
  cases rest with
  | nil => rfl
  | cons c rest =>
    obtain ⟨-, -, hlower, hupper⟩ := h c rfl
    unfold takeExponent
    simp [hlower, hupper]

/-- An exponent is read with its sign. -/
theorem takeExponent_digits (exponent : Int) {rest : List Char} (hrest : EndsDigits rest) :
    takeExponent ('e' :: (if exponent < 0 then '-' else '+') ::
      (NumberStyle.digitsOf exponent.natAbs ++ rest)) = some (some exponent, rest) := by
  have hdigits : ∀ c ∈ NumberStyle.digitsOf exponent.natAbs, c.isDigit = true :=
    fun _ => NumberStyle.isDigit_of_mem_digitsOf
  have hsome : (NumberStyle.digitsOf exponent.natAbs).isEmpty = false := by
    simpa using NumberStyle.digitsOf_ne_nil exponent.natAbs
  generalize hdigitsOf : NumberStyle.digitsOf exponent.natAbs = digits at *
  have hvalue : Binary64.digitsValue digits = exponent.natAbs := by
    rw [← hdigitsOf, Binary64.digitsValue_digitsOf]
  -- After its sign the exponent is its digits, whatever the sign.
  have hread : ∀ negative : Bool,
      (if ((digits ++ rest).takeWhile Char.isDigit).isEmpty then none
        else some (some (if negative then
            -(Binary64.digitsValue ((digits ++ rest).takeWhile Char.isDigit) : Int)
          else (Binary64.digitsValue ((digits ++ rest).takeWhile Char.isDigit) : Int)),
          (digits ++ rest).dropWhile Char.isDigit)) =
        some (some (if negative then -(exponent.natAbs : Int) else exponent.natAbs), rest) := by
    intro negative
    rw [takeWhile_digits hdigits hrest, dropWhile_digits hdigits hrest, hsome, hvalue]
    rfl
  by_cases hnegative : exponent < 0
  · rw [if_pos hnegative]
    refine (hread true).trans ?_
    rw [if_pos rfl, show -(exponent.natAbs : Int) = exponent by omega]
  · rw [if_neg hnegative]
    refine (hread false).trans ?_
    rw [if_neg Bool.false_ne_true, show (exponent.natAbs : Int) = exponent by omega]

/-- The whole part of a number: some digits, the first of which is no zero unless it is the only
one. -/
structure WholePart (digits : List Char) : Prop where
  /-- There are only digits. -/
  isDigit : ∀ c ∈ digits, c.isDigit = true
  /-- There is a digit. -/
  ne_nil : digits ≠ []
  /-- Zero stands alone. -/
  zero : digits.head? = some '0' → digits.length = 1

/-- The digits of a number are a whole part. -/
theorem wholePart_digitsOf (n : Nat) : WholePart (NumberStyle.digitsOf n) := by
  refine ⟨fun _ => NumberStyle.isDigit_of_mem_digitsOf, NumberStyle.digitsOf_ne_nil n, fun h => ?_⟩
  rcases Nat.eq_zero_or_pos n with rfl | hpos
  · rfl
  · exact absurd h (NumberStyle.head?_digitsOf_ne_zero hpos)

/-- A number is read by parts, its whole part first. -/
theorem takeNumber_wholePart {reading : NumberReading} (negative : Bool)
    {whole tail rest rest' : List Char} {fraction : Option (List Char)} {exponent : Option Int}
    (hwhole : WholePart whole) (htail : EndsDigits tail)
    (hfraction : takeFraction tail = some (fraction, rest'))
    (hexponent : takeExponent rest' = some (exponent, rest)) :
    takeNumber negative (whole ++ tail) reading =
      some (.number (reading negative whole fraction exponent), rest) := by
  have hvalid : (whole.isEmpty || (whole.head? == some '0' && whole.length != 1)) = false := by
    have hne : whole.isEmpty = false := by simpa using hwhole.ne_nil
    by_cases hzero : whole.head? = some '0'
    · simp [hne, hwhole.zero hzero]
    · simp [hne, hzero]
  unfold takeNumber
  dsimp only
  rw [takeWhile_digits hwhole.isDigit htail, dropWhile_digits hwhole.isDigit htail, hvalid,
    hfraction]
  show (takeExponent rest').bind _ = _
  rw [hexponent]
  rfl

/-! ## Integers -/

/-- A whole part alone is read as a whole number. -/
theorem takeNumber_whole (negative : Bool) {whole rest : List Char} (hwhole : WholePart whole)
    (hrest : EndsNumber rest) :
    takeNumber negative (whole ++ rest) =
      some (.number (wholeNumber negative (Binary64.digitsValue whole)), rest) := by
  have hpoint : rest.head? ≠ some '.' := fun h => (hrest '.' h).2.1 rfl
  exact takeNumber_wholePart negative hwhole hrest.endsDigits (takeFraction_none hpoint)
    (takeExponent_none hrest)

/-- A whole number is read from its digits. -/
theorem takeNumber_digitsOf (negative : Bool) (n : Nat) {rest : List Char}
    (hrest : EndsNumber rest) :
    takeNumber negative (NumberStyle.digitsOf n ++ rest) =
      some (.number (wholeNumber negative n), rest) := by
  rw [takeNumber_whole negative (wholePart_digitsOf n) hrest, Binary64.digitsValue_digitsOf]

/-- A whole number that does not overflow stands for the double nearest to it, whether it is kept as
an integer or as a double. -/
theorem exists_wholeNumber {negative : Bool} {n : Nat}
    (h : (Binary64.ofDecimal negative n 0).isFinite) :
    ∃ m, wholeNumber negative n = some m ∧ m.toBinary64 = .ofDecimal negative n 0 := by
  have hfloat : wholeNumber.finiteNumber (.ofDecimal negative n 0) =
      some (.float (.ofDecimal negative n 0)) := if_pos h
  -- Integers are kept up to some bound of 64 bits, below which no decimal is cut off.
  have hint {bound : Nat} (hn : n ≠ 0) (hle : n ≤ bound) (hbound : bound < Nat.pow 10 20) :
      Binary64.ofInt (Binary64.signedUnits negative n) = .ofDecimal negative n 0 :=
    (Binary64.ofDecimal_eq_ofInt negative hn (Nat.lt_of_le_of_lt hle hbound)).symm
  unfold wholeNumber
  cases negative with
  | true =>
    rw [if_pos rfl]
    split
    · rename_i hzero
      subst hzero
      exact ⟨_, rfl, rfl⟩
    · rename_i hn
      split
      · rename_i hle
        exact ⟨_, rfl, hint hn hle (by decide)⟩
      · exact ⟨_, hfloat, rfl⟩
  | false =>
    rw [if_neg Bool.false_ne_true]
    split
    · rename_i hle
      rcases Nat.eq_zero_or_pos n with rfl | hpos
      · exact ⟨_, rfl, Binary64.ofInt_zero⟩
      · exact ⟨_, rfl, hint (Nat.ne_of_gt hpos) hle (by decide)⟩
    · exact ⟨_, hfloat, rfl⟩

/-! ## Decimals -/

/-- A number with a point is read as the decimal of its digits. -/
theorem takeNumber_point (negative : Bool) {whole fraction rest : List Char}
    (hwhole : WholePart whole) (hfraction : ∀ c ∈ fraction, c.isDigit = true)
    (hne : fraction ≠ []) (hrest : EndsNumber rest) :
    takeNumber negative (whole ++ '.' :: (fraction ++ rest)) =
      some (.number (wholeNumber.finiteNumber
        (.ofDecimal negative (Binary64.digitsValue (whole ++ fraction))
          (-(fraction.length : Int)))), rest) := by
  rw [takeNumber_wholePart negative hwhole (endsDigits_cons rfl _)
    (takeFraction_digits hfraction hne hrest.endsDigits) (takeExponent_none hrest)]
  show some (Token.number (wholeNumber.finiteNumber (.ofDecimal negative _ (0 - _))), rest) = _
  rw [Int.zero_sub]
  rfl

/-- Zeros after a whole part other than zero belong to it. -/
theorem WholePart.append_zeros {digits : List Char} (h : WholePart digits)
    (hzero : digits.head? ≠ some '0') (zeros : Nat) :
    WholePart (digits ++ List.replicate zeros '0') := by
  refine ⟨fun c hc => ?_, List.append_ne_nil_of_left_ne_nil h.ne_nil _, fun hhead => ?_⟩
  · exact (List.mem_append.1 hc).elim (h.isDigit c) fun hc => List.eq_of_mem_replicate hc ▸ rfl
  · cases digits with
    | nil => exact absurd rfl h.ne_nil
    | cons first others => exact absurd hhead hzero

/-- A single digit is a whole part. -/
theorem wholePart_singleton {c : Char} (h : c.isDigit = true) : WholePart [c] :=
  ⟨fun _ hc => List.mem_singleton.1 hc ▸ h, List.cons_ne_nil c [], fun _ => rfl⟩

/-- A number in scientific form is read as its digits at the exponent of the last one. -/
theorem takeNumber_scientific (negative : Bool) {digits rest : List Char} (exponent : Int)
    (hdigits : ∀ c ∈ digits, c.isDigit = true) (hne : digits ≠ []) (hrest : EndsNumber rest) :
    takeNumber negative (NumberStyle.scientific digits exponent ++ rest) =
      some (.number (wholeNumber.finiteNumber
        (.ofDecimal negative (Binary64.digitsValue digits)
          (exponent - ((digits.length : Int) - 1)))), rest) := by
  have hexponent := takeExponent_digits exponent hrest.endsDigits
  have hletter := endsDigits_cons (c := 'e') rfl
    ((if exponent < 0 then '-' else '+') :: (NumberStyle.digitsOf exponent.natAbs ++ rest))
  have hpoint : ('e' :: (if exponent < 0 then '-' else '+') ::
      (NumberStyle.digitsOf exponent.natAbs ++ rest)).head? ≠ some '.' := by
    rw [List.head?_cons]
    decide
  unfold NumberStyle.scientific
  dsimp only
  rw [List.append_assoc, List.cons_append, List.cons_append]
  generalize 'e' :: _ :: _ = tail at *
  -- The first digit is the whole part, whether or not there are more of them behind a point.
  cases digits with
  | nil => exact absurd rfl hne
  | cons first others =>
    have hwhole : WholePart [first] := wholePart_singleton (hdigits first List.mem_cons_self)
    cases others with
    | nil => exact takeNumber_wholePart negative hwhole hletter (takeFraction_none hpoint) hexponent
    | cons second others =>
      have hfraction := takeFraction_digits (fun c hc => hdigits c (List.mem_cons_of_mem _ hc))
        (List.cons_ne_nil second others) hletter
      have hpointed : EndsDigits ('.' :: ((second :: others) ++ tail)) := endsDigits_cons rfl _
      have hlength : exponent - (((first :: second :: others).length : Int) - 1) =
          exponent - ((second :: others).length : Int) := by
        simp only [List.length_cons]
        omega
      rw [hlength]
      exact takeNumber_wholePart negative hwhole hpointed hfraction hexponent

/-- Digits behind the point and some zeros are read as they stand. -/
theorem takeNumber_behind (negative : Bool) {digits rest : List Char} (hdigits : WholePart digits)
    (zeros : Nat) (hrest : EndsNumber rest) :
    takeNumber negative ('0' :: '.' :: (List.replicate zeros '0' ++ digits) ++ rest) =
      some (.number (wholeNumber.finiteNumber
        (.ofDecimal negative (Binary64.digitsValue digits)
          (-((zeros + digits.length : Nat) : Int)))), rest) := by
  have hfraction : ∀ c ∈ List.replicate zeros '0' ++ digits, c.isDigit = true := fun c hc =>
    (List.mem_append.1 hc).elim (fun h => List.eq_of_mem_replicate h ▸ rfl) (hdigits.isDigit c)
  have hne : List.replicate zeros '0' ++ digits ≠ [] :=
    List.append_ne_nil_of_right_ne_nil _ hdigits.ne_nil
  have hvalue : Binary64.digitsValue (['0'] ++ (List.replicate zeros '0' ++ digits)) =
      Binary64.digitsValue digits := by
    rw [← List.append_assoc]
    exact Binary64.digitsValue_zeros_append (zeros + 1) digits
  have hread := takeNumber_point negative (wholePart_singleton (c := '0') rfl) hfraction hne hrest
  rw [hvalue, List.length_append, List.length_replicate] at hread
  exact hread

/-- Digits around the point are read as they stand. -/
theorem takeNumber_around (negative : Bool) {digits rest : List Char} (hdigits : WholePart digits)
    (hzero : digits.head? ≠ some '0') {lead : Nat} (hpos : 0 < lead) (hlt : lead < digits.length)
    (hrest : EndsNumber rest) :
    takeNumber negative (digits.take lead ++ '.' :: digits.drop lead ++ rest) =
      some (.number (wholeNumber.finiteNumber
        (.ofDecimal negative (Binary64.digitsValue digits)
          (-((digits.length - lead : Nat) : Int)))), rest) := by
  have hwhole : WholePart (digits.take lead) := by
    refine ⟨fun c hc => hdigits.isDigit c (List.mem_of_mem_take hc), fun h => ?_, fun h => ?_⟩
    · have hlength := congrArg List.length h
      rw [List.length_take, List.length_nil] at hlength
      omega
    · rw [List.head?_take, if_neg (by omega)] at h
      exact absurd h hzero
  have hfraction : ∀ c ∈ digits.drop lead, c.isDigit = true :=
    fun c hc => hdigits.isDigit c (List.mem_of_mem_drop hc)
  have hne : digits.drop lead ≠ [] := fun h => by
    have hlength := congrArg List.length h
    rw [List.length_drop, List.length_nil] at hlength
    omega
  have hread := takeNumber_point negative hwhole hfraction hne hrest
  rw [List.take_append_drop, List.length_drop] at hread
  rw [List.append_assoc]
  exact hread

/-- Digits before the point are read with the zeros up to it and the one after it. -/
theorem takeNumber_before (negative : Bool) {digits rest : List Char} (hdigits : WholePart digits)
    (hzero : digits.head? ≠ some '0') (zeros : Nat) (hrest : EndsNumber rest) :
    takeNumber negative (digits ++ List.replicate zeros '0' ++ ['.', '0'] ++ rest) =
      some (.number (wholeNumber.finiteNumber
        (.ofDecimal negative (Binary64.digitsValue digits * Nat.pow 10 (zeros + 1)) (-1))),
        rest) := by
  have hwhole := hdigits.append_zeros hzero zeros
  have hfraction : ∀ c ∈ ['0'], c.isDigit = true := fun c hc => List.mem_singleton.1 hc ▸ rfl
  have hvalue : Binary64.digitsValue (digits ++ List.replicate zeros '0' ++ ['0']) =
      Binary64.digitsValue digits * Nat.pow 10 (zeros + 1) := by
    rw [← Binary64.digitsValue_append_zeros, List.append_assoc, List.replicate_succ']
  have hread := takeNumber_point negative hwhole hfraction (List.cons_ne_nil _ _) hrest
  rw [hvalue] at hread
  rw [List.append_assoc]
  exact hread

open Shortest in
/-- What a positive decimal is written as is read as a decimal of the same value. Without a point it
is read as a whole number. -/
theorem takeNumber_decimal (style : NumberStyle) (negative : Bool) {d : Decimal}
    (hpos : 0 < d.digits) (hplaces : -(places : Int) ≤ d.exponent) {rest : List Char}
    (hrest : EndsNumber rest) :
    ∃ digits exponent, -(places : Int) ≤ exponent ∧
      inPlaces digits exponent = inPlaces d.digits d.exponent ∧
      (takeNumber negative (style.decimal d ++ rest) =
          some (.number (wholeNumber.finiteNumber (.ofDecimal negative digits exponent)), rest) ∨
        style.pointZero = false ∧ exponent = 0 ∧
          takeNumber negative (style.decimal d ++ rest) =
            some (.number (wholeNumber negative digits), rest)) := by
  have hvalue := Binary64.digitsValue_digitsOf d.digits
  have hwhole := wholePart_digitsOf d.digits
  have hzero := NumberStyle.head?_digitsOf_ne_zero hpos
  unfold NumberStyle.decimal
  dsimp only
  generalize NumberStyle.digitsOf d.digits = digits at *
  have hlength : 0 < digits.length := List.length_pos_iff.2 hwhole.ne_nil
  split
  · unfold NumberStyle.placePoint
    split
    · -- All digits stand behind the point, after some zeros.
      have hexponent :
          -((((digits.length : Int) + d.exponent).natAbs + digits.length : Nat) : Int) =
            d.exponent := by omega
      refine ⟨d.digits, d.exponent, hplaces, rfl, .inl ?_⟩
      rw [takeNumber_behind negative hwhole _ hrest, hvalue, hexponent]
    · split
      · -- The point stands among the digits.
        have hexponent :
            -((digits.length - ((digits.length : Int) + d.exponent).toNat : Nat) : Int) =
              d.exponent := by omega
        refine ⟨d.digits, d.exponent, hplaces, rfl, .inl ?_⟩
        rw [takeNumber_around negative hwhole hzero (by omega) (by assumption) hrest, hvalue,
          hexponent]
      · -- Zeros follow the digits, and a point after them if the style writes one.
        generalize hzeros : ((digits.length : Int) + d.exponent).toNat - digits.length = zeros
        cases hstyle : style.pointZero with
        | true =>
          have hlast : -(places : Int) ≤ -1 := by unfold places; omega
          have hexponent : (-1 : Int) + ((zeros + 1 : Nat) : Int) = d.exponent := by omega
          refine ⟨_, -1, hlast, ?_, .inl (takeNumber_before negative hwhole hzero zeros hrest)⟩
          rw [hvalue, inPlaces_mul_pow _ _ hlast, hexponent]
        | false =>
          have hone : -(places : Int) ≤ 0 := by unfold places; omega
          have hexponent : (0 : Int) + (zeros : Int) = d.exponent := by omega
          have hread := takeNumber_whole negative (hwhole.append_zeros hzero zeros) hrest
          rw [Binary64.digitsValue_append_zeros, hvalue] at hread
          refine ⟨d.digits * Nat.pow 10 zeros, 0, hone, ?_, .inr ⟨rfl, rfl, ?_⟩⟩
          · rw [inPlaces_mul_pow _ _ hone, hexponent]
          · rw [if_neg Bool.false_ne_true, List.append_nil]
            exact hread
  · -- The decimal is written with an exponent.
    have hexponent : (digits.length : Int) + d.exponent - 1 - ((digits.length : Int) - 1) =
        d.exponent := by omega
    refine ⟨d.digits, d.exponent, hplaces, rfl, .inl ?_⟩
    rw [takeNumber_scientific negative _ hwhole.isDigit hwhole.ne_nil hrest, hvalue, hexponent]

/-- In any style a magnitude is read as a number that stands for it. In a style that writes a point
it is kept as a double. -/
theorem exists_takeNumber_magnitude (style : NumberStyle) (negative : Bool) {units : Nat}
    (hunits : Representable units) {rest : List Char} (hrest : EndsNumber rest) :
    ∃ n, takeNumber negative (style.magnitude units ++ rest) = some (.number (some n), rest) ∧
      n.toBinary64 = .finite negative units hunits ∧
      (style.pointZero = true → n = .float (.finite negative units hunits)) := by
  unfold NumberStyle.magnitude
  split
  · -- Zero has no shortest decimal and is written by itself.
    rename_i hzero
    subst hzero
    cases hstyle : style.pointZero with
    | true =>
      have hdigit : ∀ c ∈ ['0'], c.isDigit = true := fun c hc => List.mem_singleton.1 hc ▸ rfl
      exact ⟨_, takeNumber_point negative (wholePart_singleton rfl) hdigit (List.cons_ne_nil _ _)
        hrest, rfl, fun _ => rfl⟩
    | false =>
      have hfinite : (Binary64.ofDecimal negative 0 0).isFinite = true := rfl
      obtain ⟨n, hwhole, hvalue⟩ := exists_wholeNumber hfinite
      have hread := takeNumber_whole negative (wholePart_singleton (c := '0') rfl) hrest
      exact ⟨n, hread.trans (congrArg (fun m => some (Token.number m, rest)) hwhole), hvalue,
        fun h => absurd h Bool.false_ne_true⟩
  · rename_i hne
    have hpos : 0 < units := Nat.pos_of_ne_zero hne
    obtain ⟨hplaces, hreads⟩ := Shortest.readsBack_decimal style.tie hpos
    have hdigits := Binary64.digits_pos_of_readsBack hpos hreads
    obtain ⟨digits, exponent, hexponent, hsame, hread⟩ :=
      takeNumber_decimal style negative hdigits hplaces hrest
    -- What is read may have other digits, but it is the same decimal, so it reads back too.
    rw [← hsame] at hreads
    have hvalue := Binary64.ofDecimal_eq_finite negative hunits hpos hexponent hreads
    rcases hread with hread | ⟨hstyle, rfl, hread⟩
    · rw [hread, hvalue]
      exact ⟨_, rfl, rfl, fun _ => rfl⟩
    · have hfinite : (Binary64.ofDecimal negative digits 0).isFinite = true := hvalue ▸ rfl
      obtain ⟨n, hwhole, hn⟩ := exists_wholeNumber hfinite
      rw [hread, hwhole]
      exact ⟨n, rfl, hn.trans hvalue, fun h => absurd (hstyle ▸ h) Bool.false_ne_true⟩

/-- A magnitude in a document is read as the double that was written. -/
theorem takeNumber_magnitude (negative : Bool) {units : Nat} (hunits : Representable units)
    {rest : List Char} (hrest : EndsNumber rest) :
    takeNumber negative (NumberStyle.document.magnitude units ++ rest) =
      some (.number (some (.float (.finite negative units hunits))), rest) := by
  obtain ⟨n, hread, -, hfloat⟩ :=
    exists_takeNumber_magnitude NumberStyle.document negative hunits hrest
  rw [hread, hfloat rfl]

/-! ## Tokens -/

/-- A number starts with a digit. -/
theorem exists_digit_of_takeNumber {reading : NumberReading} {negative : Bool}
    {text rest : List Char} {token : Token}
    (h : takeNumber negative text reading = some (token, rest)) :
    ∃ c more, text = c :: more ∧ c.isDigit = true := by
  cases text with
  | nil => cases h
  | cons c more =>
    refine ⟨c, more, rfl, ?_⟩
    cases hc : c.isDigit with
    | true => rfl
    | false =>
      unfold takeNumber at h
      dsimp only at h
      rw [List.takeWhile_cons, hc] at h
      cases h

/-- A digit starts a number without sign. -/
theorem takeToken_digit {reading : NumberReading} (bound : Nat) {c : Char}
    (h : c.isDigit = true) (more : List Char) :
    takeToken bound c more reading = takeNumber false (c :: more) reading := by
  unfold takeToken
  split <;> first | rfl | cases h

/-- A digit is no blank. -/
theorem isSpace_digit {c : Char} (h : c.isDigit = true) : isSpace c = false := by
  refine Bool.eq_false_iff.2 fun hspace => ?_
  simp only [isSpace, Bool.or_eq_true, beq_iff_eq] at hspace
  rcases hspace with ((rfl | rfl) | rfl) | rfl <;> cases h

/-- An integer of 64 bits is written as the whole number that it is. -/
theorem wholeNumber_natAbs {i : Int} (h : (DocumentNumber.int i).Fits) :
    wholeNumber (decide (i < 0)) i.natAbs = some (.int i) := by
  obtain ⟨hlow, hhigh⟩ := h
  unfold wholeNumber
  by_cases hnegative : i < 0
  · rw [if_pos (decide_eq_true hnegative), if_neg (by omega), if_pos (by omega),
      show -(i.natAbs : Int) = i by omega]
  · rw [if_neg (by simpa using hnegative), if_pos (by omega), show (i.natAbs : Int) = i by omega]

/-- A minus sign or a digit, with which a number starts. -/
def startsNumber (c : Char) : Bool :=
  c == '-' || c.isDigit

/-- What starts a number is no blank. -/
theorem isSpace_of_startsNumber {c : Char} (h : startsNumber c = true) : isSpace c = false := by
  rcases (Bool.or_eq_true _ _).mp h with hminus | hdigit
  · rw [eq_of_beq hminus]
    rfl
  · exact isSpace_digit hdigit

/-- Behind its sign a number is read as it would be without one. -/
theorem takeToken_signed {negative : Bool} {digits rest : List Char} {token : Token}
    (hrest : EndsDigits rest) (hread : takeNumber negative (digits ++ rest) = some (token, rest)) :
    ∃ c more, (if negative then '-' :: digits else digits) = c :: more ∧ startsNumber c = true ∧
      ∀ bound, takeToken bound c (more ++ rest) = some (token, rest) := by
  cases negative with
  | true => exact ⟨'-', digits, rfl, rfl, fun _ => hread⟩
  | false =>
    obtain ⟨c, more, htext, hc⟩ := exists_digit_of_takeNumber hread
    cases digits with
    | nil =>
      have hnone : c.isDigit = false := hrest c (by rw [← List.nil_append rest, htext]; rfl)
      rw [hc] at hnone
      cases hnone
    | cons first others =>
      obtain rfl : first = c := (List.cons.inj htext).1
      refine ⟨first, others, rfl, Bool.or_eq_true_iff.2 (.inr hc), fun bound => ?_⟩
      rw [takeToken_digit bound hc]
      exact hread

/-- A number that fits is read as it was written, where the text does not continue it. -/
theorem takeToken_numberText {n : DocumentNumber} (hn : n.Fits) {rest : List Char}
    (hrest : EndsNumber rest) :
    ∃ c more, numberText n = c :: more ∧ startsNumber c = true ∧
      ∀ bound, takeToken bound c (more ++ rest) = some (.number (some n), rest) := by
  cases n with
  | int i =>
    have hread := takeNumber_digitsOf (decide (i < 0)) i.natAbs hrest
    rw [wholeNumber_natAbs hn] at hread
    have hsigned := takeToken_signed hrest.endsDigits hread
    simp only [decide_eq_true_eq] at hsigned
    exact hsigned
  | float x =>
    cases x with
    | finite negative units hunits =>
      exact takeToken_signed hrest.endsDigits (takeNumber_magnitude negative hunits hrest)
    | nan => cases hn
    | infinity negative => cases hn

/-- A finite double that is shown to people is read as a number that stands for it, with a zero
taken as positive. -/
theorem exists_takeToken_display {x : Binary64} (hx : x.isFinite) {rest : List Char}
    (hrest : EndsNumber rest) :
    ∃ c more n, x.display.toList = c :: more ∧ startsNumber c = true ∧
      (∀ bound, takeToken bound c (more ++ rest) = some (.number (some n), rest)) ∧
      n.toBinary64 = x.canonical := by
  unfold Binary64.display
  cases hint : x.exactInt? with
  | some i =>
    -- It is shown as it is written in a document.
    obtain ⟨c, more, htext, hc, htoken⟩ :=
      takeToken_numberText (Binary64.fits_of_exactInt? hint) hrest
    exact ⟨c, more, .int i, String.toList_ofList.trans htext, hc, htoken,
      Binary64.ofInt_eq_canonical hint⟩
  | none =>
    cases x with
    | finite negative units hunits =>
      obtain ⟨n, hread, hvalue, -⟩ :=
        exists_takeNumber_magnitude NumberStyle.shown negative hunits hrest
      obtain ⟨c, more, htext, hc, htoken⟩ := takeToken_signed hrest.endsDigits hread
      exact ⟨c, more, n, String.toList_ofList.trans htext, hc, htoken,
        hvalue.trans (Binary64.canonical_of_exactInt?_eq_none hint).symm⟩
    | nan => cases hx
    | infinity negative => cases hx

end Json

end AuditedRules
