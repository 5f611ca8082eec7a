import AuditedRules.Yaml.Cursor

/-!
# Texts in block form

A text in block form starts on the line after its header and goes on as long as lines are indented.
Its lines are kept, or folded: a single line break between two lines that do not start with blanks
then reads as a space. The header says how much of the line breaks at the end counts, and may fix
the indentation, which is otherwise that of the first line with content.
-/

namespace AuditedRules.Yaml

/-- How much of the line breaks at the end of a text counts. -/
inductive Chomping
  /-- No line break counts. -/
  | strip
  /-- The first line break counts. -/
  | clip
  /-- All line breaks count. -/
  | keep
deriving DecidableEq

/-- What the header of a text in block form says. -/
structure BlockHeader where
  chomping : Chomping
  /-- The indentation beyond that of the surrounding structure, if it is given. -/
  indent : Option Nat

/-- The sign for chomping. -/
def chomping? : Char → Option Chomping
  | '-' => some .strip
  | '+' => some .keep
  | _ => none

/-- The digit for an indentation. -/
def indentDigit? (c : Char) : Option Nat :=
  if c.isDigit then some (c.toNat - '0'.toNat) else none

/-- The header at a position after the indicator, up to its blanks. It consists of a sign and a
digit, either of which may be missing, in any order; the digit is not zero. -/
def takeHeader (c : Cursor) : Option (BlockHeader × Cursor) :=
  let first := c.rest.head?
  let second := c.next.rest.head?
  match first.bind chomping?, first.bind indentDigit? with
  | some chomping, _ => match second.bind indentDigit? with
    | some 0 => none
    | some n => some (⟨chomping, some n⟩, c.skip 2)
    | none => some (⟨chomping, none⟩, c.next)
  | none, some 0 => none
  | none, some n => match second.bind chomping? with
    | some chomping => some (⟨chomping, some n⟩, c.skip 2)
    | none => some (⟨.clip, some n⟩, c.next)
  | none, none => some (⟨.clip, none⟩, c)

/-- The position after the rest of the line of the header, which holds blanks and a comment. -/
def endHeader (c : Cursor) : Option Cursor :=
  let c := c.skipWhile isSpacing
  let c := if c.nextIs (· == '#') then c.skipWhile (fun x => !isBreak x) else c
  if c.rest.isEmpty then some c
  else if c.nextIs isBreak then some c.next
  else none

/-- The line breaks of empty lines, and the position at the first line that is not empty, after its
indentation. While the indentation is not known, every space is part of it, and `widest` is the
greatest column reached. A tab may not stand in the indentation. -/
def takeEmptyLines (indent : Option Nat) :
    Nat → Cursor → Nat → List Char → Option (List Char × Nat × Cursor)
  | 0, _, _, _ => none
  | bound + 1, c, widest, breaks =>
    let spaces := c.rest.takeWhile (· == ' ')
    let width := match indent with
      | none => spaces.length
      | some n => min spaces.length (n - c.column)
    let c := c.skip width
    let widest := max widest c.column
    let indenting := match indent with
      | none => true
      | some n => c.column < n
    -- Behind the indentation a tab is text.
    if indenting && c.nextIs (· == '\t') then none
    else match c.rest with
      | x :: _ =>
        if isBreak x then takeEmptyLines indent bound c.next widest (breaks ++ [x])
        else some (breaks, widest, c)
      | [] => some (breaks, widest, c)

/-- The state between two lines of a text in block form. -/
structure BlockLines where
  /-- The text so far. -/
  text : List Char
  /-- The line break after the last line. -/
  lastBreak : List Char
  /-- The last line started with a blank. -/
  afterBlank : Bool
  /-- The line breaks of the empty lines since. -/
  emptyLines : List Char

/-- What a line break before a further line reads as. -/
def joinLines (folded : Bool) (state : BlockLines) (nextIsBlank : Bool) : List Char :=
  if folded && state.lastBreak == ['\n'] && !state.afterBlank && !nextIsBlank then
    (if state.emptyLines.isEmpty then [' '] else []) ++ state.emptyLines
  else state.lastBreak ++ state.emptyLines

/-- Reads lines as long as they are indented by `indent`. -/
def takeLines (folded : Bool) (indent : Nat) :
    Nat → Cursor → BlockLines → Option (BlockLines × Cursor)
  | 0, _, _ => none
  | bound + 1, c, state =>
    if c.column == indent && !c.rest.isEmpty then do
      let blank := c.nextIs isSpacing
      let (line, c) := c.span fun x => !isBreak x
      let lastBreak := (c.rest.take 1)
      let (breaks, _, c) ← takeEmptyLines (some indent) (c.rest.length + 1) c.next 0 []
      takeLines folded indent bound c
        ⟨state.text ++ (joinLines folded state blank ++ line), lastBreak, blank, breaks⟩
    else some (state, c)

/-- The text with what counts of the line breaks at its end. -/
def chomp (chomping : Chomping) (state : BlockLines) : List Char :=
  match chomping with
  | .strip => state.text
  | .clip => state.text ++ state.lastBreak
  | .keep => state.text ++ (state.lastBreak ++ state.emptyLines)

/-- The text in block form at a position, which is before its indicator; `outer` is the least
indentation that the surrounding structure allows. -/
def takeBlock (folded : Bool) (outer : Nat) (c : Cursor) : Option (List Char × Cursor) := do
  let bound := c.rest.length + 1
  let (header, c) ← takeHeader c.next
  let c ← endHeader c
  let given := header.indent.map fun n => (outer - 1) + n
  let (breaks, widest, c) ← takeEmptyLines given bound c 0 []
  let indent := given.getD (max (max widest outer) 1)
  let (state, c) ← takeLines folded indent bound c ⟨[], [], false, breaks⟩
  some (chomp header.chomping state, c)

end AuditedRules.Yaml
