/-!
# Positions in YAML text

What remains of a text, with the line and the column of its first character. Line breaks of all
kinds are made single characters first: those of ASCII and the next-line character become a line
feed, the separators of lines and paragraphs stay as they are.
-/

namespace AuditedRules.Yaml

/-- Makes each line break a single character. -/
def joinBreaks : List Char → List Char
  | '\r' :: '\n' :: rest => '\n' :: joinBreaks rest
  | '\r' :: rest => '\n' :: joinBreaks rest
  | '\u0085' :: rest => '\n' :: joinBreaks rest
  | c :: rest => c :: joinBreaks rest
  | [] => []

/-- A character that may stand in a text. -/
def isAllowed (c : Char) : Bool :=
  let n := c.toNat
  c == '\t' || c == '\n' || c == '\r' || (0x20 ≤ n && n ≤ 0x7E) || n == 0x85 ||
    (0xA0 ≤ n && n ≤ 0xFFFD) || 0x10000 ≤ n

/-- A line break. -/
def isBreak (c : Char) : Bool :=
  c == '\n' || c == '\u2028' || c == '\u2029'

/-- A blank within a line. -/
def isSpacing (c : Char) : Bool :=
  c == ' ' || c == '\t'

/-- A blank or a line break. -/
def isGap (c : Char) : Bool :=
  isSpacing c || isBreak c

/-- A text starts with a blank or a line break, or is empty. -/
def startsWithGap : List Char → Bool
  | [] => true
  | c :: _ => isGap c

/-- A text starts with the mark of the start or the end of a document. -/
def startsWithMark : List Char → Bool
  | '-' :: '-' :: '-' :: rest => startsWithGap rest
  | '.' :: '.' :: '.' :: rest => startsWithGap rest
  | _ => false

/-- What remains of a text, and where it starts. -/
structure Cursor where
  /-- The characters that remain. -/
  rest : List Char
  /-- The number of line breaks before. -/
  line : Nat
  /-- The number of characters before on the same line. -/
  column : Nat
  /-- The number of characters before. -/
  index : Nat

namespace Cursor

/-- The start of a text. -/
def start (text : List Char) : Cursor :=
  ⟨text, 0, 0, 0⟩

/-- The position after the next character. -/
def next (c : Cursor) : Cursor :=
  match c.rest with
  | [] => c
  | x :: rest =>
    if isBreak x then ⟨rest, c.line + 1, 0, c.index + 1⟩
    else ⟨rest, c.line, c.column + 1, c.index + 1⟩

/-- The position some characters further. -/
def skip : Nat → Cursor → Cursor
  | 0, c => c
  | n + 1, c => skip n c.next

/-- The characters up to the first one that fails a test, and the position there. -/
def span (p : Char → Bool) (c : Cursor) : List Char × Cursor :=
  let taken := c.rest.takeWhile p
  (taken, skip taken.length c)

/-- The position at the first character that fails a test. -/
def skipWhile (p : Char → Bool) (c : Cursor) : Cursor :=
  (c.span p).2

/-- At the mark of the start or the end of a document. -/
def atMark (c : Cursor) : Bool :=
  c.column == 0 && startsWithMark c.rest

/-- The next character, if there is one, passes a test. -/
def nextIs (p : Char → Bool) (c : Cursor) : Bool :=
  c.rest.head?.any p

end Cursor

end AuditedRules.Yaml
