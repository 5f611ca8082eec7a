import AuditedRules.Text.Digit
import AuditedRules.Yaml.Cursor

/-!
# Texts that flow over lines

Texts without quotes and texts in quotes may go on over several lines. A single line break inside
them reads as a space, and of several the first is dropped; blanks around line breaks do not count.

A reader gives the text with the position after it, or nothing if the text is malformed. The bounds
of the readers exceed the number of characters that remain.
-/

namespace AuditedRules.Yaml

/-- What stands between two parts of a text. -/
inductive Separator
  /-- Blanks within a line. -/
  | spaces (chars : List Char)
  /-- Line breaks: the first one, if it counts, and the further ones. -/
  | breaks (first : Option Char) (more : List Char)

namespace Separator

/-- The separator that a run of blanks and line breaks is. -/
def ofRun (run : List Char) : Separator :=
  match run.dropWhile isSpacing with
  | [] => .spaces run
  | first :: rest => .breaks (some first) (rest.filter isBreak)

/-- What a separator reads as. -/
def text : Separator → List Char
  | .spaces chars => chars
  | .breaks none more => more
  | .breaks (some first) more =>
    if first = '\n' then if more.isEmpty then [' '] else more
    else first :: more

/-- The separator goes over a line break. -/
def isBroken : Separator → Bool
  | .spaces _ => false
  | .breaks .. => true

end Separator

/-! ## Texts without quotes -/

/-- The characters that end a text without quotes inside of brackets. -/
def isFlowIndicator (c : Char) : Bool :=
  c == ',' || c == '[' || c == ']' || c == '\x7b' || c == '\x7d'

/-- The characters before the next blank, line break or end of the text without quotes. Inside of
brackets a colon may not stand directly before a bracket, a comma or a question mark. -/
def takeChunk (inFlow : Bool) : List Char → Option (List Char)
  | [] => some []
  | c :: rest =>
    if isGap c then some []
    else if inFlow && c == ':' && rest.head?.any (fun d => isFlowIndicator d || d == '?')
    then none
    else if c == ':' && startsWithGap rest then some []
    else if inFlow && isFlowIndicator c then some []
    else (takeChunk inFlow rest).map (c :: ·)

/-- In a run of blanks and line breaks there is, after a line break, a tab before a column. The
current column is known once a line break was passed. -/
def hasEarlyTab (indent : Nat) : Option Nat → List Char → Bool
  | _, [] => false
  | column, c :: rest =>
    if isBreak c then hasEarlyTab indent (some 0) rest
    else match column with
      | none => hasEarlyTab indent none rest
      | some n => (c == '\t' && n < indent) || hasEarlyTab indent (some (n + 1)) rest

/-- A text without quotes. -/
structure PlainText where
  /-- What the text reads as. -/
  text : List Char
  /-- The position after it and after the blanks and line breaks behind it. -/
  after : Cursor
  /-- A line break lies behind it. -/
  broken : Bool

/-- Continues a text without quotes after a separator. Outside of brackets it goes on only on lines
that are indented by at least `indent`. -/
def plainFrom (inFlow : Bool) (indent : Nat) :
    Nat → Cursor → List Char → Separator → Option PlainText
  | 0, _, _, _ => none
  | bound + 1, c, text, separator =>
    if c.atMark || c.nextIs (· == '#') then some ⟨text, c, separator.isBroken⟩
    else match takeChunk inFlow c.rest with
      | none => none
      | some [] => some ⟨text, c, separator.isBroken⟩
      | some chunk =>
        let text := text ++ (separator.text ++ chunk)
        let (run, after) := (c.skip chunk.length).span isGap
        -- Without a blank behind it, the part ended at a sign that ends the text.
        if run.isEmpty then some ⟨text, after, false⟩
        else if hasEarlyTab indent none run then none
        else
          let separator := Separator.ofRun run
          if !inFlow && after.column < indent then some ⟨text, after, separator.isBroken⟩
          else plainFrom inFlow indent bound after text separator

/-- The text without quotes at a position. -/
def takePlain (inFlow : Bool) (indent : Nat) (c : Cursor) : Option PlainText :=
  plainFrom inFlow indent (c.rest.length + 1) c [] (.spaces [])

/-! ## Texts in quotes -/

/-- The character that a one-letter escape stands for. -/
def letterEscape? : Char → Option Char
  | '0' => some '\x00'
  | 'a' => some '\x07'
  | 'b' => some '\x08'
  | 't' => some '\t'
  | '\t' => some '\t'
  | 'n' => some '\n'
  | 'v' => some '\x0b'
  | 'f' => some '\x0c'
  | 'r' => some '\r'
  | 'e' => some '\x1b'
  | ' ' => some ' '
  | '"' => some '"'
  | '/' => some '/'
  | '\\' => some '\\'
  | 'N' => some '\u0085'
  | '_' => some '\u00a0'
  | 'L' => some '\u2028'
  | 'P' => some '\u2029'
  | _ => none

/-- The number of hexadecimal digits after the letter of an escape by number. -/
def escapeLength? : Char → Option Nat
  | 'x' => some 2
  | 'u' => some 4
  | 'U' => some 8
  | _ => none

/-- The character that an escape by number stands for, from its digits at the front of a text. -/
def numberedChar? (length : Nat) (text : List Char) : Option Char := do
  let digits := text.take length
  let n ← if digits.length = length then Text.numeral? 16 digits else none
  if (0xD800 ≤ n && n ≤ 0xDFFF) || 0x10FFFF < n then none else some (Char.ofNat n)

/-- The character of the escape whose letter is at the front of a text, and the number of characters
from the letter on. -/
def escape? : List Char → Option (Char × Nat)
  | [] => none
  | letter :: rest => match escapeLength? letter with
    | some length => (numberedChar? length rest).map fun c => (c, length + 1)
    | none => (letterEscape? letter).map fun c => (c, 1)

/-- Continues a text in quotes; `read` holds its characters so far in reverse order. A quote inside
single quotes is written twice, and double quotes allow escapes; an escaped line break joins two
lines. -/
def quotedFrom (quote : Char) : Nat → Cursor → List Char → Option (List Char × Cursor)
  | 0, _, _ => none
  | bound + 1, c, read =>
    if c.atMark then none
    else match c.rest with
      | [] => none
      | x :: rest =>
        if isGap x then
          let (run, after) := c.span isGap
          quotedFrom quote bound after ((Separator.ofRun run).text.reverse ++ read)
        else if x == quote then
          if quote == '\'' && rest.head? == some quote then
            quotedFrom quote bound (c.skip 2) (quote :: read)
          else some (read.reverse, c.next)
        else if quote == '"' && x == '\\' then
          if c.next.nextIs isBreak then
            -- The escaped break is gone; further ones count in full.
            let (run, after) := (c.skip 2).span isGap
            quotedFrom quote bound after
              ((Separator.breaks none (run.filter isBreak)).text.reverse ++ read)
          else match escape? rest with
            | some (char, length) => quotedFrom quote bound (c.skip (length + 1)) (char :: read)
            | none => none
        else quotedFrom quote bound c.next (x :: read)

/-- The text in quotes at a position, which is before the opening quote. -/
def takeQuoted (quote : Char) (c : Cursor) : Option (List Char × Cursor) :=
  quotedFrom quote (c.rest.length + 1) c.next []

end AuditedRules.Yaml
