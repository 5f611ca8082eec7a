import AuditedRules.Yaml.Block
import AuditedRules.Yaml.Flowing

/-!
# Tokens of YAML text

The text is cut into tokens from left to right. Besides the marks that are written there are tokens
for what is only laid out: a block sequence or mapping starts where its first entry is indented
further than what surrounds it, and ends where a line is indented less.

That something is the key of a mapping shows only at the colon after it. So for every level of
brackets the place of the last token that may be a key is remembered, and at the colon the key's
mark is put in there. A key fits on one line and has at most 1024 characters. Where a block mapping
needs a key, a token that turns out to be none is an error.

The list of tokens ends with `streamEnd` if all of the text can be cut. Otherwise it ends where an
error was met, or before it at the first token of which it is not settled whether it is a key: what
it belongs to cannot be told.

Tags and directives are not understood, and are errors.
-/

namespace AuditedRules.Yaml

/-- A token of YAML text. -/
inductive Token
  | streamEnd
  | documentStart
  | documentEnd
  | blockSequenceStart
  | blockMappingStart
  | blockEnd
  | flowSequenceStart
  | flowSequenceEnd
  | flowMappingStart
  | flowMappingEnd
  | blockEntry
  | flowEntry
  | key
  | value
  | alias (name : String)
  | anchor (name : String)
  /-- A text without quotes. -/
  | plain (text : String)
  /-- A text in quotes or in block form. -/
  | quoted (text : String)
deriving DecidableEq

/-- A token that may turn out to be a key. -/
structure PossibleKey where
  /-- A block mapping needs a key there. -/
  required : Bool
  /-- The number of tokens before it. -/
  number : Nat
  line : Nat
  column : Nat
  index : Nat

/-- The state between two tokens. -/
structure Scanner where
  /-- What remains of the text. -/
  cursor : Cursor
  /-- The indentations of the open blocks, innermost first. -/
  indents : List Nat
  /-- For the text outside of brackets and each level of brackets, innermost first, the last token
  that may be a key. -/
  keys : List (Option PossibleKey)
  /-- A key may start here. -/
  keyAllowed : Bool
  /-- The tokens so far, in reverse order. -/
  tokens : List Token
  /-- The number of tokens so far. -/
  count : Nat

namespace Scanner

/-- The state before a text. -/
def start (text : List Char) : Scanner :=
  ⟨.start text, [], [none], true, [], 0⟩

/-- The position is inside of brackets. -/
def inFlow (s : Scanner) : Bool :=
  1 < s.keys.length

/-- Adds a token. -/
def emit (token : Token) (s : Scanner) : Scanner :=
  { s with tokens := token :: s.tokens, count := s.count + 1 }

/-- Puts a token in after the first `number` tokens. -/
def emitAt (number : Nat) (token : Token) (s : Scanner) : Scanner :=
  let later := s.count - number
  { s with
    tokens := s.tokens.take later ++ token :: s.tokens.drop later
    count := s.count + 1 }

/-- Moves some characters on. -/
def advance (n : Nat) (s : Scanner) : Scanner :=
  { s with cursor := s.cursor.skip n }

/-- Sets whether a key may start. -/
def allowKey (allowed : Bool) (s : Scanner) : Scanner :=
  { s with keyAllowed := allowed }

/-! ## Keys -/

/-- The last token of the innermost level that may be a key. -/
def possibleKey (s : Scanner) : Option PossibleKey :=
  s.keys.head?.join

/-- Sets the last token of the innermost level that may be a key. -/
def setKey (key : Option PossibleKey) (s : Scanner) : Scanner :=
  { s with keys := key :: s.keys.tail }

/-- A key would have to end before this position. -/
def isStale (s : Scanner) (key : PossibleKey) : Bool :=
  key.line < s.cursor.line || key.index + 1024 < s.cursor.index

/-- Gives up the tokens that can no longer be keys, unless one of them has to be one. -/
def dropStaleKeys (s : Scanner) : Option Scanner :=
  let stale := fun key => s.isStale key
  if s.keys.any fun key => key.any fun k => stale k && k.required then none
  else some { s with keys := s.keys.map fun key => key.filter fun k => !stale k }

/-- Gives up the token of the innermost level that may be a key, unless it has to be one. -/
def dropKey (s : Scanner) : Option Scanner :=
  if s.possibleKey.any (·.required) then none else some (s.setKey none)

/-- The next token may be a key, if one is allowed to start here. -/
def markKey (s : Scanner) : Option Scanner :=
  if s.keyAllowed then do
    let required := !s.inFlow && s.indents.head? == some s.cursor.column
    let key := PossibleKey.mk required s.count s.cursor.line s.cursor.column s.cursor.index
    some ((← s.dropKey).setKey (some key))
  else some s

/-! ## Indentation -/

/-- The least column that is indented further than the innermost block. -/
def minimumIndent (s : Scanner) : Nat :=
  (s.indents.head?.map (· + 1)).getD 0

/-- Ends the blocks that are indented further than a column. -/
def closeBlocks (column : Nat) (s : Scanner) : Scanner :=
  if s.inFlow then s
  else
    let closed := s.indents.takeWhile (column < ·)
    closed.foldl (fun s _ => s.emit .blockEnd) { s with indents := s.indents.drop closed.length }

/-- Ends all blocks. -/
def closeAllBlocks (s : Scanner) : Scanner :=
  if s.inFlow then s
  else s.indents.foldl (fun s _ => s.emit .blockEnd) { s with indents := [] }

/-- Starts a block at a column, if that is indented further, with its token after the first `number`
tokens. -/
def openBlock (column number : Nat) (token : Token) (s : Scanner) : Scanner :=
  if !s.inFlow && s.minimumIndent ≤ column then
    { s.emitAt number token with indents := column :: s.indents }
  else s

/-! ## Blanks and comments -/

/-- The position at the next character that belongs to a token. A tab may stand where no key can
start, and inside of brackets. -/
def skipBlanksWithin : Nat → Scanner → Scanner
  | 0, s => s
  | bound + 1, s =>
    let tabs := s.inFlow || !s.keyAllowed
    let c := s.cursor.skipWhile fun x => x == ' ' || (tabs && x == '\t')
    let c := if c.nextIs (· == '#') then c.skipWhile (fun x => !isBreak x) else c
    if c.nextIs isBreak then
      -- Outside of brackets a key may start on every new line.
      skipBlanksWithin bound { s with cursor := c.next, keyAllowed := s.keyAllowed || !s.inFlow }
    else { s with cursor := c }

/-- The position at the next character that belongs to a token; a byte order mark may stand at the
start of the text. -/
def skipBlanks (s : Scanner) : Scanner :=
  let s := if s.cursor.index == 0 && s.cursor.nextIs (· == '\ufeff') then s.advance 1 else s
  skipBlanksWithin (s.cursor.rest.length + 1) s

/-! ## Tokens -/

/-- The end of the text. -/
def endStream (s : Scanner) : Option Scanner := do
  some ((← s.closeAllBlocks.dropKey).emit .streamEnd)

/-- The mark of the start or the end of a document. -/
def markDocument (token : Token) (s : Scanner) : Option Scanner := do
  some (((← s.closeAllBlocks.dropKey).allowKey false |>.advance 3).emit token)

/-- An opening bracket. -/
def openFlow (token : Token) (s : Scanner) : Option Scanner := do
  let s ← s.markKey
  some ({ s with keys := none :: s.keys, keyAllowed := true }.advance 1 |>.emit token)

/-- A closing bracket. -/
def closeFlow (token : Token) (s : Scanner) : Option Scanner := do
  let s ← s.dropKey
  let keys := if s.inFlow then s.keys.tail else s.keys
  some ({ s with keys, keyAllowed := false }.advance 1 |>.emit token)

/-- A comma between entries in brackets. -/
def separateFlow (s : Scanner) : Option Scanner := do
  some (((← s.dropKey).allowKey true |>.advance 1).emit .flowEntry)

/-- The dash of an entry of a block sequence. -/
def blockEntry (s : Scanner) : Option Scanner := do
  let s ←
    if s.inFlow then some s
    else if s.keyAllowed then some (s.openBlock s.cursor.column s.count .blockSequenceStart)
    else none
  some (((← s.dropKey).allowKey true |>.advance 1).emit .blockEntry)

/-- The question mark of a key. -/
def explicitKey (s : Scanner) : Option Scanner := do
  let s ←
    if s.inFlow then some s
    else if s.keyAllowed then some (s.openBlock s.cursor.column s.count .blockMappingStart)
    else none
  let s ← s.dropKey
  some ((s.allowKey (!s.inFlow) |>.advance 1).emit .key)

/-- The colon after a key. -/
def mappingValue (s : Scanner) : Option Scanner :=
  match s.possibleKey with
  | some key =>
    -- The token from before is a key, and may be the first of a mapping.
    let s := (s.emitAt key.number .key).openBlock key.column key.number .blockMappingStart
    some ((s.setKey none |>.allowKey false |>.advance 1).emit .value)
  | none => do
    -- The key is left out, or was marked by a question mark.
    let s ←
      if s.inFlow then some s
      else if s.keyAllowed then some (s.openBlock s.cursor.column s.count .blockMappingStart)
      else none
    some ((s.allowKey (!s.inFlow) |>.advance 1).emit .value)

/-- A character of the name of an anchor. -/
def isAnchorChar (c : Char) : Bool :=
  c.isAlphanum || c == '_' || c == '-'

/-- A character that may follow the name of an anchor. -/
def endsAnchor (c : Char) : Bool :=
  isGap c || c == '?' || c == ':' || c == ',' || c == ']' || c == '\x7d' || c == '%' || c == '@' ||
    c == '\x60'

/-- The name of an anchor, for its definition or its use. -/
def anchorName (token : String → Token) (s : Scanner) : Option Scanner := do
  let s ← s.markKey
  let (name, after) := s.cursor.next.span isAnchorChar
  if name.isEmpty || !(after.rest.isEmpty || after.nextIs endsAnchor) then none
  else some ({ s with cursor := after, keyAllowed := false }.emit (token (String.ofList name)))

/-- A text in block form. -/
def blockText (folded : Bool) (s : Scanner) : Option Scanner := do
  let s ← s.dropKey
  let (text, after) ← takeBlock folded s.minimumIndent s.cursor
  some ({ s with cursor := after, keyAllowed := true }.emit (.quoted (String.ofList text)))

/-- A text in quotes. -/
def quotedText (quote : Char) (s : Scanner) : Option Scanner := do
  let s ← s.markKey
  let (text, after) ← takeQuoted quote s.cursor
  some ({ s with cursor := after, keyAllowed := false }.emit (.quoted (String.ofList text)))

/-- A text without quotes. -/
def plainText (s : Scanner) : Option Scanner := do
  let s ← s.markKey
  let taken ← takePlain s.inFlow s.minimumIndent s.cursor
  some ({ s with cursor := taken.after, keyAllowed := taken.broken }.emit
    (.plain (String.ofList taken.text)))

/-- A character that starts a token of its own, and cannot start a text without quotes. -/
def isIndicator (c : Char) : Bool :=
  "-?:,[]\x7b\x7d#&*!|>'\"%@\x60".toList.contains c

/-- The token at a character that is no blank; `rest` is what follows the character. -/
def tokenAt (c : Char) (rest : List Char) (s : Scanner) : Option Scanner :=
  if s.cursor.column == 0 && c == '%' then none
  else if s.cursor.atMark then markDocument (if c == '-' then .documentStart else .documentEnd) s
  else if c == '[' then openFlow .flowSequenceStart s
  else if c == '\x7b' then openFlow .flowMappingStart s
  else if c == ']' then closeFlow .flowSequenceEnd s
  else if c == '\x7d' then closeFlow .flowMappingEnd s
  else if c == ',' then separateFlow s
  else if c == '-' && startsWithGap rest then blockEntry s
  else if c == '?' && (s.inFlow || startsWithGap rest) then explicitKey s
  else if c == ':' && (s.inFlow || startsWithGap rest) then mappingValue s
  else if c == '*' then anchorName .alias s
  else if c == '&' then anchorName .anchor s
  else if c == '|' && !s.inFlow then blockText false s
  else if c == '>' && !s.inFlow then blockText true s
  else if c == '\'' || c == '"' then quotedText c s
  else if !isIndicator c && !isGap c then plainText s
  else if c == '-' && !rest.head?.any isSpacing then plainText s
  else if !s.inFlow && (c == '?' || c == ':') then plainText s
  else none

/-- The state after the next token, if there is one. -/
def step (s : Scanner) : Option Scanner := do
  let s ← s.skipBlanks.dropStaleKeys
  let s := s.closeBlocks s.cursor.column
  match s.cursor.rest with
  | [] => endStream s
  | c :: rest => tokenAt c rest s

/-- It is not settled whether a token is a key: it can still be one, or it has to be. -/
def isUnsettled (s : Scanner) (key : PossibleKey) : Bool :=
  key.required || !s.isStale key

/-- The number of tokens before the first one of which it is not settled whether it is a key. -/
def settled (s : Scanner) : Nat :=
  ((s.keys.filterMap id).filter s.isUnsettled).foldl (fun n key => min n key.number) s.count

/-- All tokens from a state on. The bound exceeds the number of tokens that remain. -/
def run : Nat → Scanner → List Token
  | 0, s => s.tokens.reverse
  | bound + 1, s => match s.step with
    | none => s.tokens.reverse.take s.settled
    | some s => match s.tokens with
      | .streamEnd :: _ => s.tokens.reverse
      | _ => run bound s

end Scanner

/-- The tokens of a text. A text with a character that may not stand in it has none. -/
def tokens (text : String) : List Token :=
  if text.toList.all isAllowed then
    let text := joinBreaks text.toList
    Scanner.run (text.length + 1) (Scanner.start text)
  else []

end AuditedRules.Yaml
