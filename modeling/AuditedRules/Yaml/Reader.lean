import AuditedRules.Document
import AuditedRules.Yaml.Token

/-!
# Reading YAML text

Tokens are put together into a document by recursive descent. Where a value may be left out and is,
an empty text without quotes stands in its place. Where the next token does not fit, or the tokens
run out, the value is `broken`, nothing more is read, and what surrounds it stays unclosed.

A node may be given a name by an anchor and used again under that name later; a name that was not
given breaks the document. A node that is used inside of itself stands for no value.
-/

namespace AuditedRules.Yaml

/-- The tokens that remain, and the nodes that were given names, latest first. -/
structure Feed where
  tokens : List Token
  anchors : List (String × Document)

namespace Feed

/-- Reading goes on with the tokens that remain. -/
def past (feed : Feed) (tokens : List Token) : Feed :=
  { feed with tokens }

/-- Reading ends here. -/
def stop (feed : Feed) : Feed :=
  feed.past []

/-- Gives a name to a node. -/
def define (name : String) (node : Document) (feed : Feed) : Feed :=
  { feed with anchors := (name, node) :: feed.anchors }

end Feed

/-- The text that stands for a value that is left out. -/
def leftOut : Document := .plain ""

/-- Tokens before which the item of a block sequence is left out. -/
def endsBlockItem (token : Token) : Bool :=
  token == .blockEntry || token == .blockEnd

/-- Tokens before which a key or a value of a block mapping is left out. -/
def endsBlockMember (token : Token) : Bool :=
  token == .key || token == .value || token == .blockEnd

/-- Tokens before which the item of a sequence without indentation of its own is left out. -/
def endsBareItem (token : Token) : Bool :=
  token == .blockEntry || endsBlockMember token

/-- Tokens before which a value inside of brackets, with the given closing one, is left out. -/
def endsFlowValue (closing token : Token) : Bool :=
  token == .flowEntry || token == closing

/-- Tokens before which a key inside of brackets, with the given closing one, is left out. -/
def endsFlowKey (closing token : Token) : Bool :=
  token == .value || endsFlowValue closing token

/-- Reads an optional value with `read`, unless a token comes before which it is left out. -/
def readUnless (ends : Token → Bool) (read : Feed → Document × Feed) (feed : Feed) :
    Document × Feed :=
  match feed.tokens with
  | [] => (.broken, feed)
  | token :: _ => if ends token then (leftOut, feed) else read feed

/-- Reads the value after a key with `read`; without a colon it is left out. -/
def readMemberValue (ends : Token → Bool) (read : Feed → Document × Feed) (feed : Feed) :
    Document × Feed :=
  match feed.tokens with
  | [] => (.broken, feed)
  | .value :: rest => readUnless ends read (feed.past rest)
  | _ => (leftOut, feed)

/-- Goes over the comma before an entry in brackets that is not the first. -/
def skipComma (first : Bool) (feed : Feed) : Option Feed :=
  if first then some feed
  else match feed.tokens with
    | .flowEntry :: rest => some (feed.past rest)
    | _ => none

/-- Where a node may be a block: nowhere, anywhere, or also as a sequence without indentation of its
own. -/
inductive BlockPlace
  | none
  | indented
  | bare
deriving DecidableEq

mutual

/-- The node at the front of the tokens. The bound exceeds four times the number of tokens. -/
def readNode : Nat → BlockPlace → Feed → Document × Feed
  | 0, _, feed => (.broken, feed.stop)
  | bound + 1, place, feed => match feed.tokens with
    | .alias name :: rest => match feed.anchors.find? (fun anchor => anchor.1 == name) with
      | some anchor => (anchor.2, feed.past rest)
      | none => (.broken, feed.stop)
    | .anchor name :: rest =>
      -- Until the node is complete, its name stands for no value.
      let (node, after) := readContent bound place true ((feed.past rest).define name .unreadable)
      (node, after.define name node)
    | _ => readContent bound place false feed

/-- The content of a node. A node with a name may have no content. -/
def readContent : Nat → BlockPlace → Bool → Feed → Document × Feed
  | 0, _, _, feed => (.broken, feed.stop)
  | bound + 1, place, anchored, feed => match place, feed.tokens with
    | _, .plain text :: rest => (.plain text, feed.past rest)
    | _, .quoted text :: rest => (.string text, feed.past rest)
    | _, .flowSequenceStart :: rest =>
      let (items, closed, after) := readFlowItems bound true (feed.past rest)
      (.sequence items closed, after)
    | _, .flowMappingStart :: rest =>
      let (members, closed, after) := readFlowMembers bound true (feed.past rest)
      (.mapping members closed, after)
    | .bare, .blockEntry :: _ =>
      let (items, closed, after) := readBareItems bound feed
      (.sequence items closed, after)
    | .none, _ :: _ => if anchored then (leftOut, feed) else (.broken, feed.stop)
    | _, .blockSequenceStart :: rest =>
      let (items, closed, after) := readBlockItems bound (feed.past rest)
      (.sequence items closed, after)
    | _, .blockMappingStart :: rest =>
      let (members, closed, after) := readBlockMembers bound (feed.past rest)
      (.mapping members closed, after)
    | _, _ :: _ => if anchored then (leftOut, feed) else (.broken, feed.stop)
    | _, [] => (.broken, feed)

/-- The items of a block sequence, whether its end was found, and what comes after. -/
def readBlockItems : Nat → Feed → List Document × Bool × Feed
  | 0, feed => ([], false, feed.stop)
  | bound + 1, feed => match feed.tokens with
    | .blockEntry :: rest =>
      let (item, after) := readUnless endsBlockItem (readNode bound .indented) (feed.past rest)
      let (items, closed, after) := readBlockItems bound after
      (item :: items, closed, after)
    | .blockEnd :: rest => ([], true, feed.past rest)
    | _ => ([], false, feed.stop)

/-- The items of a sequence without indentation of its own, which ends at any other token. -/
def readBareItems : Nat → Feed → List Document × Bool × Feed
  | 0, feed => ([], false, feed.stop)
  | bound + 1, feed => match feed.tokens with
    | .blockEntry :: rest =>
      let (item, after) := readUnless endsBareItem (readNode bound .indented) (feed.past rest)
      let (items, closed, after) := readBareItems bound after
      (item :: items, closed, after)
    | tokens => ([], !tokens.isEmpty, feed)

/-- The members of a block mapping, whether its end was found, and what comes after. -/
def readBlockMembers : Nat → Feed → List (Document × Document) × Bool × Feed
  | 0, feed => ([], false, feed.stop)
  | bound + 1, feed => match feed.tokens with
    | .key :: rest =>
      let (key, after) := readUnless endsBlockMember (readNode bound .bare) (feed.past rest)
      let (value, after) := readMemberValue endsBlockMember (readNode bound .bare) after
      let (members, closed, after) := readBlockMembers bound after
      ((key, value) :: members, closed, after)
    | .blockEnd :: rest => ([], true, feed.past rest)
    | _ => ([], false, feed.stop)

/-- The items of a sequence in brackets, whether its end was found, and what comes after. An item
may be a single member without brackets of its own. -/
def readFlowItems : Nat → Bool → Feed → List Document × Bool × Feed
  | 0, _, feed => ([], false, feed.stop)
  | bound + 1, first, feed => match feed.tokens with
    | .flowSequenceEnd :: rest => ([], true, feed.past rest)
    | _ => match skipComma first feed with
      | none => ([], false, feed.stop)
      | some feed => match feed.tokens with
        | .flowSequenceEnd :: rest => ([], true, feed.past rest)
        | .key :: rest =>
          let (key, after) :=
            readUnless (endsFlowKey .flowSequenceEnd) (readNode bound .none) (feed.past rest)
          let (value, after) :=
            readMemberValue (endsFlowValue .flowSequenceEnd) (readNode bound .none) after
          let (items, closed, rest) := readFlowItems bound false after
          (.mapping [(key, value)] (!after.tokens.isEmpty) :: items, closed, rest)
        | _ =>
          let (item, after) := readNode bound .none feed
          let (items, closed, after) := readFlowItems bound false after
          (item :: items, closed, after)

/-- The members of a mapping in brackets, whether its end was found, and what comes after. A member
may be a key alone. -/
def readFlowMembers : Nat → Bool → Feed → List (Document × Document) × Bool × Feed
  | 0, _, feed => ([], false, feed.stop)
  | bound + 1, first, feed => match feed.tokens with
    | .flowMappingEnd :: rest => ([], true, feed.past rest)
    | _ => match skipComma first feed with
      | none => ([], false, feed.stop)
      | some feed => match feed.tokens with
        | .flowMappingEnd :: rest => ([], true, feed.past rest)
        | .key :: rest =>
          let (key, after) :=
            readUnless (endsFlowKey .flowMappingEnd) (readNode bound .none) (feed.past rest)
          let (value, after) :=
            readMemberValue (endsFlowValue .flowMappingEnd) (readNode bound .none) after
          let (members, closed, after) := readFlowMembers bound false after
          ((key, value) :: members, closed, after)
        | _ =>
          let (key, after) := readNode bound .none feed
          let value := if after.tokens.isEmpty then .broken else leftOut
          let (members, closed, after) := readFlowMembers bound false after
          ((key, value) :: members, closed, after)

end

/-- A token before which a document after its mark is left out. -/
def endsDocument (token : Token) : Bool :=
  token == .documentStart || token == .documentEnd || token == .streamEnd

/-- Reads a YAML text, whose document is left out if the text is empty. -/
def read (text : String) : Reading :=
  let tokens := tokens text
  let readRoot := readNode (4 * tokens.length + 4) .indented
  let (root, after) := match tokens with
    | [.streamEnd] => (leftOut, Feed.mk tokens [])
    | .documentStart :: rest => readUnless endsDocument readRoot ⟨rest, []⟩
    | tokens => readRoot ⟨tokens, []⟩
  let rest := after.tokens.dropWhile (· == .documentEnd)
  ⟨root, rest != [.streamEnd]⟩

end AuditedRules.Yaml
