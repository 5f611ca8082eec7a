import AuditedRules.Json.Token
import AuditedRules.Document

/-!
# Reading JSON text

Tokens are put together into a document by recursive descent. Where the next token does not fit, the
value is `broken`, nothing more is read, and the arrays and objects around it stay unclosed. A comma
stands between two items and not before a closing bracket.

A member of an object starts with a value, its key; that the key has to be a string is left to who
decodes it. Without a key that is a string and a colon after it, the member's own value is broken.
-/

namespace AuditedRules.Json

mutual

/-- The value at the front of the tokens, and the tokens after it. The bound exceeds twice the
number of tokens. -/
def readValue : Nat → List Token → Document × List Token
  | 0, _ => (.broken, [])
  | bound + 1, tokens => match tokens with
    | .null :: rest => (.null, rest)
    | .bool b :: rest => (.bool b, rest)
    | .number (some n) :: rest => (.number n, rest)
    | .number none :: rest => (.unreadable, rest)
    | .string (some s) :: rest => (.string s, rest)
    | .string none :: rest => (.unreadable, rest)
    | .openArray :: .closeArray :: rest => (.sequence [] true, rest)
    | .openArray :: rest =>
      let (items, closed, rest) := readItems bound rest
      (.sequence items closed, rest)
    | .openObject :: .closeObject :: rest => (.mapping [] true, rest)
    | .openObject :: rest =>
      let (members, closed, rest) := readMembers bound rest
      (.mapping members closed, rest)
    | _ => (.broken, [])

/-- The items of an array up to its closing bracket, whether that was found, and the tokens after
it. -/
def readItems : Nat → List Token → List Document × Bool × List Token
  | 0, _ => ([], false, [])
  | bound + 1, tokens =>
    let (item, rest) := readValue bound tokens
    match rest with
    | .closeArray :: rest => ([item], true, rest)
    | .comma :: rest =>
      let (items, closed, rest) := readItems bound rest
      (item :: items, closed, rest)
    | _ => ([item], false, [])

/-- The members of an object up to its closing brace, whether that was found, and the tokens after
it. -/
def readMembers : Nat → List Token → List (Document × Document) × Bool × List Token
  | 0, _ => ([], false, [])
  | bound + 1, tokens =>
    let (key, rest) := readValue bound tokens
    match tokens, rest with
    | .string _ :: _, .colon :: rest =>
      let (value, rest) := readValue bound rest
      match rest with
      | .closeObject :: rest => ([(key, value)], true, rest)
      | .comma :: rest =>
        let (members, closed, rest) := readMembers bound rest
        ((key, value) :: members, closed, rest)
      | _ => ([(key, value)], false, [])
    | _, _ => ([(key, .broken)], false, [])

end

/-- Reads a JSON text, by default with the double nearest to each decimal. -/
def read (text : String) (reading : NumberReading := numberOfParts) : Reading :=
  let tokens := tokens text.toList reading
  let (root, rest) := readValue (2 * tokens.length + 2) tokens
  ⟨root, !rest.isEmpty⟩

end AuditedRules.Json
