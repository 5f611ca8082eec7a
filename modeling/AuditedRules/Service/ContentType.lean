/-!
# Content types

The type of a request's body is given as a type and a subtype with parameters. A subtype may have a
suffix after its last plus sign. Bodies are accepted when their type is `application` and the
subtype before the suffix, or the suffix, is `json`, in letters of either case.
-/

namespace AuditedRules.ContentType

/-- A character of a name. -/
def isToken (c : Char) : Bool :=
  c.isAlphanum || "!#$%&'*+-.^_|~\x60".toList.contains c

/-- A character of a value in quotes. -/
def isQuotedChar (c : Char) : Bool :=
  c == '\t' || (31 < c.toNat && c.toNat < 127 && c != '"' && c != '\\')

/-- Two texts that differ at most in the case of letters. -/
def sameLetters (a b : List Char) : Bool :=
  a.map Char.toLower == b.map Char.toLower

/-- A subtype without its suffix, and the suffix. A plus sign at its start starts no suffix. -/
def splitSuffix (subtype : List Char) : List Char × Option (List Char) :=
  let suffix := (subtype.reverse.takeWhile (· != '+')).reverse
  let front := subtype.take (subtype.length - suffix.length - 1)
  if suffix.length < subtype.length && !front.isEmpty then (front, some suffix)
  else (subtype, none)

/-- What follows the value of a parameter, if the value is well-formed. -/
def afterValue (text : List Char) : Option (List Char) :=
  match text with
  | '"' :: text =>
    let value := text.takeWhile isQuotedChar
    match text.drop value.length with
    | '"' :: rest => if value.isEmpty then none else match rest.dropWhile (· == ' ') with
      | [] => some []
      | ';' :: rest => some rest
      | _ => none
    | _ => none
  | text =>
    let value := text.takeWhile isToken
    match text.drop value.length with
    | [] => some []
    | ';' :: rest => if value.isEmpty then none else some rest
    | _ => none

/-- The parameters after a semicolon are well-formed. The bound exceeds the length of the text. -/
def areParameters : Nat → List Char → Bool
  | 0, _ => false
  | bound + 1, text => match text.dropWhile (· == ' ') with
    | [] => true
    | text =>
      let name := text.takeWhile isToken
      match text.drop name.length with
      | '=' :: rest => !name.isEmpty && match afterValue rest with
        | some rest => areParameters bound rest
        | none => false
      | _ => false

/-- The content type is one of JSON. -/
def isJson (text : List Char) : Bool :=
  let type := text.takeWhile isToken
  match text.drop type.length with
  | '/' :: rest =>
    let subtype := rest.takeWhile isToken
    let rest := rest.drop subtype.length
    let (front, suffix) := splitSuffix subtype
    let parametersFit := match rest with
      | [] => true
      | ';' :: rest => areParameters (rest.length + 1) rest
      | _ => false
    !subtype.isEmpty && parametersFit && sameLetters type "application".toList &&
      (sameLetters front "json".toList || suffix.any fun s => sameLetters s "json".toList)
  | _ => false

end AuditedRules.ContentType
