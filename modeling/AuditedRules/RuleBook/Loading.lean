import AuditedRules.RuleBook
import AuditedRules.Yaml.Reader

/-!
# Loading rule books

A rule book is a text in JSON or YAML that is decoded and then validated. A file is JSON when its
name ends in `.json`, in letters of either case, after at least one other character; every other
file is YAML. A book that is loaded from a file may have a limit on depth of its own, which is
applied after the default one.
-/

namespace AuditedRules

/-- What there is under a path. -/
inductive FileState
  /-- There is nothing under the path. -/
  | missing
  /-- Something that cannot be read as text, such as a folder. -/
  | unreadable
  | text (contents : String)

/-- Reads a text in a format. -/
def Format.read : Format → String → Reading
  | .json, text => Json.read text
  | .yaml, text => Yaml.read text

/-- Decodes a text in a format. -/
def Format.decode {α : Type} (format : Format) (decoder : Decoder α) (text : String) :
    Except Fault α :=
  (format.read text).decode format decoder

/-- The last part of a path, after its slashes. -/
def fileName (path : List Char) : List Char :=
  (path.reverse.dropWhile (· == '/') |>.takeWhile (· != '/')).reverse

/-- The characters after the last dot of a file name that has characters before it. -/
def fileExtension? (name : List Char) : Option (List Char) :=
  let reversed := name.reverse
  match reversed.dropWhile (· != '.') with
  | _ :: _ :: _ => some (reversed.takeWhile (· != '.')).reverse
  | _ => none

/-- The format of a file, by its name. -/
def Format.ofPath (path : String) : Format :=
  match fileExtension? (fileName path.toList) with
  | some ext => if ext.map Char.toLower = "json".toList then .json else .yaml
  | none => .yaml

namespace RuleBook

/-- The valid rule book that a text is. -/
def ofText (format : Format) (text : String) : Except RuleBookError RuleBook := do
  let book ← (format.decode RuleBook.decoder text).mapError (.unreadable format)
  book.validate defaultLimit
  .ok book

/-- The valid rule book in a file, with a limit on the depth of its rules. -/
def load (files : String → FileState) (limit : Nat) (path : String) :
    Except RuleBookError RuleBook :=
  match files path with
  | .missing => .error (.fileNotFound path)
  | .unreadable => .error .unreadableFile
  | .text contents => do
    let book ← ofText (.ofPath path) contents
    book.validate limit
    .ok book

end RuleBook

end AuditedRules
