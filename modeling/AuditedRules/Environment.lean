import AuditedRules.Text.Blank

/-!
# Variables from a file

Variables may be set in a file, one on a line, as `NAME=value` with or without `export` before it.
Empty lines and lines that start with `#` are skipped. A value may stand in quotes, and without them
ends before a comment. The first line that sets a name counts, and a line that makes no sense ends
the file.
-/

namespace AuditedRules.Environment

/-- The lines of a text. -/
def lines (text : List Char) : List (List Char) :=
  match text with
  | [] => []
  | c :: rest =>
    if c == '\n' then [] :: lines rest
    else match lines rest with
      | line :: others => (c :: line) :: others
      | [] => [[c]]

/-- A character of a name. -/
def isNameChar (c : Char) : Bool :=
  c.isAlphanum || c == '_' || c == '.'

/-- A value in quotes, or up to the first blank. -/
def valueOf (text : List Char) : Option (List Char) :=
  match Text.trim text with
  | '"' :: rest => closed '"' rest
  | '\'' :: rest => closed '\'' rest
  | text =>
    let value := text.takeWhile fun c => !Text.isBlank c
    match (text.drop value.length).dropWhile Text.isBlank with
    | [] => some value
    | '#' :: _ => some value
    | _ => none
where
  /-- The text before a closing quote. -/
  closed (quote : Char) (text : List Char) : Option (List Char) :=
    let value := text.takeWhile (· != quote)
    if value.length < text.length then some value else none

/-- The name and the value that a line sets; a line without an assignment has none. -/
def assignmentOf (line : List Char) : Option (Option (String × String)) :=
  match Text.trim line with
  | [] => some none
  | '#' :: _ => some none
  | line =>
    let line := match line with
      | 'e' :: 'x' :: 'p' :: 'o' :: 'r' :: 't' :: ' ' :: rest => Text.trim rest
      | line => line
    let name := line.takeWhile isNameChar
    match (line.drop name.length).dropWhile Text.isBlank with
    | '=' :: rest =>
      if name.isEmpty then none
      else (valueOf rest).map fun value => some (String.ofList name, String.ofList value)
    | _ => none

/-- The assignments of some lines, up to one that makes no sense. -/
def assignments : List (List Char) → List (String × String)
  | [] => []
  | line :: rest => match assignmentOf line with
    | none => []
    | some none => assignments rest
    | some (some entry) => entry :: assignments rest

/-- The value of a variable, which the file sets only if it is not set already. -/
def lookup (outer : String → Option String) (file : Option String) (name : String) :
    Option String :=
  outer name <|> ((assignments (lines ((file.getD "").toList))).find?
    fun entry => entry.1 == name).map (·.2)

end AuditedRules.Environment
