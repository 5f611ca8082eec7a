import AuditedRules.Settings

/-!
# Folders

A folder with files given by their texts, and folders in it, under paths relative to it. A path may
go through folders by name, stay where it is with `.`, and go up with `..`; a slash after the name
of a file leads nowhere.
-/

namespace AuditedRules

/-- Files and folders under their paths. -/
structure Folder where
  /-- The text of each file, and nothing for a folder. -/
  entries : List (String × Option String)

namespace Folder

/-- The steps of a path; the last is empty after a slash at the end. -/
def steps (path : String) : List (List Char) :=
  Settings.splitAt '/' path.toList

/-- The steps of the path of an entry, without those that lead nowhere. -/
def entrySteps (path : String) : List (List Char) :=
  (steps path).filter fun step => !step.isEmpty && step != ['.']

/-- What there is under the names of some steps. -/
def stateAt (folder : Folder) (names : List (List Char)) : FileState :=
  if names.isEmpty then .unreadable
  else match folder.entries.find? fun entry => entrySteps entry.1 == names with
    | some (_, some text) => .text text
    | some (_, none) => .unreadable
    | none =>
      -- A folder need not be listed: a file in it is enough.
      if folder.entries.any fun entry => names.isPrefixOf (entrySteps entry.1) then .unreadable
      else .missing

/-- There is a folder under the names of some steps. -/
def isFolder (folder : Folder) (names : List (List Char)) : Bool :=
  match folder.stateAt names with
  | .unreadable => true
  | _ => false

/-- Follows the steps of a path from a place on. Each step has to start from a folder. -/
def follow (folder : Folder) (names : List (List Char)) :
    List (List Char) → Option (List (List Char))
  | [] => some names
  | step :: rest =>
    if !folder.isFolder names then none
    else if step.isEmpty || step == ['.'] then folder.follow names rest
    else if step == ['.', '.'] then
      if names.isEmpty then none else folder.follow names.dropLast rest
    else folder.follow (names ++ [step]) rest

/-- What there is under a path. -/
def state (folder : Folder) (path : String) : FileState :=
  if path.isEmpty || path.startsWith "/" then .missing
  else match folder.follow [] (steps path) with
    | some names => folder.stateAt names
    | none => .missing

end Folder

end AuditedRules
