import AuditedRules.CommandLine
import AuditedRules.Environment

/-!
# The program

Reads what the command needs from the outside, runs it, and prints what it answers. Everything that
is decided is decided by `CommandLine.ending`. Listening for requests is not part of this program; a
command that goes on to serve ends with a note instead.
-/

namespace AuditedRules.Main

/-- What there is under a path. -/
def readState (path : String) : IO FileState := do
  try
    return .text (← IO.FS.readFile path)
  catch error =>
    match error with
    | .noFileOrDirectory .. => return .missing
    | _ => return .unreadable

/-- What there is under each of some paths. -/
def readStates (paths : List String) : IO (List (String × FileState)) :=
  paths.mapM fun path => do return (path, ← readState path)

/-- The values of some variables that are set. -/
def readVariables (names : List String) : IO (List (String × String)) := do
  let values ← names.mapM fun name => do return (name, ← IO.getEnv name)
  return values.filterMap fun entry => entry.2.map fun value => (entry.1, value)

/-- The variables that the program knows. -/
def variableNames : List String :=
  ["VERDICT_HOST", "VERDICT_PORT", "VERDICT_RULES", "VERDICT_MAX_DEPTH"]

/-- What a command can look at. -/
def readSurroundings (command : Option Command) : IO Surroundings := do
  let given ← readVariables variableNames
  let file ← readState ".env"
  let fileText := match file with
    | .text contents => some contents
    | _ => none
  let set := Environment.lookup (fun name => given.lookup name) fileText
  let states ← readStates ((command.map Command.paths).getD [] ++ (set "VERDICT_RULES").toList)
  return ⟨fun path => (states.lookup path).getD .missing, set⟩

end AuditedRules.Main

/-- Runs the command that the arguments are. -/
def main (arguments : List String) : IO UInt32 := do
  let command := AuditedRules.CommandLine.parse arguments
  let around ← AuditedRules.Main.readSurroundings command
  let ending := AuditedRules.CommandLine.ending around arguments
  IO.print ending.output
  return ending.status.toUInt32
