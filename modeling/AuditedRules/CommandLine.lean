import AuditedRules.Intake
import AuditedRules.Predicate.Grammar
import AuditedRules.Service
import AuditedRules.Settings

/-!
# The command line

The program takes a command with options. An option with a value is written `--name value`,
`--name=value`, `-n value`, `-nvalue` or `-n=value`; a value that is an argument of its own does not
start with a dash, unless it is nothing but a dash. No option is given twice. What does not fit is
refused before anything is done.

Texts are given literally or as the name of a file after `@`. A command answers with a text, fails
without one, or wants to serve a rule book.
-/

namespace AuditedRules

/-- A command with its options. -/
inductive Command
  | eval (ast : String) (context : Option String) (json : Bool)
  | render (ast : String)
  | check (rules context : String) (json : Bool)
  | rules (rules : String)
  | intake (reply : String) (rules : Option String)
  | grammar
  | serve (port : Option Nat) (host rules : Option String)

namespace CommandLine

/-! ## Options -/

/-- An option of a command. -/
structure OptionName where
  long : String
  /-- The letter of its short form. -/
  short : Option Char
  takesValue : Bool

/-- The options that were given, with their values. -/
abbrev Given := List (String × String)

/-- Adds an option that was not given before. -/
def give (given : Given) (long value : String) : Option Given :=
  if given.any fun entry => entry.1 == long then none else some (given ++ [(long, value)])

/-- An argument can be the value of the option before it. -/
def isValue (argument : String) : Bool :=
  argument == "-" || !argument.startsWith "-"

/-- What an argument says: an option, and its value if that is in the same argument. -/
structure Named where
  option : OptionName
  value : Option String

/-- An option by its long name, with its value after an equals sign. -/
def longOption? (options : List OptionName) (text : List Char) : Option Named := do
  let name := text.takeWhile (· != '=')
  let option ← options.find? fun option => option.long.toList == name
  let value := match text.drop name.length with
    | _ :: value => some (String.ofList value)
    | [] => none
  some ⟨option, value⟩

/-- An option by its letter, with its value behind it. -/
def shortOption? (options : List OptionName) (letter : Char) (rest : List Char) : Option Named := do
  let option ← options.find? fun option => option.short == some letter
  let value := match rest with
    | [] => none
    | '=' :: value => some (String.ofList value)
    | value => some (String.ofList value)
  some ⟨option, value⟩

/-- The option that an argument names. -/
def optionOf? (options : List OptionName) (argument : String) : Option Named :=
  match argument.toList with
  | '-' :: '-' :: text => longOption? options text
  | '-' :: letter :: rest => shortOption? options letter rest
  | _ => none

/-- The options that some arguments give. -/
def parseOptions (options : List OptionName) : List String → Given → Option Given
  | [], given => some given
  | ["--"], given => some given
  | argument :: rest, given => do
    let named ← optionOf? options argument
    let long := named.option.long
    match named.option.takesValue, named.value, rest with
    | true, some value, rest => parseOptions options rest (← give given long value)
    | true, none, value :: rest =>
      if isValue value then parseOptions options rest (← give given long value) else none
    | true, none, [] => none
    | false, some _, _ => none
    | false, none, rest => parseOptions options rest (← give given long "")

/-- The value of an option. -/
def valueOf? (given : Given) (long : String) : Option String :=
  (given.find? fun entry => entry.1 == long).map (·.2)

/-- An option was given. -/
def isGiven (given : Given) (long : String) : Bool :=
  (valueOf? given long).isSome

/-! ## Commands -/

/-- An option with a value and a short form. -/
def withShort (long : String) (short : Char) : OptionName :=
  ⟨long, some short, true⟩

/-- An option with a value and without a short form. -/
def longOnly (long : String) : OptionName :=
  ⟨long, none, true⟩

/-- The option that asks for JSON. -/
def jsonFlag : OptionName :=
  ⟨"json", none, false⟩

/-- The options of each command. -/
def optionsOf? : String → Option (List OptionName)
  | "eval" => some [withShort "ast" 'a', withShort "context" 'c', jsonFlag]
  | "render" => some [withShort "ast" 'a']
  | "check" => some [withShort "rules" 'r', withShort "context" 'c', jsonFlag]
  | "rules" => some [withShort "rules" 'r']
  | "intake" => some [longOnly "reply", withShort "rules" 'r']
  | "grammar" => some []
  | "serve" => some [withShort "port" 'p', longOnly "host", withShort "rules" 'r']
  | _ => none

/-- A port as an option gives it: zero may have a minus sign. -/
def optionPort? (text : String) : Option Nat :=
  match text.toList with
  | '-' :: digits => (Text.numeral? 10 digits).filter (· == 0)
  | _ => Settings.port? text

/-- The port in an option, which may be missing. -/
def portOf (given : Given) : Option (Option Nat) :=
  match valueOf? given "port" with
  | none => some none
  | some text => (optionPort? text).map some

/-- The command of a name with the options that were given. -/
def ofGiven (given : Given) : String → Option Command
  | "eval" => do
    some (.eval (← valueOf? given "ast") (valueOf? given "context") (isGiven given "json"))
  | "render" => do some (.render (← valueOf? given "ast"))
  | "check" => do
    some (.check (← valueOf? given "rules") (← valueOf? given "context") (isGiven given "json"))
  | "rules" => do some (.rules (← valueOf? given "rules"))
  | "intake" => do some (.intake (← valueOf? given "reply") (valueOf? given "rules"))
  | "grammar" => some .grammar
  | "serve" => do some (.serve (← portOf given) (valueOf? given "host") (valueOf? given "rules"))
  | _ => none

/-- The command that some arguments are. -/
def parse : List String → Option Command
  | [] => none
  | name :: arguments => do
    let options ← optionsOf? name
    ofGiven (← parseOptions options arguments []) name

end CommandLine

/-! ## Running -/

/-- What becomes of a command. -/
inductive CommandResult
  /-- The command answers with a text. -/
  | answered (text : String)
  /-- The command fails. -/
  | failed
  /-- The command serves a rule book. -/
  | serving (settings : Settings) (book : RuleBook)

/-- What a command can look at: files, and variables. -/
structure Surroundings where
  files : String → FileState
  variableOf : String → Option String

namespace Command

/-- A text, or the name of a file after `@`. -/
inductive Argument
  | literal (text : String)
  | file (path : String)

/-- What an argument is. -/
def Argument.of (argument : String) : Argument :=
  match argument.toList with
  | '@' :: path => .file (String.ofList path)
  | text => .literal (String.ofList text)

/-- The text of an argument, if there is one. -/
def textOf? (files : String → FileState) (argument : String) : Option String :=
  match Argument.of argument with
  | .literal text => some text
  | .file path => match files path with
    | .text contents => some contents
    | _ => none

/-- The context that an argument gives. Without the argument it is empty. -/
def contextOf? (files : String → FileState) : Option String → Option Context
  | none => some .empty
  | some argument => do (Context.ofText (← textOf? files argument)).toOption

/-- A line. -/
def lineOf (text : String) : String :=
  text ++ "\n"

/-- A JSON value on lines of its own. -/
def prettyLines (value : Json) : String :=
  lineOf value.pretty

/-- The text for a result. -/
def resultText (result : EvalResult) : String :=
  let word := if result.pass then "PASS" else "FAIL"
  lineOf (match result.error with
    | some error => word ++ " (error: " ++ error ++ ")"
    | none => word) ++ result.trace.renderTree

/-- The line for an outcome. -/
def outcomeLine (outcome : RuleOutcome) : String :=
  lineOf ((if outcome.triggered then "✗" else "✓") ++ " " ++ outcome.id ++ " [" ++
    outcome.severity.title ++ "]" ++
    (match outcome.message, outcome.result.error with
      | some message, _ => ": " ++ message
      | none, some error => " (error: " ++ error ++ ")"
      | none, none => ""))

/-- The lines for outcomes, with their number and that of the triggered rules. -/
def outcomesText (outcomes : List RuleOutcome) : String :=
  let triggered := outcomes.filter (·.triggered)
  String.join (outcomes.map outcomeLine) ++
    lineOf (toString triggered.length ++ " of " ++ toString outcomes.length ++ " rules triggered")

/-- The line for a rule. -/
def ruleLine (rule : Rule) : String :=
  lineOf (rule.id ++ " [" ++ rule.kind.title ++ "/" ++ rule.severity.title ++ "]" ++
    (if rule.active then "" else " (inactive)") ++ ": " ++ rule.predicate.render)

/-- The text for a compiled predicate. -/
def compiledText (compiled : CompiledPredicate) : String :=
  lineOf compiled.predicate.render ++
    (if compiled.summary.isEmpty then "" else lineOf compiled.summary) ++
    prettyLines compiled.predicate.toJson

/-- The compiled predicate in a reply, whose fields are checked against the catalog of a rule book
if one is given. -/
def compiledOf? (files : String → FileState) (reply : String) (rules : Option String) :
    Option CompiledPredicate := do
  let compiled ← (CompiledPredicate.ofReply defaultLimit (← textOf? files reply)).toOption
  match rules with
  | none => some compiled
  | some path => do
    let book ← (RuleBook.load files defaultLimit path).toOption
    (compiled.checkFields book.catalog).toOption
    some compiled

/-- The settings of a service, in which options go before variables. -/
def settingsOf? (variableOf : String → Option String) (port : Option Nat)
    (host rules : Option String) : Option Settings := do
  let settings ← (Settings.ofVariables variableOf).toOption
  some { settings with
    port := port.getD settings.port
    host := host.getD settings.host
    rulesPath := rules <|> settings.rulesPath }

/-- The text that a command answers with. -/
def answer? (files : String → FileState) : Command → Option String
  | .eval ast context json => do
    let context ← contextOf? files context
    let result := evaluateText (← textOf? files ast) context defaultLimit
    some (if json then prettyLines result.toJson else resultText result)
  | .render ast => do
    let p ← (Predicate.ofText defaultLimit (← textOf? files ast)).toOption
    some (lineOf p.render)
  | .check path context json => do
    let book ← (RuleBook.load files defaultLimit path).toOption
    let outcomes := book.check (← contextOf? files (some context))
    some (if json then prettyLines (.array (outcomes.map RuleOutcome.toJson))
      else outcomesText outcomes)
  | .rules path => do
    let book ← (RuleBook.load files defaultLimit path).toOption
    some (String.join (book.rules.map ruleLine))
  | .intake reply path => do some (compiledText (← compiledOf? files reply path))
  | .grammar => some (prettyLines Predicate.Grammar.schema)
  | .serve .. => none

/-- What becomes of a command. -/
def run (around : Surroundings) (command : Command) : CommandResult :=
  match command with
  | .serve port host path =>
    match settingsOf? around.variableOf port host path with
    | none => .failed
    | some settings => match settings.prepare around.files with
      | .ok book => .serving settings book
      | .error _ => .failed
  | command => match command.answer? around.files with
    | some text => .answered text
    | none => .failed

/-- The files that an argument names. -/
def fileOf (argument : String) : List String :=
  match Argument.of argument with
  | .literal _ => []
  | .file path => [path]

/-- The files that a command may look at, apart from the one that variables name. -/
def paths : Command → List String
  | .eval ast context _ => fileOf ast ++ (context.map fileOf).getD []
  | .render ast => fileOf ast
  | .check path context _ => path :: fileOf context
  | .rules path => [path]
  | .intake reply path => fileOf reply ++ path.toList
  | .grammar => []
  | .serve _ _ path => path.toList

end Command

/-- The status with which the program ends, and its output. -/
structure Ending where
  status : Nat
  output : String

/-- How the program ends when it is called with some arguments and does not go on to serve. -/
def CommandLine.ending (around : Surroundings) (arguments : List String) : Ending :=
  match parse arguments with
  | none => ⟨2, ""⟩
  | some command => match command.run around with
    | .answered text => ⟨0, text⟩
    | .failed => ⟨1, ""⟩
    | .serving .. => ⟨1, ""⟩

end AuditedRules
