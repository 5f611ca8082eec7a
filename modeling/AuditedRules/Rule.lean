import AuditedRules.Evaluation
import AuditedRules.Predicate.Encoding
import AuditedRules.Predicate.Rendering

/-!
# Rules

A rule is a predicate under an identifier, with what is to be reported when it passes. Checking a
record against a rule gives an outcome: the rule is triggered when its predicate passes, and only
then its message is reported. A predicate that fails does not trigger its rule.
-/

namespace AuditedRules

/-- What a rule is for. -/
inductive RuleKind
  | rule
  | skill
  | constraint
deriving DecidableEq

/-- How seriously a triggered rule is to be taken. -/
inductive Severity
  | info
  | warn
  | block
deriving DecidableEq

/-- The name of a kind in documents. -/
def RuleKind.name : RuleKind → String
  | .rule => "rule"
  | .skill => "skill"
  | .constraint => "constraint"

/-- The name of a kind in listings. -/
def RuleKind.title : RuleKind → String
  | .rule => "Rule"
  | .skill => "Skill"
  | .constraint => "Constraint"

/-- The name of a severity in documents. -/
def Severity.name : Severity → String
  | .info => "info"
  | .warn => "warn"
  | .block => "block"

/-- The name of a severity in listings. -/
def Severity.title : Severity → String
  | .info => "Info"
  | .warn => "Warn"
  | .block => "Block"

/-- The place of a severity in the order from harmless to serious. -/
def Severity.rank : Severity → Nat
  | .info => 0
  | .warn => 1
  | .block => 2

/-- Reads a kind. -/
def RuleKind.decoder : Decoder RuleKind :=
  .choice ([.rule, .skill, .constraint].map fun kind => (kind.name, kind))

/-- Reads a severity. -/
def Severity.decoder : Decoder Severity :=
  .choice ([.info, .warn, .block].map fun severity => (severity.name, severity))

/-- The result of checking a record against a rule. -/
structure RuleOutcome where
  /-- The identifier of the rule. -/
  id : String
  /-- The severity of the rule. -/
  severity : Severity
  /-- The predicate passed. -/
  triggered : Bool
  /-- The message of the rule, if it was triggered. -/
  message : Option String
  /-- The result of the evaluation. -/
  result : EvalResult

/-- An entry for a rule in a listing. -/
structure RuleSummary where
  /-- The identifier of the rule. -/
  id : String
  /-- The name for people. -/
  name : String
  kind : RuleKind
  severity : Severity
  active : Bool
  /-- The predicate as text. -/
  rendered : String

/-- A predicate under an identifier. -/
structure Rule where
  /-- The identifier. -/
  id : String
  /-- The name for people, if it is not the identifier. -/
  name : Option String
  description : String
  kind : RuleKind
  severity : Severity
  /-- What is reported when the predicate passes. -/
  message : Option String
  /-- The rule takes part in checks. -/
  active : Bool
  predicate : Predicate

/-! ## Outcomes and listings -/

namespace RuleOutcome

instance : Inhabited RuleOutcome := ⟨⟨"", .warn, false, none, default⟩⟩

/-- The JSON form of an outcome. A message that is not there is left out. -/
def toJson (o : RuleOutcome) : Json :=
  .object ([("rule_id", .string o.id), ("severity", .string o.severity.name),
    ("triggered", .bool o.triggered)] ++
    (o.message.map fun text => ("message", Json.string text)).toList ++
    [("result", o.result.toJson)])

/-- Reads an outcome. -/
def decoder : Decoder RuleOutcome :=
  .record "RuleOutcome"
    [.required "rule_id" .text fun id o => { o with id },
      .required "severity" Severity.decoder fun severity o => { o with severity },
      .required "triggered" .boolean fun triggered o => { o with triggered },
      .defaulted "message" (.optional .text) fun message o => { o with message },
      .required "result" EvalResult.decoder fun result o => { o with result }]
    default

end RuleOutcome

namespace RuleSummary

instance : Inhabited RuleSummary := ⟨⟨"", "", .rule, .warn, true, ""⟩⟩

/-- The JSON form of an entry. -/
def toJson (s : RuleSummary) : Json :=
  .object [("id", .string s.id), ("name", .string s.name), ("kind", .string s.kind.name),
    ("severity", .string s.severity.name), ("active", .bool s.active),
    ("rendered", .string s.rendered)]

/-- Reads an entry. -/
def decoder : Decoder RuleSummary :=
  .record "RuleSummary"
    [.required "id" .text fun id s => { s with id },
      .required "name" .text fun name s => { s with name },
      .required "kind" RuleKind.decoder fun kind s => { s with kind },
      .required "severity" Severity.decoder fun severity s => { s with severity },
      .required "active" .boolean fun active s => { s with active },
      .required "rendered" .text fun rendered s => { s with rendered }]
    default

end RuleSummary

namespace Rule

/-- A rule without content; its fields are the values of what a document leaves out. -/
instance : Inhabited Rule := ⟨⟨"", none, "", .rule, .warn, none, true, default⟩⟩

/-- The name for people; without one, the identifier. -/
def displayName (r : Rule) : String :=
  r.name.getD r.id

/-- Evaluates the predicate of a rule. -/
def evaluate (r : Rule) (context : Context) (limit : Nat) : EvalResult :=
  r.predicate.evaluate context limit

/-- Checks a record against a rule. -/
def check (r : Rule) (context : Context) (limit : Nat) : RuleOutcome :=
  let result := r.evaluate context limit
  ⟨r.id, r.severity, result.pass, if result.pass then r.message else none, result⟩

/-- The entry of a rule in a listing. -/
def summary (r : Rule) : RuleSummary :=
  ⟨r.id, r.displayName, r.kind, r.severity, r.active, r.predicate.render⟩

/-- The JSON form of a rule. -/
def toJson (r : Rule) : Json :=
  .object [("id", .string r.id), ("name", .ofText? r.name), ("description", .string r.description),
    ("kind", .string r.kind.name), ("severity", .string r.severity.name),
    ("message", .ofText? r.message), ("active", .bool r.active), ("ast", r.predicate.toJson)]

/-- Reads a rule. Only its identifier and its predicate have to be there. -/
def decoder : Decoder Rule :=
  .record "Rule"
    [.required "id" .text fun id r => { r with id },
      .defaulted "name" (.optional .text) fun name r => { r with name },
      .defaulted "description" .text fun description r => { r with description },
      .defaulted "kind" RuleKind.decoder fun kind r => { r with kind },
      .defaulted "severity" Severity.decoder fun severity r => { r with severity },
      .defaulted "message" (.optional .text) fun message r => { r with message },
      .defaulted "active" .boolean fun active r => { r with active },
      .required "ast" Predicate.decoder fun predicate r => { r with predicate }]
    default

end Rule

end AuditedRules
