import AuditedRules.FieldCatalog
import AuditedRules.Rule

/-!
# Rule books

A rule book is a catalog of fields with a list of rules. It is valid when every example in the
catalog has the type of its field, no two rules share an identifier, no predicate has more levels
than a limit, and every field of every predicate is in the catalog, unless that is empty. The
examples are looked at first, then the rules one after the other.
-/

namespace AuditedRules

/-- A catalog of fields with rules. -/
structure RuleBook where
  catalog : FieldCatalog
  rules : List Rule

/-- Why there is no valid rule book. -/
inductive RuleBookError
  /-- There is no file. -/
  | fileNotFound (path : String)
  /-- The file cannot be read as text. -/
  | unreadableFile
  /-- The text is no rule book of its format. -/
  | unreadable (format : Format) (fault : Fault)
  /-- An example has another type than its field. -/
  | exampleType (field : String) (expected found : ValueType)
  /-- Two rules have the same identifier. -/
  | duplicateId (id : String)
  /-- A predicate has more levels than the limit. -/
  | tooDeep (rule : String) (limit : Nat)
  /-- A predicate refers to a field that the catalog does not list. -/
  | unknownField (rule field : String)
deriving DecidableEq

/-- The message of an error; an unreadable text or file has no message here. -/
def RuleBookError.message : RuleBookError → String
  | .fileNotFound path => "Rule book file not found: " ++ path
  | .unreadableFile => ""
  | .unreadable .. => ""
  | .exampleType field expected found =>
    "Field '" ++ field ++ "' is declared " ++ expected.name ++ " but its example is a " ++
      found.name
  | .duplicateId id => "Duplicate rule id: " ++ id
  | .tooDeep rule limit => "Rule '" ++ rule ++ "' exceeds maximum depth of " ++ toString limit
  | .unknownField rule field => "Rule '" ++ rule ++ "' references unknown field '" ++ field ++ "'"

namespace RuleBook

instance : Inhabited RuleBook := ⟨⟨default, []⟩⟩

/-! ## Validation -/

/-- Every example has the type of its field. -/
def validateExamples : List CatalogField → Except RuleBookError Unit
  | [] => .ok ()
  | field :: rest => match field.sample with
    | none => validateExamples rest
    | some value =>
      if value.type = field.type then validateExamples rest
      else .error (.exampleType field.name field.type value.type)

/-- A single rule is valid, given the identifiers of the rules before it. -/
def validateRule (catalog : FieldCatalog) (limit : Nat) (seen : List String) (r : Rule) :
    Except RuleBookError Unit :=
  -- Of several faults in one rule the first of these is reported.
  if seen.contains r.id then .error (.duplicateId r.id)
  else if limit < r.predicate.depth then .error (.tooDeep r.id limit)
  else match catalog.firstUnknown? r.predicate with
    | some field => .error (.unknownField r.id field)
    | none => .ok ()

/-- All rules are valid, given the identifiers of the rules before them. -/
def validateRules (catalog : FieldCatalog) (limit : Nat) :
    List String → List Rule → Except RuleBookError Unit
  | _, [] => .ok ()
  | seen, r :: rest => do
    validateRule catalog limit seen r
    validateRules catalog limit (r.id :: seen) rest

/-- The book is valid. -/
def validate (book : RuleBook) (limit : Nat) : Except RuleBookError Unit := do
  validateExamples book.catalog.fields
  validateRules book.catalog limit [] book.rules

/-! ## Rules of a book -/

/-- The rule of an identifier. -/
def get? (book : RuleBook) (id : String) : Option Rule :=
  book.rules.find? fun r => r.id == id

/-- The rules that take part in checks. -/
def activeRules (book : RuleBook) : List Rule :=
  book.rules.filter (·.active)

/-- Checks a record against every active rule, in the order of the book. -/
def check (book : RuleBook) (context : Context) : List RuleOutcome :=
  book.activeRules.map fun r => r.check context defaultLimit

/-- The rules from harmless to serious, and by identifier within a severity. -/
def bySeverity (book : RuleBook) : List Rule :=
  book.rules.mergeSort fun a b =>
    a.severity.rank < b.severity.rank || (a.severity == b.severity && !(b.id < a.id))

/-! ## Documents -/

/-- The JSON form of a book. -/
def toJson (book : RuleBook) : Json :=
  .object [("fields", book.catalog.toJson), ("rules", .array (book.rules.map Rule.toJson))]

/-- Reads a book. Both of its parts may be missing. -/
def decoder : Decoder RuleBook :=
  .record "RuleBook"
    [.defaulted "fields" FieldCatalog.decoder fun catalog b => { b with catalog },
      .defaulted "rules" (.list Rule.decoder) fun rules b => { b with rules }]
    default

end RuleBook

end AuditedRules
