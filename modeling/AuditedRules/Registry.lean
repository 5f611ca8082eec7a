import AuditedRules.RuleBook

/-!
# Registries

A registry holds rules under their identifiers, at most one under each. The order in which it holds
them has no meaning: listings and checks are put in ascending order of identifiers.
-/

namespace AuditedRules

/-- Rules under their identifiers. -/
structure Registry where
  /-- The rules with the identifiers that they were registered under. -/
  entries : List (String × Rule)

namespace Registry

/-- The registry without rules. -/
def empty : Registry := ⟨[]⟩

/-- Removes what is held under an identifier. -/
def erase (registry : Registry) (id : String) : Registry :=
  ⟨registry.entries.filter fun entry => entry.1 != id⟩

/-- Puts in a rule in place of what was held under its identifier. -/
def register (registry : Registry) (rule : Rule) : Registry :=
  ⟨(rule.id, rule) :: (registry.erase rule.id).entries⟩

/-- The registry of all rules of a book. -/
def ofBook (book : RuleBook) : Registry :=
  book.rules.foldl register empty

/-- The rule under an identifier. -/
def get? (registry : Registry) (id : String) : Option Rule :=
  (registry.entries.find? fun entry => entry.1 == id).map (·.2)

/-- All rules, in no particular order. -/
def rules (registry : Registry) : List Rule :=
  registry.entries.map (·.2)

/-- The number of rules. -/
def size (registry : Registry) : Nat :=
  registry.entries.length

/-- Puts things in ascending order of their identifiers. -/
def sortById {α : Type} (id : α → String) (things : List α) : List α :=
  things.mergeSort fun a b => !decide (id b < id a)

/-- The entries of all rules in a listing, in ascending order of identifiers. -/
def list (registry : Registry) : List RuleSummary :=
  sortById (·.id) (registry.rules.map Rule.summary)

/-- The rules that take part in checks, in no particular order. -/
def activeRules (registry : Registry) : List Rule :=
  registry.rules.filter (·.active)

/-- Checks a record against some rules, in ascending order of identifiers. -/
def checkRules (rules : List Rule) (context : Context) (limit : Nat) : List RuleOutcome :=
  sortById (·.id) (rules.map fun r => r.check context limit)

/-- Checks a record against every active rule, in ascending order of identifiers. -/
def check (registry : Registry) (context : Context) (limit : Nat) : List RuleOutcome :=
  checkRules registry.activeRules context limit

end Registry

end AuditedRules
