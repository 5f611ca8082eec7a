import AuditedRules.Document
import AuditedRules.Yaml.Plain

/-!
# Scalars of a document

The leaves of a document, with the type of a text without quotes settled by its spelling.
-/

namespace AuditedRules.Document

/-- The scalar that a leaf of a document is. -/
def scalar? : Document → Option Scalar
  | .null => some .null
  | .bool b => some (.bool b)
  | .number (.int i) => some (.integer i)
  | .number (.float x) => some (.float x)
  | .string s => some (.string s)
  | .plain s => some (.ofPlain s)
  | _ => none

/-- The text of a leaf that is read as a text: what is in quotes, or else the spelling. -/
def text? : Document → Option String
  | .string s => some s
  | .plain s => some s
  | _ => none

end AuditedRules.Document
