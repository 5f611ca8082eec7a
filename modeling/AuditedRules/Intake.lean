import AuditedRules.FieldCatalog
import AuditedRules.Predicate.Encoding
import AuditedRules.Predicate.Reading
import AuditedRules.Predicate.Rendering
import AuditedRules.Text.Blank

/-!
# Replies of a predicate compiler

Predicates may be written by a compiler from sentences of natural language. Its reply is expected to
be JSON, either an object with a predicate under `ast` and an optional `summary`, or one with the
reason under `error` why there is no predicate. A reply is not trusted: code fences around it are
taken off, the predicate has to fit the grammar, and its fields can be checked against a catalog.
-/

namespace AuditedRules

/-! ## Fences -/

/-- Takes off fences of three backquotes, each with the lower-case letters and the one line break
behind it. `behindFence` says that only such letters stand between the last fence and the text. -/
def dropFences (behindFence : Bool) : List Char → List Char
  | '\x60' :: '\x60' :: '\x60' :: rest => dropFences true rest
  | c :: rest =>
    if behindFence && c.isLower then dropFences true rest
    -- One line break belongs to the fence, a second one to the text.
    else if behindFence && c == '\n' then dropFences false rest
    else c :: dropFences false rest
  | [] => []

/-- A reply without fences and without white space around it. -/
def stripFences (reply : List Char) : List Char :=
  Text.trim (dropFences false reply)

/-! ## Replies -/

/-- Why a reply gives no predicate. -/
inductive IntakeError
  /-- The reply is no JSON; its first characters. -/
  | notJson (preview : String)
  /-- The compiler gives a reason why there is no predicate. -/
  | declined (reason : String)
  /-- The reply has no member `ast`. -/
  | missingAst
  /-- What is there is no predicate. -/
  | invalid (error : EvalError)
  /-- The predicate refers to a field that the catalog does not list. -/
  | unknownField (field : String) (available : List String)
deriving DecidableEq

/-- The message of an error. -/
def IntakeError.message : IntakeError → String
  | .notJson preview => "compiler returned non-JSON: " ++ preview
  | .declined reason => reason
  | .missingAst => "reply has no 'ast' field"
  | .invalid error => error.message
  | .unknownField field available =>
    "Unknown field: " ++ field ++ ". Available fields: " ++ String.intercalate ", " available

/-- The number of characters of a reply that an error shows. -/
def previewLength : Nat := 200

/-- A predicate from a reply, with what it is said to mean. -/
structure CompiledPredicate where
  predicate : Predicate
  summary : String

namespace CompiledPredicate

/-- The reason in a reply why there is no predicate. -/
def refusal? (reply : Json) : Option String :=
  ((reply.get? "error").bind Json.string?).filter (· != "")

/-- The predicate in a JSON reply. -/
def ofJson (limit : Nat) (reply : Json) : Except IntakeError CompiledPredicate :=
  match refusal? reply with
  | some reason => .error (.declined reason)
  | none => match reply.get? "ast" with
    | none => .error .missingAst
    | some ast => match Predicate.ofJson limit ast with
      | .error e => .error (.invalid e)
      | .ok predicate =>
        .ok ⟨predicate, ((reply.get? "summary").bind Json.string?).getD ""⟩

/-- The predicate in a reply. -/
def ofReply (limit : Nat) (reply : String) : Except IntakeError CompiledPredicate :=
  let text := stripFences reply.toList
  match (Json.read (String.ofList text)).decode .json Decoder.json with
  | .ok value => ofJson limit value
  | .error _ => .error (.notJson (String.ofList (text.take previewLength)))

/-- The catalog lists every field of the predicate. -/
def checkFields (compiled : CompiledPredicate) (catalog : FieldCatalog) : Except IntakeError Unit :=
  match catalog.firstUnknown? compiled.predicate with
  | some field => .error (.unknownField field catalog.names)
  | none => .ok ()

/-- The JSON form of a compiled predicate. -/
def toJson (compiled : CompiledPredicate) : Json :=
  .object [("ast", compiled.predicate.toJson), ("summary", .string compiled.summary)]

end CompiledPredicate

end AuditedRules
