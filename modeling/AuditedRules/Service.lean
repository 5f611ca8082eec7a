import AuditedRules.Intake
import AuditedRules.Predicate.Grammar
import AuditedRules.Registry
import AuditedRules.RuleBook.Loading
import AuditedRules.Service.ContentType
import AuditedRules.Service.Route

/-!
# The service

The service answers requests about the rules of a registry and about predicates that come with a
request. No request changes the registry. A predicate that fails is an answer like any other; only
requests that cannot be understood are refused, with a status that tells why:

- 404 for an unknown path or rule, 405 for a method that the path does not understand;
- 415 for a body of another type than JSON, 400 for a malformed body;
- 422 for a body of another shape, a context or predicate that is none, and a reply that gives no
  predicate.
-/

namespace AuditedRules

/-- A request to the service. -/
structure Request where
  /-- The method, in upper case. -/
  method : String
  /-- The path, with a query or without. -/
  address : String
  /-- The type that the body is said to have. -/
  contentType : Option String
  /-- The text of the body. -/
  body : String

/-- The body of an answer. -/
inductive ResponseBody
  | json (value : Json)
  | text (text : String)

/-- An answer of the service. -/
structure Response where
  status : Nat
  body : ResponseBody

/-- What the service works with. -/
structure Service where
  registry : Registry
  catalog : FieldCatalog
  /-- The number of levels that predicates may have. -/
  limit : Nat

namespace Service

/-- The service on the rules of a book. -/
def ofBook (book : RuleBook) (limit : Nat) : Service :=
  ⟨.ofBook book, book.catalog, limit⟩

/-! ## Refusals -/

/-- A refusal with a message. -/
structure Refusal where
  status : Nat
  message : String

/-- The answer for a refusal. -/
def Refusal.response (refusal : Refusal) : Response :=
  ⟨refusal.status, .json (.object [("error", .string refusal.message)])⟩

/-- The refusal of a request that is understood and makes no sense. -/
def unprocessable (message : String) : Refusal :=
  ⟨422, message⟩

/-- The refusal of a rule that is not there. -/
def unknownRule (id : String) : Refusal :=
  ⟨404, "Rule '" ++ id ++ "' not found"⟩

/-- The refusal of a body that is not as it should be. -/
def badBody : Fault → Refusal
  | .mismatch place mismatch =>
    unprocessable ("Failed to deserialize the JSON body into the target type: " ++
      (if place.isEmpty then "" else Place.path place ++ ": ") ++ mismatch.message .json)
  | _ => ⟨400, "Failed to parse the request body as JSON"⟩

/-- The body of a request, as what it should be. -/
def decodeBody {α : Type} (decoder : Decoder α) (request : Request) : Except Refusal α :=
  if request.contentType.any fun type => ContentType.isJson type.toList then
    ((Json.read request.body).decode .json decoder).mapError badBody
  else .error ⟨415, "Expected request with " ++ backquoted "Content-Type: application/json"⟩

/-! ## Bodies -/

/-- The body of a request to evaluate a predicate. -/
structure EvaluateBody where
  /-- The predicate, as a JSON value or as a JSON text. -/
  ast : Json
  /-- The context, or null for an empty one. -/
  context : Json

/-- Reads the body of a request to evaluate a predicate. -/
def EvaluateBody.decoder : Decoder EvaluateBody :=
  .record "EvaluateRequest"
    [.required "ast" Decoder.json fun ast b => { b with ast },
      .defaulted "context" Decoder.json fun context b => { b with context }]
    ⟨.null, .null⟩

/-- Reads the body of a request to render a predicate. -/
def renderDecoder : Decoder Json :=
  .record "RenderRequest" [.required "ast" Decoder.json fun ast _ => ast] .null

/-- Reads the body of a request with nothing but a context. -/
def contextDecoder : Decoder Json :=
  .record "ContextRequest" [.defaulted "context" Decoder.json fun context _ => context] .null

/-- Reads the body of a request with a reply of a predicate compiler. -/
def replyDecoder : Decoder String :=
  .record "IntakeRequest" [.required "reply" .text fun reply _ => reply] ""

/-- The context in a request. One that is missing or null is empty. -/
def contextOf (value : Json) : Except Refusal Context :=
  match value with
  | .null => .ok .empty
  | value => (Context.ofJson value).mapError fun e => unprocessable e.message

/-- The result for a predicate in a request, given as JSON text or as a JSON value. -/
def evaluateAst (ast : Json) (context : Context) (limit : Nat) : EvalResult :=
  match ast with
  | .string text => evaluateText text context limit
  | value => evaluateJson value context limit

/-- The predicate in a request, given as JSON text or as a JSON value. -/
def predicateOf (ast : Json) (limit : Nat) : Except EvalError Predicate :=
  match ast with
  | .string text => Predicate.ofText limit text
  | value => Predicate.ofJson limit value

/-! ## Answers -/

/-- Evaluates a predicate. -/
def evaluate (s : Service) (request : Request) : Except Refusal Json := do
  let body ← decodeBody EvaluateBody.decoder request
  let context ← contextOf body.context
  .ok (evaluateAst body.ast context s.limit).toJson

/-- Renders a predicate. -/
def render (s : Service) (request : Request) : Except Refusal Json := do
  let ast ← decodeBody renderDecoder request
  let p ← (predicateOf ast s.limit).mapError fun e => unprocessable e.message
  .ok (.object [("rendered", .string p.render)])

/-- Lists the rules. -/
def listRules (s : Service) : Json :=
  .array (s.registry.list.map RuleSummary.toJson)

/-- The rule of an identifier. -/
def findRule (s : Service) (id : String) : Except Refusal Rule :=
  match s.registry.get? id with
  | some rule => .ok rule
  | none => .error (unknownRule id)

/-- Evaluates a rule. The rule is looked up before the body is looked at. -/
def evaluateRule (s : Service) (id : String) (request : Request) : Except Refusal Json := do
  -- An unknown rule is refused whatever the body is.
  let rule ← s.findRule id
  let context ← contextOf (← decodeBody contextDecoder request)
  .ok (rule.evaluate context s.limit).toJson

/-- Checks a record against all active rules. -/
def check (s : Service) (request : Request) : Except Refusal Json := do
  let context ← contextOf (← decodeBody contextDecoder request)
  .ok (.array ((s.registry.check context s.limit).map RuleOutcome.toJson))

/-- Takes in a reply of a predicate compiler. -/
def intake (s : Service) (request : Request) : Except Refusal Json := do
  let reply ← decodeBody replyDecoder request
  let taken : Except IntakeError CompiledPredicate := do
    let compiled ← CompiledPredicate.ofReply s.limit reply
    compiled.checkFields s.catalog
    .ok compiled
  let compiled ← taken.mapError fun e => unprocessable e.message
  .ok (.object [("ast", compiled.predicate.toJson), ("summary", .string compiled.summary),
    ("rendered", .string compiled.predicate.render)])

/-- The answer of a route whose identifier, if it has one, is a text. -/
def answer (s : Service) (request : Request) : Route → Except Refusal Json
  | .health => .ok (.object [("status", .string "ok")])
  | .grammar => .ok Predicate.Grammar.schema
  | .evaluate => s.evaluate request
  | .render => s.render request
  | .rules => .ok s.listRules
  | .rule id => (s.findRule ((Route.decodeId id).getD "")).map Rule.toJson
  | .evaluateRule id => s.evaluateRule ((Route.decodeId id).getD "") request
  | .check => s.check request
  | .intake => s.intake request

/-- The segment of a route that holds an identifier. -/
def idSegment? : Route → Option (List Char)
  | .rule id => some id
  | .evaluateRule id => some id
  | _ => none

/-- The answer of a route. -/
def respond (s : Service) (request : Request) (route : Route) : Response :=
  if (idSegment? route).any fun id => (Route.decodeId id).isNone then
    ⟨400, .text ("Invalid URL: Invalid UTF-8 in " ++ backquoted "id")⟩
  else match s.answer request route with
    | .ok value => ⟨200, .json value⟩
    | .error refusal => refusal.response

/-- The answer without its body. -/
def withoutBody (response : Response) : Response :=
  ⟨response.status, .text ""⟩

/-- The answer to a request. `OPTIONS` is always granted, and `HEAD` is `GET` without a body. -/
def handle (s : Service) (request : Request) : Response :=
  if request.method = "OPTIONS" then ⟨200, .text ""⟩
  else match Route.ofPath? (Route.pathOf request.address.toList) with
    | none => ⟨404, .text ""⟩
    | some route => match route.method with
      | .get =>
        if request.method = "GET" then s.respond request route
        else if request.method = "HEAD" then withoutBody (s.respond request route)
        else ⟨405, .text ""⟩
      | .post => if request.method = "POST" then s.respond request route else ⟨405, .text ""⟩

end Service

end AuditedRules
