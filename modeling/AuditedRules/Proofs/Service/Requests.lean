import AuditedRules.Proofs.Document.Members
import AuditedRules.Proofs.Service.Addresses
import AuditedRules.Service

/-!
# Requests and their answers

A request calls a route when its address is understood as the route and its method is that of the
route (`Request.Calls`); the response is then the answer of the route (`Service.handle_of_calls`).
The three routes that run rules are alike: a context is made of the record in the body, and then
the answer is made from the context, or the record is refused (`Service.onRecord`). What they make
from a context is said by one lemma for each of them.

The last part is about how to ask: a body that is written as compact JSON text is decoded as what it
says (`Service.posts_written`), whether there is a record in it or not.
-/

namespace AuditedRules

/-- The word for a method in a request. -/
def Route.Method.word : Route.Method → String
  | .get => "GET"
  | .post => "POST"

/-- A request calls a route: its address is understood as the route, and it has the method of it. -/
structure Request.Calls (request : Request) (route : Route) : Prop where
  method : request.method = route.method.word
  address : Route.ofPath? (Route.pathOf request.address.toList) = some route

/-- A request posts a value to a route: it calls the route, and its body is decoded as the value. -/
structure Request.Posts {α : Type} (request : Request) (route : Route) (decoder : Decoder α)
    (value : α) : Prop extends request.Calls route where
  body : Service.decodeBody decoder request = .ok value

namespace Service

variable {s : Service} {request : Request} {value : Json}

/-! ## Answers -/

/-- The response to a request with an answer, or with a refusal. -/
def responseOf : Except Refusal Json → Response
  | .ok answer => ⟨200, .json answer⟩
  | .error refusal => refusal.response

/-- The response to a request about a record: made from the context that the record is, or the
refusal of a record that is none. -/
def onRecord (value : Json) (answer : Context → Json) : Response :=
  responseOf ((contextOf value).map answer)

/-- A route with an identifier that is a text, or without one, responds with its answer. -/
theorem respond_eq {route : Route}
    (h : ∀ segment, idSegment? route = some segment → (Route.decodeId segment).isSome = true) :
    s.respond request route = responseOf (s.answer request route) := by
  have htext : (idSegment? route).any (fun id => (Route.decodeId id).isNone) = false := by
    cases hsegment : idSegment? route with
    | none => rfl
    | some segment => simp [h segment hsegment]
  unfold respond
  rw [htext, if_neg Bool.false_ne_true]
  rfl

/-- A request that calls a route is answered by the route. -/
theorem handle_of_calls {route : Route} (h : request.Calls route)
    (hid : ∀ segment, idSegment? route = some segment → (Route.decodeId segment).isSome = true) :
    s.handle request = responseOf (s.answer request route) := by
  have hmethod := h.method
  have hoptions : ¬ request.method = "OPTIONS" := by
    rw [hmethod]
    cases route.method <;> decide
  unfold handle
  rw [if_neg hoptions, h.address]
  dsimp only
  cases hroute : route.method with
  | get =>
    have hget : request.method = "GET" := by rw [hmethod, hroute, Route.Method.word]
    dsimp only
    rw [if_pos hget, respond_eq hid]
  | post =>
    have hpost : request.method = "POST" := by rw [hmethod, hroute, Route.Method.word]
    dsimp only
    rw [if_pos hpost, respond_eq hid]

/-- A handler goes from the body to the record in it, from that to its context, and from the context
to the answer. Only the second step can fail. -/
theorem map_contextOf {α : Type} (posted : α) (record : α → Json) (answer : α → Context → Json) :
    (do
      let body ← Except.ok posted
      let context ← contextOf (record body)
      .ok (answer body context) : Except Refusal Json) =
      (contextOf (record posted)).map (answer posted) := by
  show (contextOf (record posted) >>= fun context => .ok (answer posted context)) = _
  cases contextOf (record posted) <;> rfl

/-- A check runs all active rules of the registry. -/
theorem handle_check (h : request.Posts .check contextDecoder value) :
    s.handle request = onRecord value fun context =>
      .array ((s.registry.check context s.limit).map RuleOutcome.toJson) := by
  have hanswer : s.answer request .check = (contextOf value).map fun context =>
      .array ((s.registry.check context s.limit).map RuleOutcome.toJson) := by
    rw [answer, check, h.body]
    exact map_contextOf value id _
  rw [handle_of_calls h.toCalls (fun _ hnone => nomatch hnone), hanswer, onRecord]

/-- Evaluating a predicate runs the predicate in the body. -/
theorem handle_evaluate {ast : Json}
    (h : request.Posts .evaluate EvaluateBody.decoder ⟨ast, value⟩) :
    s.handle request = onRecord value fun context =>
      (evaluateAst ast context s.limit).toJson := by
  have hanswer : s.answer request .evaluate = (contextOf value).map fun context =>
      (evaluateAst ast context s.limit).toJson := by
    rw [answer, evaluate, h.body]
    exact map_contextOf (EvaluateBody.mk ast value) (·.context) _
  rw [handle_of_calls h.toCalls (fun _ hnone => nomatch hnone), hanswer, onRecord]

variable {segment : List Char} {id : String} {r : Rule}

/-- The identifier of a route for a rule is a text if it is decoded. -/
theorem isSome_decodeId (hid : Route.decodeId segment = some id) :
    ∀ other, some segment = some other → (Route.decodeId other).isSome = true := by
  intro other heq
  cases heq
  rw [hid]
  rfl

/-- A rule that is in the registry is found. -/
theorem findRule_eq_ok (hrule : s.registry.get? id = some r) : s.findRule id = .ok r := by
  unfold findRule
  rw [hrule]

/-- Evaluating a rule runs the rule under its identifier. -/
theorem handle_evaluateRule (hid : Route.decodeId segment = some id)
    (hrule : s.registry.get? id = some r)
    (h : request.Posts (.evaluateRule segment) contextDecoder value) :
    s.handle request = onRecord value fun context => (r.evaluate context s.limit).toJson := by
  have hanswer : s.answer request (.evaluateRule segment) = (contextOf value).map fun context =>
      (r.evaluate context s.limit).toJson := by
    rw [answer, hid, Option.getD_some, evaluateRule, findRule_eq_ok hrule, h.body]
    exact map_contextOf value (fun value => value) fun _ context =>
      (r.evaluate context s.limit).toJson
  rw [handle_of_calls h.toCalls (isSome_decodeId hid), hanswer, onRecord]

/-- Getting a rule shows the rule under its identifier. -/
theorem handle_rule (hid : Route.decodeId segment = some id)
    (hrule : s.registry.get? id = some r) (h : request.Calls (.rule segment)) :
    s.handle request = ⟨200, .json r.toJson⟩ := by
  have hanswer : s.answer request (.rule segment) = .ok r.toJson := by
    rw [answer, hid, Option.getD_some, findRule_eq_ok hrule]
    rfl
  rw [handle_of_calls h (isSome_decodeId hid), hanswer, responseOf]

/-! ## Written bodies -/

/-- The members of a body for a record, if there is one. -/
def recordMembers (given : Option Json) : List (String × Json) :=
  (given.map fun value => ("context", value)).toList

/-- A request that posts a written body to a path. -/
def written (path : List Char) (body : Json) : Request :=
  ⟨"POST", String.ofList path, some "application/json", body.compact⟩

/-- A written body is decoded like the document of what it says. -/
theorem posts_written {α : Type} {decoder : Decoder α} {posted : α} {path : List Char}
    {route : Route} {body : Json} (hpath : Route.ofPath? (Route.pathOf path) = some route)
    (hmethod : route.method = .post) (hbody : body.Writable Format.json.levels)
    (hposted : decoder .json Format.json.levels body.toDocument = .ok posted) :
    (written path body).Posts route decoder posted := by
  have htype : (some "application/json").any (fun type => ContentType.isJson type.toList) = true :=
    by decide
  refine ⟨⟨?_, ?_⟩, ?_⟩
  · rw [written, hmethod, Route.Method.word]
  · rw [written, String.toList_ofList, hpath]
  · unfold decodeBody written
    dsimp only
    rw [htype, if_pos rfl, Json.decode_compact decoder hbody.numbersFit, hposted]
    rfl

variable {given : Option Json}

/-- A body for a record can be written, if there is a level for the body itself. -/
theorem writable_recordMembers {levels : Nat} (hgiven : ∀ v, given = some v → v.Writable levels) :
    (Json.object (recordMembers given)).Writable (levels + 1) := by
  cases given with
  | none => exact .object .nil fun _ hm => absurd hm List.not_mem_nil
  | some v =>
    exact .object (List.pairwise_singleton _ _) (List.forall_mem_singleton.2 (hgiven v rfl))

/-- A body with a record, or without one, is decoded as the record, or as null. -/
theorem contextDecoder_recordMembers {levels : Nat}
    (hgiven : ∀ v, given = some v → v.Writable levels) :
    contextDecoder .json (levels + 1) (Json.object (recordMembers given)).toDocument =
      .ok (given.getD .null) := by
  unfold contextDecoder recordMembers
  cases given with
  | none => rfl
  | some v =>
    have hcontext : Decoder.json .json levels v.toDocument = .ok v :=
      Decoder.json_toDocument (hgiven v rfl)
    exact (Decoder.record_eq_ok (.cons ⟨_, rfl, congrArg (Except.map _) hcontext⟩ .nil) (by simp)
      (by simp [Decoder.Slot.defaulted])).trans rfl

/-- The members of a body with a predicate and a record, if there is one. -/
def predicateMembers (ast : Json) (given : Option Json) : List (String × Json) :=
  ("ast", ast) :: recordMembers given

/-- A body with a predicate can be written. -/
theorem writable_predicateMembers {ast : Json} {levels : Nat} (hast : ast.Writable levels)
    (hgiven : ∀ v, given = some v → v.Writable levels) :
    (Json.object (predicateMembers ast given)).Writable (levels + 1) := by
  cases given with
  | none =>
    exact .object (List.pairwise_singleton _ _) (List.forall_mem_singleton.2 hast)
  | some v =>
    have hnames : ["ast", "context"].Pairwise (· < ·) := by decide
    exact .object (ascending_of_names hnames)
      (List.forall_mem_cons.2 ⟨hast, List.forall_mem_singleton.2 (hgiven v rfl)⟩)

/-- A body with a predicate is decoded as the predicate, and the record or null. -/
theorem evaluateBody_predicateMembers {ast : Json} {levels : Nat} (hast : ast.Writable levels)
    (hgiven : ∀ v, given = some v → v.Writable levels) :
    EvaluateBody.decoder .json (levels + 1) (Json.object (predicateMembers ast given)).toDocument =
      .ok ⟨ast, given.getD .null⟩ := by
  unfold EvaluateBody.decoder predicateMembers recordMembers
  have hpredicate : Decoder.json .json levels ast.toDocument = .ok ast :=
    Decoder.json_toDocument hast
  cases given with
  | none =>
    exact (Decoder.record_eq_ok (.cons ⟨_, rfl, congrArg (Except.map _) hpredicate⟩ .nil) (by simp)
      (by simp [Decoder.Slot.required, Decoder.Slot.defaulted])).trans rfl
  | some v =>
    have hcontext : Decoder.json .json levels v.toDocument = .ok v :=
      Decoder.json_toDocument (hgiven v rfl)
    exact (Decoder.record_eq_ok (.cons ⟨_, rfl, congrArg (Except.map _) hpredicate⟩
      (.cons ⟨_, rfl, congrArg (Except.map _) hcontext⟩ .nil)) (by simp)
      (by simp [Decoder.Slot.required, Decoder.Slot.defaulted])).trans rfl

end Service

end AuditedRules
