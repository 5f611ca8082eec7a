import AuditedRules.Proofs.Context
import AuditedRules.Proofs.RuleBook.Numbers
import AuditedRules.Proofs.Service.Requests

/-!
# Three ways to ask about a record

A service on a loaded rule book can be asked about a record in three ways: by a check of all active
rules, by the evaluation of a single rule, and by the evaluation of the predicate that the service
shows for a rule. They agree (`load_agrees`). A value that is no record is refused with the same
message in all of them, and about a record all of them give answers, in which the results for a rule
are the same JSON.

The first half is that the three handlers make the context before they run anything
(`handle_of_asks` has one form for all of them). For the second half there is only the third way to
look at, in which the predicate of a rule has become JSON and is read again under the limit. Since
the book was loaded, the predicate keeps to the limit and its constants are finite, so it is read as
itself but for the signs of zeros, and results do not show these (`evaluateAst_toJson`).
-/

namespace AuditedRules

/-! ## Records -/

/-- A value that can be the record of a request: null, or an object with no other values than
booleans, numbers and strings. -/
def Json.IsRecord (v : Json) : Prop :=
  v = .null ∨ ∃ members, v = .object members ∧
    ∀ m ∈ members, m.2.kind ∈ [Kind.boolean, .number, .string]

namespace Service

variable {value : Json}

/-- The context in a request is that of the value, unless that is null. -/
theorem contextOf_of_ne_null (h : value ≠ .null) :
    contextOf value = (Context.ofJson value).mapError fun e => unprocessable e.message := by
  cases value with
  | null => exact absurd rfl h
  | _ => rfl

/-- A context is made exactly of the records. -/
theorem exists_contextOf_iff : (∃ context, contextOf value = .ok context) ↔ value.IsRecord := by
  by_cases hnull : value = .null
  · rw [hnull]
    exact iff_of_true ⟨.empty, rfl⟩ (.inl rfl)
  · rw [contextOf_of_ne_null hnull, Json.IsRecord, or_iff_right hnull, ← Context.exists_ofJson_iff]
    simp only [mapError_eq_ok_iff]

/-- A value that is no record is refused as a request that makes no sense. -/
theorem exists_message_of_not_isRecord (h : ¬ value.IsRecord) :
    ∃ message, contextOf value = .error (unprocessable message) := by
  have hnull : value ≠ .null := fun hnull => h (.inl hnull)
  rw [← exists_contextOf_iff, contextOf_of_ne_null hnull] at h
  rw [contextOf_of_ne_null hnull]
  cases hjson : Context.ofJson value with
  | ok context => exact absurd ⟨context, by rw [hjson]; rfl⟩ h
  | error e => exact ⟨e.message, rfl⟩

/-! ## Questions -/

/-- The ways to ask about a record. -/
inductive Question
  /-- The check of all active rules. -/
  | check
  /-- The evaluation of a rule under its identifier. -/
  | rule (r : Rule)
  /-- The evaluation of the predicate that is shown under the identifier of a rule. -/
  | shown (r : Rule)

namespace Question

/-- The rule of a question, if it has one, is a rule of the book with an identifier. -/
def Of (book : RuleBook) : Question → Prop
  | check => True
  | rule r => r ∈ book.rules ∧ r.id ≠ ""
  | shown r => r ∈ book.rules ∧ r.id ≠ ""

/-- The body by which the question is asked about a record, if there is one. -/
def body (given : Option Json) : Question → Json
  | check => .object (recordMembers given)
  | rule _ => .object (recordMembers given)
  | shown r => .object (predicateMembers r.predicate.toJson given)

/-- The answer to a question, when the rules in `active` are the active ones. -/
def answer (active : List Rule) (limit : Nat) (context : Context) : Question → Json
  | check => .array (active.map fun r => (r.check context limit).toJson)
  | rule r => (r.evaluate context limit).toJson
  | shown r => (r.evaluate context limit).toJson

end Question

/-- A service shows a value as the predicate of a rule: it is in the answer to a request that calls
the route of the rule. -/
def Shows (s : Service) (r : Rule) (ast : Json) : Prop :=
  ∃ request segment rule, request.Calls (.rule segment) ∧ Route.decodeId segment = some r.id ∧
    s.handle request = ⟨200, .json rule⟩ ∧ rule.get? "ast" = some ast

/-- A request asks a question about a record. -/
def Asks (s : Service) (value : Json) (request : Request) : Question → Prop
  | .check => request.Posts .check contextDecoder value
  | .rule r => ∃ segment, Route.decodeId segment = some r.id ∧
    request.Posts (.evaluateRule segment) contextDecoder value
  | .shown r => ∃ ast, s.Shows r ast ∧ request.Posts .evaluate EvaluateBody.decoder ⟨ast, value⟩

/-- A service works with the rules of a book, in whatever order its registry holds them, and with a
limit. -/
structure Serves (s : Service) (book : RuleBook) (limit : Nat) : Prop where
  /-- The registry holds what that of the book holds. -/
  entries : s.registry.entries.Perm (Registry.ofBook book).entries
  /-- The service evaluates under the limit. -/
  limit : s.limit = limit

variable {s : Service} {book : RuleBook} {limit : Nat} {r : Rule} {request : Request}

/-! ## The rules that are served -/

/-- The registry is keyed, like that of the book. -/
theorem Serves.keyed (h : s.Serves book limit) : s.registry.Keyed :=
  (Registry.keyed_ofBook book).perm h.entries.symm

/-- The registry of a service has one entry for each rule of its book. -/
theorem Serves.entries_perm (h : s.Serves book limit)
    (hdistinct : Registry.Distinct Rule.id book.rules) :
    s.registry.entries.Perm (book.rules.map fun rule => (rule.id, rule)) :=
  h.entries.trans (Registry.entries_ofBook_perm hdistinct)

/-- A rule of the book is found under its identifier. -/
theorem Serves.get? (h : s.Serves book limit) (hdistinct : Registry.Distinct Rule.id book.rules)
    (hr : r ∈ book.rules) : s.registry.get? r.id = some r := by
  have hentry : (r.id, r) ∈ s.registry.entries :=
    (h.entries_perm hdistinct).mem_iff.2 (List.mem_map.2 ⟨r, hr, rfl⟩)
  exact h.keyed.get?_eq_some_iff.2 hentry

/-- The active rules of a book in ascending order of identifiers. -/
def activeOf (book : RuleBook) : List Rule :=
  Registry.sortById Rule.id book.activeRules

/-- A check goes through the active rules of the book in ascending order of identifiers. -/
theorem Serves.check (h : s.Serves book limit) (hdistinct : Registry.Distinct Rule.id book.rules)
    (context : Context) :
    s.registry.check context limit = (activeOf book).map fun r => r.check context limit := by
  have hrules : s.registry.rules.Perm book.rules := by
    simpa [Registry.rules, Function.comp_def] using (h.entries_perm hdistinct).map (·.2)
  have hactive : s.registry.activeRules.Perm (activeOf book) :=
    (hrules.filter _).trans (Registry.sortById_perm _ _).symm
  -- Both sides ascend strictly, so it is enough that the same outcomes occur.
  obtain ⟨hcheck, hascending⟩ := h.keyed.check_spec context limit
  have hbook : Registry.AscendingById Rule.id (activeOf book) :=
    Registry.ascendingById_sortById (List.Pairwise.filter _ hdistinct)
  exact hascending.eq_of_perm (List.pairwise_map.2 hbook) (hcheck.trans (hactive.map _))

/-- The predicate that is shown for a rule is the JSON form of its predicate. -/
theorem Serves.eq_of_shows (h : s.Serves book limit)
    (hdistinct : Registry.Distinct Rule.id book.rules) (hr : r ∈ book.rules) {ast : Json}
    (hast : s.Shows r ast) : ast = r.predicate.toJson := by
  obtain ⟨request, segment, rule, hcalls, hid, hresponse, hrule⟩ := hast
  rw [handle_rule hid (h.get? hdistinct hr) hcalls] at hresponse
  cases hresponse
  exact (Option.some.inj hrule).symm

/-- Evaluating the JSON form of a predicate that keeps to the limit and has finite constants gives
the same JSON as evaluating the predicate. -/
theorem evaluateAst_toJson {p : Predicate} (hfinite : p.ConstantsFinite) (hdepth : p.depth ≤ limit)
    (context : Context) :
    (evaluateAst p.toJson context limit).toJson = (p.evaluate context limit).toJson := by
  have hread : Predicate.ofJson limit p.toJson = .ok p.canonical :=
    Predicate.ofJson_toJson_eq_ok_iff.2 ⟨rfl, hfinite, hdepth⟩
  -- The form of a predicate is an object, and never taken for a text.
  have hobject : evaluateAst p.toJson context limit = evaluateJson p.toJson context limit := by
    cases p <;> rfl
  rw [hobject, evaluateJson, hread]
  exact (p.evaluate_canonical_showsSame (.refl context) limit).json.symm

/-! ## Asking -/

/-- A request that calls the route of a rule. -/
def showing (r : Rule) : Request :=
  ⟨"GET", String.ofList (Route.rulePath r.id []), none, ""⟩

/-- A service shows the predicate of each rule of its book that has an identifier. -/
theorem Serves.shows (h : s.Serves book limit) (hdistinct : Registry.Distinct Rule.id book.rules)
    (hr : r ∈ book.rules) (hid : r.id ≠ "") : s.Shows r r.predicate.toJson := by
  have hcalls : (showing r).Calls (.rule (Route.encodeId r.id)) := by
    refine ⟨rfl, ?_⟩
    rw [showing, String.toList_ofList, Route.pathOf_rulePath r.id rfl, Route.ofPath?_rule hid]
  exact ⟨_, _, _, hcalls, Route.decodeId_encodeId r.id,
    handle_rule (Route.decodeId_encodeId r.id) (h.get? hdistinct hr) hcalls, rfl⟩

/-- The predicates in a loaded book can be written inside of a body. Whatever the limit of the
loader is, they keep to the default one, which leaves enough of the levels that a text may have. -/
theorem writable_of_load {files : String → FileState} {path : String}
    (hload : RuleBook.load files limit path = .ok book) (hr : r ∈ book.rules) :
    r.predicate.toJson.Writable 126 := by
  obtain ⟨_, -, -, hdefault, -⟩ := RuleBook.load_eq_ok_iff.1 hload
  have hheight : r.predicate.height ≤ defaultLimit := by
    rw [← Predicate.depth_eq_height]
    exact hdefault.depth r hr
  exact Predicate.writable_toJson (RuleBook.constantsFinite_of_load hload r hr)
    (Nat.le_trans hheight (by decide))

/-- Every question about the rules of a loaded book can be asked, with a record that leaves a level
for the body, and without one. -/
theorem Serves.exists_asks {files : String → FileState} {path : String}
    (hload : RuleBook.load files limit path = .ok book) (h : s.Serves book limit)
    {given : Option Json} (hgiven : ∀ v, given = some v → v.Writable 126) {question : Question}
    (hquestion : question.Of book) :
    ∃ request : Request, request.body = (question.body given).compact ∧
      s.Asks (given.getD .null) request question := by
  obtain ⟨_, -, -, hdefault, -⟩ := RuleBook.load_eq_ok_iff.1 hload
  cases question with
  | check =>
    refine ⟨written "/api/check".toList _, rfl, posts_written ?_ rfl ?_ ?_⟩
    · decide
    · exact writable_recordMembers hgiven
    · exact contextDecoder_recordMembers hgiven
  | rule r =>
    have hpath : "/evaluate".toList.all (fun c => c != '?' && c != '#') = true := by decide
    refine ⟨written (Route.rulePath r.id "/evaluate".toList) _, rfl, _,
      Route.decodeId_encodeId r.id, posts_written ?_ rfl ?_ ?_⟩
    · rw [Route.pathOf_rulePath r.id hpath, Route.ofPath?_evaluateRule hquestion.2]
    · exact writable_recordMembers hgiven
    · exact contextDecoder_recordMembers hgiven
  | shown r =>
    have hast := writable_of_load hload hquestion.1
    refine ⟨written "/api/evaluate".toList _, rfl, _,
      h.shows hdefault.distinct hquestion.1 hquestion.2, posts_written ?_ rfl ?_ ?_⟩
    · decide
    · exact writable_predicateMembers hast hgiven
    · exact evaluateBody_predicateMembers hast hgiven

/-! ## Answering -/

/-- Every question about the rules of a loaded book is answered from the context in the request, and
refused when there is none. -/
theorem Serves.handle_of_asks {files : String → FileState} {path : String}
    (hload : RuleBook.load files limit path = .ok book) (h : s.Serves book limit)
    {question : Question} (hquestion : question.Of book) (hasks : s.Asks value request question) :
    s.handle request = onRecord value fun context =>
      question.answer (activeOf book) limit context := by
  obtain ⟨_, -, -, -, hvalid⟩ := RuleBook.load_eq_ok_iff.1 hload
  cases question with
  | check =>
    rw [handle_check hasks, h.limit]
    congr 1
    funext context
    rw [h.check hvalid.distinct, List.map_map]
    rfl
  | rule r =>
    obtain ⟨segment, hid, hposts⟩ := hasks
    rw [handle_evaluateRule hid (h.get? hvalid.distinct hquestion.1) hposts, h.limit]
    rfl
  | shown r =>
    obtain ⟨ast, hast, hposts⟩ := hasks
    rw [handle_evaluate hposts, h.limit, h.eq_of_shows hvalid.distinct hquestion.1 hast]
    congr 1
    funext context
    exact evaluateAst_toJson (RuleBook.constantsFinite_of_load hload r hquestion.1)
      (hvalid.depth r hquestion.1) context

/-- The ways to ask a service about a record agree. -/
structure Agrees (s : Service) (book : RuleBook) (limit : Nat) : Prop where
  /-- Every question can be asked, with a record that leaves a level for the body, and without
  one. -/
  asked : ∀ given : Option Json, (∀ v, given = some v → v.Writable 126) →
    ∀ question : Question, question.Of book → ∃ request : Request,
      request.body = (question.body given).compact ∧ s.Asks (given.getD .null) request question
  /-- A value that is no record is refused with one message, whatever the question is. -/
  refused : ∀ value : Json, ¬ value.IsRecord → ∃ message, ∀ question : Question,
    question.Of book → ∀ request, s.Asks value request question →
      s.handle request = ⟨422, .json (.object [("error", .string message)])⟩
  /-- A record is one context, and every question about it is answered for this context. -/
  answered : ∀ value : Json, value.IsRecord → ∃ context, contextOf value = .ok context ∧
    ∀ question : Question, question.Of book → ∀ request, s.Asks value request question →
      s.handle request = ⟨200, .json (question.answer (activeOf book) limit context)⟩
  /-- The rules in the answer to a check ascend strictly. -/
  ascending : Registry.AscendingById Rule.id (activeOf book)
  /-- The rules in the answer to a check are the active rules of the book. -/
  active : ∀ r, r ∈ activeOf book ↔ r ∈ book.rules ∧ r.active = true
  /-- The outcome for an active rule has its identifier and the result of its evaluation. -/
  outcome : ∀ r ∈ activeOf book, ∀ context,
    (r.check context limit).toJson.get? "rule_id" = some (.string r.id) ∧
      (r.check context limit).toJson.get? "result" = some (r.evaluate context limit).toJson

/-- A service on a book that was loaded with its limit agrees with itself. The numbers in the bodies
that ask are read as the nearest doubles. -/
theorem load_agrees {files : String → FileState} {path : String}
    (hload : RuleBook.load files limit path = .ok book) (h : s.Serves book limit) :
    s.Agrees book limit := by
  obtain ⟨_, -, -, -, hvalid⟩ := RuleBook.load_eq_ok_iff.1 hload
  refine ⟨fun given hgiven question hquestion => h.exists_asks hload hgiven hquestion,
    fun value hvalue => ?_, fun value hvalue => ?_,
    Registry.ascendingById_sortById (List.Pairwise.filter _ hvalid.distinct),
    fun r => ?_, fun r hr context => ⟨rfl, ?_⟩⟩
  · obtain ⟨message, hmessage⟩ := exists_message_of_not_isRecord hvalue
    refine ⟨message, fun question hquestion request hasks => ?_⟩
    rw [h.handle_of_asks hload hquestion hasks, onRecord, hmessage]
    rfl
  · obtain ⟨context, hcontext⟩ := exists_contextOf_iff.2 hvalue
    refine ⟨context, hcontext, fun question hquestion request hasks => ?_⟩
    rw [h.handle_of_asks hload hquestion hasks, onRecord, hcontext]
    rfl
  · rw [activeOf, (Registry.sortById_perm _ _).mem_iff]
    exact List.mem_filter
  · unfold RuleOutcome.toJson
    cases (r.check context limit).message <;> rfl

/-- The service on the stock book agrees with itself. Without a record its rule has no field to
look at, and still it answers with a result. -/
theorem load_agrees_stock :
    let s := Service.ofBook RuleBook.stockBook 3
    RuleBook.load (fun _ => .text RuleBook.stockJson.compact) 3 "rules.json" =
        .ok RuleBook.stockBook ∧ s.Serves RuleBook.stockBook 3 ∧
      ∀ r ∈ RuleBook.stockBook.rules, ∃ request, s.Asks .null request (.rule r) ∧
        s.handle request =
          ⟨200, .json (EvalResult.failure (.missingField "quantity")).toJson⟩ := by
  intro s
  have hload := RuleBook.load_stockJson 2
  have hserves : s.Serves RuleBook.stockBook 3 := ⟨.refl _, rfl⟩
  have hagrees := load_agrees hload hserves
  refine ⟨hload, hserves, fun r hr => ?_⟩
  obtain rfl := List.mem_singleton.1 hr
  have hquestion : (Question.rule _).Of RuleBook.stockBook := ⟨hr, by decide⟩
  obtain ⟨request, -, hasks⟩ := hagrees.asked none (fun _ h => nomatch h) _ hquestion
  obtain ⟨context, hcontext, hanswer⟩ := hagrees.answered .null (.inl rfl)
  cases hcontext
  exact ⟨request, hasks, hanswer _ hquestion request hasks⟩

end Service

end AuditedRules
