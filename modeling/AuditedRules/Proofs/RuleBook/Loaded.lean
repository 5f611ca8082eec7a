import AuditedRules.Proofs.Evaluation.Failures
import AuditedRules.Proofs.Json.RoundTrip
import AuditedRules.Proofs.OrderedMap
import AuditedRules.Proofs.Registry.OfBook
import AuditedRules.RuleBook.Loading

/-!
# What was loaded can be run

A book that is loaded from a file has been validated twice, with the default limit on levels and
with that of the loader. So its predicates keep to both limits, and the catalog allows their fields.
Nothing else is needed for the evaluations of its rules, each of which is that of a predicate of the
book under one of the two limits (`Gives.exists_rule`): none fails with depth, and none misses a
field when the context defines what the catalog lists.
-/

namespace AuditedRules.RuleBook

variable {book : RuleBook} {limit : Nat} {context : Context}

/-- Both stages of loading go on with a book only if it is valid. -/
theorem bind_validate_eq_ok_iff {step : Except RuleBookError RuleBook} {bound : Nat} :
    (step >>= fun read => read.validate bound >>= fun _ => .ok read) = .ok book ↔
      step = .ok book ∧ book.Valid bound := by
  rw [bind_eq_ok_iff, ← validate_eq_ok_iff]
  constructor
  · rintro ⟨read, hread, hrest⟩
    obtain ⟨hvalid, heq⟩ := check_eq_ok_iff.1 hrest
    cases heq
    exact ⟨hread, hvalid⟩
  · exact fun ⟨hread, hvalid⟩ => ⟨book, hread, check_eq_ok_iff.2 ⟨hvalid, rfl⟩⟩

/-- A text is a valid book when the book is decoded from it and is valid with the default limit. -/
theorem ofText_eq_ok_iff {format : Format} {text : String} :
    ofText format text = .ok book ↔
      format.decode decoder text = .ok book ∧ book.Valid defaultLimit := by
  rw [ofText, bind_validate_eq_ok_iff, mapError_eq_ok_iff]

/-- A book is loaded when there is a text from which it is decoded and it is valid, with the default
limit and with that of the loader. -/
theorem load_eq_ok_iff {files : String → FileState} {path : String} :
    load files limit path = .ok book ↔ ∃ contents, files path = .text contents ∧
      (Format.ofPath path).decode RuleBook.decoder contents = .ok book ∧
        book.Valid defaultLimit ∧ book.Valid limit := by
  unfold load
  cases files path with
  | missing => simp
  | unreadable => simp
  | text contents =>
    have hload : (ofText (.ofPath path) contents >>= fun read =>
        read.validate limit >>= fun _ => .ok read) = .ok book ↔
          (Format.ofPath path).decode RuleBook.decoder contents = .ok book ∧
            book.Valid defaultLimit ∧ book.Valid limit := by
      rw [bind_validate_eq_ok_iff, ofText_eq_ok_iff, and_assoc]
    refine hload.trans ⟨fun h => ⟨contents, rfl, h⟩, ?_⟩
    rintro ⟨_, heq, h⟩
    cases heq
    exact h

/-! ## The results of its rules -/

/-- The results that the rules of a book give for a context: each rule by itself under a limit, the
check of the book, and the check of its registry under the limit. -/
inductive Gives (book : RuleBook) (context : Context) (limit : Nat) : EvalResult → Prop
  | rule {r : Rule} (hr : r ∈ book.rules) : book.Gives context limit (r.evaluate context limit)
  | book {outcome : RuleOutcome} (houtcome : outcome ∈ book.check context) :
    book.Gives context limit outcome.result
  | registry {registry : Registry} {outcome : RuleOutcome}
    (horder : registry.entries.Perm (Registry.ofBook book).entries)
    (houtcome : outcome ∈ registry.check context limit) : book.Gives context limit outcome.result

/-- A result that a book gives is that of one of its predicates, under the limit or the default one.
-/
theorem Gives.exists_rule {result : EvalResult} (h : book.Gives context limit result)
    (hdistinct : Registry.Distinct Rule.id book.rules) :
    ∃ r ∈ book.rules, ∃ bound, (bound = limit ∨ bound = defaultLimit) ∧
      result = r.predicate.evaluate context bound := by
  cases h with
  | rule hr => exact ⟨_, hr, limit, .inl rfl, rfl⟩
  | book houtcome =>
    obtain ⟨r, hr, rfl⟩ := List.mem_map.1 houtcome
    exact ⟨r, (List.mem_filter.1 hr).1, defaultLimit, .inr rfl, rfl⟩
  | @registry registry outcome horder houtcome =>
    have houtcome := (Registry.sortById_perm _ _).mem_iff.1 houtcome
    obtain ⟨r, hr, rfl⟩ := List.mem_map.1 houtcome
    obtain ⟨entry, hentry, rfl⟩ := List.mem_map.1 (List.mem_filter.1 hr).1
    have hbook := (horder.trans (Registry.entries_ofBook_perm hdistinct)).mem_iff.1 hentry
    obtain ⟨held, hheld, rfl⟩ := List.mem_map.1 hbook
    exact ⟨held, hheld, limit, .inl rfl, rfl⟩

/-- The sample context defines what a catalog lists, if every field has an example. -/
theorem defines_sampleContext {catalog : FieldCatalog}
    (h : ∀ field ∈ catalog.fields, field.sample.isSome = true) :
    catalog.sampleContext.Defines catalog.names := by
  intro name hname
  obtain ⟨field, hfield, rfl⟩ := List.mem_map.1 hname
  obtain ⟨value, hvalue⟩ := Option.isSome_iff_exists.1 (h field hfield)
  rw [FieldCatalog.sampleContext, OrderedMap.isSome_get?_ofList]
  exact List.mem_map.2 ⟨(field.name, value),
    List.mem_filterMap.2 ⟨field, hfield, by rw [hvalue]; rfl⟩, rfl⟩

/-- The rules of a book can be run. -/
structure Runs (book : RuleBook) (limit : Nat) : Prop where
  /-- No predicate has more levels than the limit, nor than the default one. -/
  depth : ∀ r ∈ book.rules, r.predicate.depth ≤ min limit defaultLimit
  /-- No result shows a failure of depth. -/
  within : ∀ context result, book.Gives context limit result →
    ∀ bound, result ≠ .failure (.depthExceeded bound)
  /-- Where the context defines what the catalog lists, the results are values, type mismatches and
  divisions by zero, and none shows a missing field. -/
  defined : book.catalog.isEmpty = false → ∀ context : Context,
    context.Defines book.catalog.names → ∀ result, book.Gives context limit result →
      result.Settled ∧ ∀ name, result ≠ .failure (.missingField name)
  /-- The sample context defines what the catalog lists, if every field has an example. -/
  sample : (∀ field ∈ book.catalog.fields, field.sample.isSome = true) →
    book.catalog.sampleContext.Defines book.catalog.names

/-- The rules of a book that was loaded can be run. -/
theorem load_runs {files : String → FileState} {path : String}
    (h : load files limit path = .ok book) : book.Runs limit := by
  obtain ⟨_, -, -, hdefault, hlimit⟩ := load_eq_ok_iff.1 h
  have hdepth : ∀ r ∈ book.rules, ∀ bound, bound = limit ∨ bound = defaultLimit →
      r.predicate.depth ≤ bound := by
    rintro r hr bound (rfl | rfl)
    · exact hlimit.depth r hr
    · exact hdefault.depth r hr
  refine ⟨fun r hr => Nat.le_min.2 ⟨hlimit.depth r hr, hdefault.depth r hr⟩,
    fun context result hresult bound => ?_, fun hcatalog context hdefines result hresult => ?_,
    defines_sampleContext⟩
  · obtain ⟨r, hr, used, hused, rfl⟩ := hresult.exists_rule hlimit.distinct
    exact Predicate.evaluate_ne_depthExceeded (hdepth r hr used hused) context bound
  · obtain ⟨r, hr, used, hused, rfl⟩ := hresult.exists_rule hlimit.distinct
    have hsettled := FieldCatalog.settled_of_defines hcatalog (hlimit.fields r hr)
      (hdepth r hr used hused) hdefines
    exact ⟨hsettled, hsettled.ne_missingField⟩

/-- A rule book as JSON, with one field and one rule. -/
def stockJson : Json :=
  .object [("fields", .array [.object [("example", .number (.int 12)),
      ("name", .string "quantity"), ("type", .string "number")]]),
    ("rules", .array [.object [
      ("ast", .object [("name", .string "quantity"), ("type", .string "field")]),
      ("id", .string "stocked")]])]

/-- The rule book that `stockJson` stands for. -/
def stockBook : RuleBook :=
  ⟨⟨[⟨"quantity", .number, some (.number (.ofInt 12)), none⟩]⟩,
    [⟨"stocked", none, "", .rule, .warn, none, true, .field "quantity"⟩]⟩

/-- The JSON form of the stock book can be written. -/
theorem writable_stockJson : stockJson.Writable Format.json.levels := by
  refine .object (ascending_of_names (by decide)) (List.forall_mem_cons.2 ⟨?_, ?_⟩)
  · refine .array (List.forall_mem_singleton.2 (.object (ascending_of_names (by decide)) ?_))
    simp only [List.forall_mem_cons, Json.Writable.string, true_and]
    exact ⟨.number ⟨by decide, by decide⟩, fun _ h => absurd h List.not_mem_nil⟩
  · refine List.forall_mem_singleton.2 (.array (List.forall_mem_singleton.2 ?_))
    refine .object (ascending_of_names (by decide)) (List.forall_mem_cons.2 ⟨?_, ?_⟩)
    · refine .object (ascending_of_names (by decide)) ?_
      simp [Json.Writable.string]
    · simp [Json.Writable.string]

/-- The stock book is valid, with any limit that leaves a level. -/
theorem valid_stockBook (below : Nat) : stockBook.Valid (below + 1) := by
  refine ⟨by decide, List.pairwise_singleton _ _, List.forall_mem_singleton.2 ?_,
    List.forall_mem_singleton.2 ((FieldCatalog.firstUnknown?_eq_none_iff rfl).2 ?_)⟩
  · rw [Predicate.depth_eq_height]
    exact Nat.le_add_left 1 below
  · rw [Predicate.fieldNames_eq]
    decide

/-- The stock book is loaded from its text, with any limit that leaves a level. -/
theorem load_stockJson (below : Nat) :
    load (fun _ => .text stockJson.compact) (below + 1) "rules.json" = .ok stockBook := by
  have hformat : Format.ofPath "rules.json" = .json := by decide
  have hdecode : (Json.read stockJson.compact).decode .json RuleBook.decoder = .ok stockBook := by
    rw [Json.decode_compact RuleBook.decoder writable_stockJson.numbersFit]
    rfl
  refine load_eq_ok_iff.2 ⟨_, rfl, ?_, valid_stockBook 63, valid_stockBook below⟩
  rw [hformat]
  exact hdecode

/-- With a limit of three levels, the stock book is loaded and its rule can be run. -/
theorem load_runs_stock :
    load (fun _ => .text stockJson.compact) 3 "rules.json" = .ok stockBook ∧ stockBook.Runs 3 :=
  ⟨load_stockJson 2, load_runs (load_stockJson 2)⟩

end AuditedRules.RuleBook
