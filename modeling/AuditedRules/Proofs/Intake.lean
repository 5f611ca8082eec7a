import AuditedRules.Proofs.Evaluation.Failures
import AuditedRules.Proofs.Predicate.Rendering
import AuditedRules.Proofs.RuleBook.Validation

/-!
# What was taken in from a compiler

The reply of a compiler is any text. If it is accepted under a limit on levels, its predicate was
read under this limit from a JSON value, whose numbers are finite because it was read from text
(`exists_ofJson_of_ofReply`). Its fields are in the catalog when they have been checked.

These are the conditions of everything that is done with the predicate later: a rule book with a
single rule checks the same limit and the same fields, an evaluation fails only where one of them
fails, and the JSON form of the predicate is read within its depth, as the predicate with its zeros
positive, which is shown by the same text.
-/

namespace AuditedRules.CompiledPredicate

variable {compiled : CompiledPredicate} {catalog : FieldCatalog} {limit : Nat}

/-- What is read from a reply is read from a JSON value with finite numbers. -/
theorem exists_ofJson_of_ofReply {reply : String} (h : ofReply limit reply = .ok compiled) :
    ∃ ast : Json, ast.NumbersFinite ∧ Predicate.ofJson limit ast = .ok compiled.predicate := by
  unfold ofReply at h
  dsimp only at h
  split at h
  · rename_i value hvalue
    have hfinite := Json.numbersFinite_of_read hvalue
    unfold ofJson at h
    split at h
    · cases h
    · split at h
      · cases h
      · rename_i ast hast
        split at h
        · cases h
        · rename_i predicate hread
          cases h
          exact ⟨ast, hfinite.of_get? hast, hread⟩
  · cases h

/-- A predicate that was taken in can be stored, run and sent in again. -/
structure Safe (compiled : CompiledPredicate) (catalog : FieldCatalog) (limit : Nat) : Prop where
  /-- A rule book with the catalog and a single rule with the predicate is valid. -/
  stored : ∀ rule : Rule, rule.predicate = compiled.predicate →
    (RuleBook.mk catalog [rule]).validate limit = .ok ()
  /-- No evaluation fails with depth. -/
  within : ∀ context bound,
    compiled.predicate.evaluate context limit ≠ .failure (.depthExceeded bound)
  /-- Where the context defines what the catalog lists, no field is missing. -/
  defined : catalog.isEmpty = false → ∀ context : Context, context.Defines catalog.names →
    ∀ name, compiled.predicate.evaluate context limit ≠ .failure (.missingField name)
  /-- The JSON form is accepted again, as a tree that is equal up to the sign of zero and is shown
  by the same text. -/
  again : ∃ read, Predicate.ofJson limit compiled.predicate.toJson = .ok read ∧
    read.strictEq compiled.predicate = true ∧ read.render = compiled.predicate.render

/-- A predicate from a reply that was accepted, with its fields checked against a catalog whose
examples have the types of their fields, can be stored, run and sent in again under the same
limit. -/
theorem safe_of_ofReply {reply : String} (hreply : ofReply limit reply = .ok compiled)
    (hchecked : compiled.checkFields catalog = .ok ())
    (hexamples : ∀ field ∈ catalog.fields, ∀ value, field.sample = some value →
      value.type = field.type) : compiled.Safe catalog limit := by
  obtain ⟨ast, hnumbers, hread⟩ := exists_ofJson_of_ofReply hreply
  obtain ⟨hencodes, hdepth⟩ := Predicate.ofJson_eq_ok_iff.1 hread
  have hfinite : compiled.predicate.ConstantsFinite := hencodes.constantsFinite hnumbers
  have hfields := checkFields_eq_ok_iff.1 hchecked
  refine ⟨fun rule hrule => ?_, fun context bound => ?_, fun hcatalog context hdefines name => ?_,
    compiled.predicate.canonical, ?_, ?_, ?_⟩
  · refine RuleBook.validate_eq_ok_iff.2 ⟨hexamples, List.pairwise_singleton _ rule, ?_, ?_⟩
    · exact List.forall_mem_singleton.2 (hrule ▸ hdepth)
    · exact List.forall_mem_singleton.2 (hrule ▸ hfields)
  · exact Predicate.evaluate_ne_depthExceeded hdepth context bound
  · exact (FieldCatalog.settled_of_defines hcatalog hfields hdepth hdefines).ne_missingField name
  · exact Predicate.ofJson_toJson_eq_ok_iff.2 ⟨rfl, hfinite, hdepth⟩
  · exact Predicate.strictEq_canonical hfinite
  · exact compiled.predicate.render_canonical

/-- The reply of a compiler between code fences, with a predicate for a stocked item. -/
def stockedReply : Json :=
  .object [("ast", .object [("name", .string "quantity"), ("type", .string "field")]),
    ("summary", .string "There is some left.")]

/-- The reply about a quantity is accepted within one level, and its predicate can be stored, run
and sent in again with a catalog that lists its field. -/
theorem safe_of_ofReply_stocked :
    let reply : String := "```json\n" ++ stockedReply.compact ++ "\n```"
    let compiled : CompiledPredicate := ⟨.field "quantity", "There is some left."⟩
    let catalog : FieldCatalog := ⟨[⟨"quantity", .number, some (.number (.ofInt 12)), none⟩]⟩
    ofReply 1 reply = .ok compiled ∧ compiled.checkFields catalog = .ok () ∧
      compiled.Safe catalog 1 := by
  intro reply compiled catalog
  have hwritable : stockedReply.Writable Format.json.levels := by
    refine .object (ascending_of_names (by decide)) (List.forall_mem_cons.2 ⟨?_, ?_⟩)
    · refine .object (ascending_of_names (by decide)) ?_
      simp [Json.Writable.string]
    · simp [Json.Writable.string]
  have hstrip : String.ofList (stripFences reply.toList) = stockedReply.compact := by
    have hchars : stripFences ("```json\n".toList ++ stockedReply.write [] ++ "\n```".toList) =
        stockedReply.write [] := by decide
    have hcompact : stockedReply.compact.toList = stockedReply.write [] := String.toList_ofList
    rw [String.toList_append, String.toList_append, hcompact, hchars]
    rfl
  have hreply : ofReply 1 reply = .ok compiled := by
    unfold ofReply
    dsimp only
    rw [hstrip, Json.decode_read_compact hwritable]
    rfl
  have hchecked : compiled.checkFields catalog = .ok () := by
    refine checkFields_eq_ok_iff.2 ((FieldCatalog.firstUnknown?_eq_none_iff rfl).2 ?_)
    rw [Predicate.fieldNames_eq]
    decide
  exact ⟨hreply, hchecked, safe_of_ofReply hreply hchecked (by decide)⟩

end AuditedRules.CompiledPredicate
