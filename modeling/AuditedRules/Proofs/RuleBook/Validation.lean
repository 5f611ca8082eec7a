import AuditedRules.Proofs.Steps
import AuditedRules.RuleBook

/-!
# What a valid rule book is

`RuleBook.Valid` says what validation asks for, without an order of checks: every example has the
type of its field, no two rules share an identifier, and every predicate keeps to the limit on
levels and to the catalog. Validation succeeds exactly on these books (`validate_eq_ok_iff`).

The rules are checked one after the other, each against the identifiers before it. So the invariant
of that recursion is about any list of identifiers seen so far (`validateRules_eq_ok_iff`).
-/

namespace AuditedRules.RuleBook

/-- A valid book. -/
structure Valid (book : RuleBook) (limit : Nat) : Prop where
  /-- Every example has the type of its field. -/
  examples : ∀ field ∈ book.catalog.fields, ∀ value, field.sample = some value →
    value.type = field.type
  /-- The rules have different identifiers. -/
  distinct : book.rules.Pairwise fun r s => r.id ≠ s.id
  /-- No predicate has more levels than the limit. -/
  depth : ∀ r ∈ book.rules, r.predicate.depth ≤ limit
  /-- The catalog allows all fields of the predicates. -/
  fields : ∀ r ∈ book.rules, book.catalog.firstUnknown? r.predicate = none

/-- The examples are accepted when each has the type of its field. -/
theorem validateExamples_eq_ok_iff {fields : List CatalogField} :
    validateExamples fields = .ok () ↔
      ∀ field ∈ fields, ∀ value, field.sample = some value → value.type = field.type := by
  induction fields with
  | nil => simp [validateExamples]
  | cons field rest ih =>
    rw [List.forall_mem_cons, ← ih, validateExamples]
    cases field.sample with
    | none => simp
    | some value =>
      by_cases htype : value.type = field.type
      · simp [htype]
      · simp [htype]

/-- A rule is accepted when its identifier is new and its predicate keeps to the limit and to the
catalog. -/
theorem validateRule_eq_ok_iff {catalog : FieldCatalog} {limit : Nat} {seen : List String}
    {r : Rule} :
    validateRule catalog limit seen r = .ok () ↔
      r.id ∉ seen ∧ r.predicate.depth ≤ limit ∧ catalog.firstUnknown? r.predicate = none := by
  unfold validateRule
  by_cases hseen : r.id ∈ seen
  · simp [hseen]
  by_cases hdepth : r.predicate.depth ≤ limit
  · rw [if_neg (by simpa using hseen), if_neg (Nat.not_lt.2 hdepth)]
    cases catalog.firstUnknown? r.predicate <;> simp [hseen, hdepth]
  · simp [hseen, hdepth, Nat.not_le.1 hdepth]

/-- Rules are accepted after others when their identifiers differ from each other and from those
seen before, and every predicate keeps to the limit and to the catalog. -/
theorem validateRules_eq_ok_iff {catalog : FieldCatalog} {limit : Nat} {seen : List String}
    {rules : List Rule} :
    validateRules catalog limit seen rules = .ok () ↔
      (∀ r ∈ rules, r.id ∉ seen) ∧ rules.Pairwise (fun r s => r.id ≠ s.id) ∧
        (∀ r ∈ rules, r.predicate.depth ≤ limit) ∧
          ∀ r ∈ rules, catalog.firstUnknown? r.predicate = none := by
  induction rules generalizing seen with
  | nil => simp [validateRules]
  | cons first rest ih =>
    rw [validateRules, check_eq_ok_iff, validateRule_eq_ok_iff, ih]
    simp only [List.forall_mem_cons, List.pairwise_cons]
    -- That the later identifiers are new now also says that they differ from the first one.
    constructor
    · rintro ⟨⟨hnew, hlevels, hknown⟩, hrest, hdistinct, hdepth, hfields⟩
      have hfirst : ∀ r ∈ rest, first.id ≠ r.id := fun r hr heq =>
        hrest r hr (heq ▸ List.mem_cons_self)
      have hseen : ∀ r ∈ rest, r.id ∉ seen := fun r hr hmem =>
        hrest r hr (List.mem_cons_of_mem _ hmem)
      exact ⟨⟨hnew, hseen⟩, ⟨hfirst, hdistinct⟩, ⟨hlevels, hdepth⟩, hknown, hfields⟩
    · rintro ⟨⟨hnew, hseen⟩, ⟨hfirst, hdistinct⟩, ⟨hlevels, hdepth⟩, hknown, hfields⟩
      have hrest : ∀ r ∈ rest, r.id ∉ first.id :: seen := fun r hr hmem =>
        (List.mem_cons.1 hmem).elim (hfirst r hr).symm (hseen r hr)
      exact ⟨⟨hnew, hlevels, hknown⟩, hrest, hdistinct, hdepth, hfields⟩

/-- Validation succeeds exactly on the valid books. -/
theorem validate_eq_ok_iff {book : RuleBook} {limit : Nat} :
    book.validate limit = .ok () ↔ book.Valid limit := by
  rw [validate, check_eq_ok_iff, validateExamples_eq_ok_iff, validateRules_eq_ok_iff]
  constructor
  · rintro ⟨hexamples, -, hdistinct, hdepth, hfields⟩
    exact ⟨hexamples, hdistinct, hdepth, hfields⟩
  · rintro ⟨hexamples, hdistinct, hdepth, hfields⟩
    exact ⟨hexamples, fun _ _ => List.not_mem_nil, hdistinct, hdepth, hfields⟩

end AuditedRules.RuleBook
