import AuditedRules.Proofs.FieldCatalog
import AuditedRules.Proofs.Predicate.Depth
import AuditedRules.Proofs.RuleBook.Validation

/-!
# The first offender in a rule book

What a book has to be is said here once more in its own words, by the height of the trees and the
names of their leaves, and then what is wrong with a book that is not so. A rule offends after the
rules before it in one of three ways, each of which leaves out the ones that are reported before it
(`Rule.Offends`). The first offender of a book is a mistyped example, or a rule that offends where
all examples and all earlier rules are in order (`FirstOffender`).

Validation reports just that. The rules are checked with the identifiers of the earlier ones at
hand, so the invariant of the recursion is about identifiers that were seen before any list of rules
(`validateRules_eq_error_iff`); at the start there are none.
-/

namespace AuditedRules

/-- An example, if there is one, has the type of its field. -/
def CatalogField.WellTyped (field : CatalogField) : Prop :=
  ∀ value, field.sample = some value → value.type = field.type

namespace Rule

/-- A rule is in order after some earlier rules. -/
structure InOrder (catalog : FieldCatalog) (limit : Nat) (earlier : List Rule) (r : Rule) :
    Prop where
  /-- No earlier rule has the identifier of the rule. -/
  unused : ∀ s ∈ earlier, s.id ≠ r.id
  /-- The predicate of the rule has no more levels than the limit. -/
  levels : r.predicate.height ≤ limit
  /-- The catalog is empty or lists the names of all leaves. -/
  listed : catalog.fields = [] ∨ ∀ name ∈ r.predicate.fieldLeaves, name ∈ catalog.names

/-- A rule offends after some earlier rules, and what is reported of it. -/
inductive Offends (catalog : FieldCatalog) (limit : Nat) (earlier : List Rule) (r : Rule) :
    RuleBookError → Prop
  /-- An earlier rule has the identifier of the rule. -/
  | duplicateId {s : Rule} (hs : s ∈ earlier) (same : s.id = r.id) :
    Offends catalog limit earlier r (.duplicateId r.id)
  /-- The identifier of the rule is new, and its predicate has more levels than the limit. -/
  | tooDeep (unused : ∀ s ∈ earlier, s.id ≠ r.id) (deep : limit < r.predicate.height) :
    Offends catalog limit earlier r (.tooDeep r.id limit)
  /-- All else is in order, and the catalog lists some names, but not that of a leaf. It is the
  first such leaf from left to right. -/
  | unknownField {front back : List String} {name : String} (unused : ∀ s ∈ earlier, s.id ≠ r.id)
    (levels : r.predicate.height ≤ limit) (restricted : catalog.fields ≠ [])
    (leaves : r.predicate.fieldLeaves = front ++ name :: back)
    (listed : ∀ other ∈ front, other ∈ catalog.names) (unlisted : name ∉ catalog.names) :
    Offends catalog limit earlier r (.unknownField r.id name)

end Rule

namespace RuleBook

/-- The first offender of a book, and what is reported of it. -/
inductive FirstOffender (book : RuleBook) (limit : Nat) : RuleBookError → Prop
  /-- A field has an example of another type, and no field before it has. -/
  | field {front back : List CatalogField} {field : CatalogField} {value : Value}
    (fields : book.catalog.fields = front ++ field :: back)
    (before : ∀ other ∈ front, other.WellTyped) (sample : field.sample = some value)
    (mistyped : value.type ≠ field.type) :
    FirstOffender book limit (.exampleType field.name field.type value.type)
  /-- No field has an example of another type, and a rule offends, but no rule before it. -/
  | rule {earlier later : List Rule} {r : Rule} {e : RuleBookError}
    (examples : ∀ field ∈ book.catalog.fields, field.WellTyped)
    (rules : book.rules = earlier ++ r :: later)
    (before : ∀ front s back, earlier = front ++ s :: back →
      s.InOrder book.catalog limit front)
    (offends : r.Offends book.catalog limit earlier e) : FirstOffender book limit e

/-! ## Places in a list -/

/-- An item of a list with a first item is that one, or it stands after it. -/
theorem exists_place_cons {α : Type} {first : α} {rest : List α} {P : List α → α → Prop} :
    (∃ front a back, first :: rest = front ++ a :: back ∧ P front a) ↔
      P [] first ∨ ∃ front a back, rest = front ++ a :: back ∧ P (first :: front) a := by
  constructor
  · rintro ⟨front, a, back, hsplit, hP⟩
    rcases List.cons_eq_append_iff.1 hsplit with ⟨rfl, hfirst⟩ | ⟨front', rfl, hrest⟩
    · obtain ⟨rfl, rfl⟩ := List.cons.inj hfirst
      exact .inl hP
    · exact .inr ⟨front', a, back, hrest, hP⟩
  · rintro (hP | ⟨front, a, back, rfl, hP⟩)
    · exact ⟨[], first, rest, rfl, hP⟩
    · exact ⟨first :: front, a, back, rfl, hP⟩

/-- Something is so at every place of a list with a first item when it is so there and at every
place after it. -/
theorem forall_place_cons {α : Type} {first : α} {rest : List α} {P : List α → α → Prop} :
    (∀ front a back, first :: rest = front ++ a :: back → P front a) ↔
      P [] first ∧ ∀ front a back, rest = front ++ a :: back → P (first :: front) a := by
  constructor
  · intro h
    exact ⟨h [] first rest rfl, fun front a back hrest => h (first :: front) a back (hrest ▸ rfl)⟩
  · rintro ⟨hfirst, hrest⟩ front a back hsplit
    rcases List.cons_eq_append_iff.1 hsplit with ⟨rfl, hhead⟩ | ⟨front', rfl, htail⟩
    · obtain ⟨rfl, rfl⟩ := List.cons.inj hhead
      exact hfirst
    · exact hrest front' a back htail

/-! ## Examples -/

/-- The first mistyped example is reported. -/
theorem validateExamples_eq_error_iff {fields : List CatalogField} {e : RuleBookError} :
    validateExamples fields = .error e ↔
      ∃ front field back, fields = front ++ field :: back ∧
        (∀ other ∈ front, other.WellTyped) ∧ ∃ value, field.sample = some value ∧
          value.type ≠ field.type ∧ .exampleType field.name field.type value.type = e := by
  induction fields with
  | nil => simp [validateExamples]
  | cons first rest ih =>
    simp only [exists_place_cons, List.forall_mem_cons, validateExamples, CatalogField.WellTyped]
    simp only [CatalogField.WellTyped] at ih
    cases hsample : first.sample with
    | none => simp [ih]
    | some value =>
      by_cases htype : value.type = first.type
      · simp [ih, htype]
      · simp [htype]

/-! ## Rules -/

/-- The identifiers of some rules, the last one first, as they are put together on the way. -/
def seenIds (earlier : List Rule) : List String :=
  (earlier.map (·.id)).reverse

/-- The identifiers seen are those of the earlier rules. -/
theorem mem_seenIds {earlier : List Rule} {id : String} :
    id ∈ seenIds earlier ↔ ∃ s ∈ earlier, s.id = id := by
  rw [seenIds, List.mem_reverse, List.mem_map]

/-- The identifier of a further rule comes in front of those seen before. -/
theorem seenIds_concat (earlier : List Rule) (r : Rule) :
    seenIds (earlier ++ [r]) = r.id :: seenIds earlier := by
  rw [seenIds, List.map_append, List.reverse_append]
  rfl

/-- A rule is accepted when it is in order after the rules whose identifiers were seen. -/
theorem validateRule_eq_ok_iff_inOrder {catalog : FieldCatalog} {limit : Nat} {earlier : List Rule}
    {r : Rule} :
    validateRule catalog limit (seenIds earlier) r = .ok () ↔ r.InOrder catalog limit earlier := by
  rw [validateRule_eq_ok_iff, FieldCatalog.firstUnknown?_eq_none_iff_leaves,
    Predicate.depth_eq_height, mem_seenIds]
  constructor
  · rintro ⟨hseen, hlevels, hlisted⟩
    exact ⟨fun s hs hsame => hseen ⟨s, hs, hsame⟩, hlevels, hlisted⟩
  · rintro ⟨hunused, hlevels, hlisted⟩
    exact ⟨fun ⟨s, hs, hsame⟩ => hunused s hs hsame, hlevels, hlisted⟩

/-- A rule is refused with what is reported of it after the rules whose identifiers were seen. -/
theorem validateRule_eq_error_iff {catalog : FieldCatalog} {limit : Nat} {earlier : List Rule}
    {r : Rule} {e : RuleBookError} :
    validateRule catalog limit (seenIds earlier) r = .error e ↔
      r.Offends catalog limit earlier e := by
  have hseen : (seenIds earlier).contains r.id = true ↔ ∃ s ∈ earlier, s.id = r.id :=
    List.contains_iff_mem.trans mem_seenIds
  unfold validateRule
  rw [Predicate.depth_eq_height]
  -- Each check leaves one way to offend, as the other ways ask for the opposite of what was found.
  split
  · next hused =>
    obtain ⟨s, hs, hsame⟩ := hseen.1 hused
    constructor
    · rintro ⟨⟩
      exact .duplicateId hs hsame
    · rintro (_ | ⟨hunused, -⟩ | ⟨hunused, -⟩)
      · rfl
      · exact absurd hsame (hunused s hs)
      · exact absurd hsame (hunused s hs)
  next hused =>
  have hunused : ∀ s ∈ earlier, s.id ≠ r.id := fun s hs hsame => hused (hseen.2 ⟨s, hs, hsame⟩)
  split
  · next hdeep =>
    constructor
    · rintro ⟨⟩
      exact .tooDeep hunused hdeep
    · rintro (⟨hs, hsame⟩ | - | ⟨-, hlevels, -⟩)
      · exact absurd hsame (hunused _ hs)
      · rfl
      · exact absurd hdeep (Nat.not_lt.2 hlevels)
  next hdeep =>
  have hlevels : r.predicate.height ≤ limit := Nat.not_lt.1 hdeep
  constructor
  · intro h
    split at h
    · next name hname =>
      obtain ⟨hfields, front, back, hleaves, hfront, hnone⟩ :=
        FieldCatalog.firstUnknown?_eq_some_iff.1 hname
      cases h
      exact .unknownField hunused hlevels hfields hleaves hfront hnone
    · cases h
  · rintro (⟨hs, hsame⟩ | ⟨-, hdeep'⟩ | ⟨-, -, hfields, hleaves, hfront, hnone⟩)
    · exact absurd hsame (hunused _ hs)
    · exact absurd hdeep' hdeep
    · rw [FieldCatalog.firstUnknown?_eq_some_iff.2 ⟨hfields, _, _, hleaves, hfront, hnone⟩]

/-- Of several rules the first one that is refused is reported. -/
theorem validateRules_eq_error_iff {catalog : FieldCatalog} {limit : Nat} {seen : List Rule}
    {rules : List Rule} {e : RuleBookError} :
    validateRules catalog limit (seenIds seen) rules = .error e ↔
      ∃ earlier r later, rules = earlier ++ r :: later ∧
        (∀ front s back, earlier = front ++ s :: back →
          s.InOrder catalog limit (seen ++ front)) ∧
        r.Offends catalog limit (seen ++ earlier) e := by
  induction rules generalizing seen with
  | nil => simp [validateRules]
  | cons first rest ih =>
    have hafter (front : List Rule) : seen ++ [first] ++ front = seen ++ first :: front :=
      List.append_assoc ..
    -- What is said of the rest after the first rule is what the whole list says after it.
    rw [validateRules, bind_eq_error_iff, validateRule_eq_error_iff, ← seenIds_concat, ih]
    simp only [exists_place_cons, forall_place_cons, hafter, List.append_nil]
    constructor
    · rintro (hoffends | ⟨_, hfirst, earlier, r, later, hrest, hbefore, hoffends⟩)
      · exact .inl ⟨by simp, hoffends⟩
      · exact .inr ⟨earlier, r, later, hrest,
          ⟨validateRule_eq_ok_iff_inOrder.1 hfirst, hbefore⟩, hoffends⟩
    · rintro (⟨-, hoffends⟩ | ⟨earlier, r, later, hrest, ⟨hfirst, hbefore⟩, hoffends⟩)
      · exact .inl hoffends
      · exact .inr ⟨(), validateRule_eq_ok_iff_inOrder.2 hfirst, earlier, r, later, hrest, hbefore,
          hoffends⟩

/-! ## Whole books -/

/-- A book is valid when each part of it keeps to its rule, said by heights and by names. -/
theorem valid_iff {book : RuleBook} {limit : Nat} :
    book.Valid limit ↔
      (∀ field ∈ book.catalog.fields, field.WellTyped) ∧ (book.rules.map (·.id)).Nodup ∧
        (∀ r ∈ book.rules, r.predicate.height ≤ limit) ∧
          (book.catalog.fields = [] ∨
            ∀ r ∈ book.rules, ∀ name ∈ r.predicate.fieldLeaves, name ∈ book.catalog.names) := by
  have hlisted : (∀ r ∈ book.rules, book.catalog.firstUnknown? r.predicate = none) ↔
      book.catalog.fields = [] ∨
        ∀ r ∈ book.rules, ∀ name ∈ r.predicate.fieldLeaves, name ∈ book.catalog.names := by
    simp only [FieldCatalog.firstUnknown?_eq_none_iff_leaves]
    by_cases hempty : book.catalog.fields = []
    · simp only [hempty, true_or, implies_true]
    · simp only [hempty, false_or]
  constructor
  · rintro ⟨hexamples, hdistinct, hdepth, hfields⟩
    exact ⟨hexamples, List.pairwise_map.2 hdistinct,
      fun r hr => Predicate.depth_eq_height r.predicate ▸ hdepth r hr, hlisted.1 hfields⟩
  · rintro ⟨hexamples, hdistinct, hlevels, hfields⟩
    exact ⟨hexamples, List.pairwise_map.1 hdistinct,
      fun r hr => (Predicate.depth_eq_height r.predicate).symm ▸ hlevels r hr, hlisted.2 hfields⟩

/-- What is reported of a book is its first offender. -/
theorem validate_eq_error_iff {book : RuleBook} {limit : Nat} {e : RuleBookError} :
    book.validate limit = .error e ↔ book.FirstOffender limit e := by
  -- Before the first rule no identifier has been seen.
  have hrules : validateRules book.catalog limit (seenIds []) book.rules = .error e ↔ _ :=
    validateRules_eq_error_iff
  have hids : seenIds [] = [] := rfl
  simp only [List.nil_append, hids] at hrules
  rw [validate, bind_eq_error_iff, validateExamples_eq_error_iff, hrules]
  constructor
  · rintro (⟨front, field, back, hfields, hbefore, value, hsample, htype, rfl⟩ |
      ⟨_, hexamples, earlier, r, later, hsplit, hbefore, hoffends⟩)
    · exact .field hfields hbefore hsample htype
    · exact .rule (validateExamples_eq_ok_iff.1 hexamples) hsplit hbefore hoffends
  · rintro (⟨hfields, hbefore, hsample, htype⟩ | ⟨hexamples, hsplit, hbefore, hoffends⟩)
    · exact .inl ⟨_, _, _, hfields, hbefore, _, hsample, htype, rfl⟩
    · exact .inr ⟨(), validateExamples_eq_ok_iff.2 hexamples, _, _, _, hsplit, hbefore, hoffends⟩

/-- **Validation is exact.** A book is accepted when its examples have the types of their fields,
its identifiers are distinct, its predicates have no more levels than the limit and its catalog is
empty or lists all their fields. Any other book is refused, with what is reported of its first
offender and of nothing else. -/
theorem validate_exact (book : RuleBook) (limit : Nat) :
    (book.validate limit = .ok () ↔
      (∀ field ∈ book.catalog.fields, field.WellTyped) ∧ (book.rules.map (·.id)).Nodup ∧
        (∀ r ∈ book.rules, r.predicate.height ≤ limit) ∧
          (book.catalog.fields = [] ∨
            ∀ r ∈ book.rules, ∀ name ∈ r.predicate.fieldLeaves, name ∈ book.catalog.names)) ∧
      ∀ e, book.validate limit = .error e ↔ book.FirstOffender limit e :=
  ⟨validate_eq_ok_iff.trans valid_iff, fun _ => validate_eq_error_iff⟩

/-- Of a book with a mistyped example, and rules that repeat an identifier, have too many levels and
refer to a field without an entry, the example is reported. -/
example :
    let fields : List CatalogField :=
      [⟨"total", .number, some (.number (.ofInt 5)), none⟩,
        ⟨"paid", .boolean, some (.string "yes"), none⟩]
    let due : Rule := { (default : Rule) with id := "due", predicate := .not (.field "date") }
    RuleBook.validate ⟨⟨fields⟩, [due, due]⟩ 1 =
      .error (.exampleType "paid" .boolean .string) :=
  rfl

end RuleBook

end AuditedRules
