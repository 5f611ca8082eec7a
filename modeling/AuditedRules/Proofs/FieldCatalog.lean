import AuditedRules.FieldCatalog
import AuditedRules.Proofs.Predicate.Fields

/-!
# What a catalog allows

A catalog without fields allows every predicate, and any other catalog those that refer to its names
only. The field that it reports of another predicate is the one of the first leaf, from left to
right, that has none of the names (`firstUnknown?_eq_some_iff`).
-/

namespace AuditedRules.FieldCatalog

variable {catalog : FieldCatalog} {p : Predicate} {name : String}

/-- A catalog contains its names. -/
theorem contains_iff_mem_names : catalog.contains name = true ↔ name ∈ catalog.names := by
  unfold contains get? names
  rw [List.find?_isSome, List.mem_map]
  simp only [beq_iff_eq]

/-- A catalog with a field allows exactly the predicates all of whose fields it contains. -/
theorem firstUnknown?_eq_none_iff (h : catalog.isEmpty = false) :
    catalog.firstUnknown? p = none ↔ ∀ name ∈ p.fieldNames, catalog.contains name = true := by
  unfold firstUnknown?
  rw [h, if_neg Bool.false_ne_true, List.find?_eq_none]
  simp

/-- A predicate is allowed when there are no fields or when all its leaves have names of fields. -/
theorem firstUnknown?_eq_none_iff_leaves :
    catalog.firstUnknown? p = none ↔
      catalog.fields = [] ∨ ∀ name ∈ p.fieldLeaves, name ∈ catalog.names := by
  cases hempty : catalog.isEmpty with
  | true =>
    have hfields : catalog.fields = [] := List.isEmpty_iff.1 hempty
    unfold firstUnknown?
    rw [hempty, if_pos rfl]
    exact iff_of_true rfl (.inl hfields)
  | false =>
    have hfields : catalog.fields ≠ [] := List.isEmpty_eq_false_iff.1 hempty
    rw [firstUnknown?_eq_none_iff hempty]
    simp only [hfields, false_or, Predicate.mem_fieldNames_iff, contains_iff_mem_names]

/-- The field that is reported is that of the first leaf whose name is none of the catalog's, which
has some. -/
theorem firstUnknown?_eq_some_iff :
    catalog.firstUnknown? p = some name ↔
      catalog.fields ≠ [] ∧ ∃ front back, p.fieldLeaves = front ++ name :: back ∧
        (∀ other ∈ front, other ∈ catalog.names) ∧ name ∉ catalog.names := by
  unfold firstUnknown?
  cases hempty : catalog.isEmpty with
  | true =>
    have hfields : catalog.fields = [] := List.isEmpty_iff.1 hempty
    simp [hfields]
  | false =>
    have hfields : catalog.fields ≠ [] := List.isEmpty_eq_false_iff.1 hempty
    rw [if_neg Bool.false_ne_true, Predicate.find?_fieldNames, List.find?_eq_some_iff_append]
    simp only [Bool.not_not, Bool.not_eq_true', ← Bool.not_eq_true, contains_iff_mem_names]
    constructor
    · rintro ⟨hname, front, back, hsplit, hfront⟩
      exact ⟨hfields, front, back, hsplit, hfront, hname⟩
    · rintro ⟨-, front, back, hsplit, hfront, hname⟩
      exact ⟨hname, front, back, hsplit, hfront⟩

end AuditedRules.FieldCatalog
