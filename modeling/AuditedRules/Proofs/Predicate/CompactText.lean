import AuditedRules.Proofs.Evaluation.Step
import AuditedRules.Proofs.Json.RoundTrip
import AuditedRules.Proofs.Predicate.RoundTrip

/-!
# Predicates as compact text

The JSON form of a predicate has a level for each level of the predicate, its objects have their
members in ascending order, and its numbers are integers of magnitude at most `2^53` or finite
doubles. So it can be written, and reading its compact text is reading the form itself, for
predicates of no more levels than text is read with (`ofText_compact_toJson`).
-/

namespace AuditedRules

/-- The form of a finite value can be written. -/
theorem Value.writable_toJson {value : Value} (h : value.Finite) (levels : Nat) :
    value.toJson.Writable levels := by
  cases value with
  | bool b => exact .bool b
  | string s => exact .string s
  | number x =>
    unfold toJson
    dsimp only
    cases hx : x.exactInt? with
    | some i => exact .number (Binary64.fits_of_exactInt? hx)
    | none =>
      have hfinite : x.isFinite = true := h
      dsimp only
      rw [if_pos hfinite]
      exact .number hfinite

namespace Predicate

/-- The form of a node with two operands can be written where those of the operands can. -/
theorem writable_binaryJson {kind op : String} {left right : Json} {levels : Nat}
    (hleft : left.Writable levels) (hright : right.Writable levels) :
    (binaryJson kind op left right).Writable (levels + 1) := by
  have hnames : ["left", "op", "right", "type"].Pairwise (· < ·) := by decide
  refine .object (ascending_of_names hnames) ?_
  rw [List.forall_mem_cons, List.forall_mem_cons, List.forall_mem_cons, List.forall_mem_singleton]
  exact ⟨hleft, .string op, hright, .string kind⟩

/-- The form of a predicate with finite constants can be written, on as many levels as the predicate
fits into. -/
theorem writable_toJson {p : Predicate} (h : p.ConstantsFinite) {levels : Nat}
    (hlevels : p.height ≤ levels) : p.toJson.Writable levels := by
  induction p generalizing levels with
  | const value =>
    obtain ⟨below, rfl, -⟩ := exists_levels hlevels
    have hnames : ["type", "value"].Pairwise (· < ·) := by decide
    refine .object (ascending_of_names hnames) ?_
    rw [List.forall_mem_cons, List.forall_mem_singleton]
    exact ⟨.string _, Value.writable_toJson h below⟩
  | field name =>
    obtain ⟨below, rfl, -⟩ := exists_levels hlevels
    have hnames : ["name", "type"].Pairwise (· < ·) := by decide
    refine .object (ascending_of_names hnames) ?_
    rw [List.forall_mem_cons, List.forall_mem_singleton]
    exact ⟨.string name, .string _⟩
  | arithmetic op left right ihl ihr =>
    obtain ⟨below, rfl, hfits⟩ := exists_levels hlevels
    exact writable_binaryJson (ihl h.1 (hfits left (.head _)))
      (ihr h.2 (hfits right (.tail _ (.head _))))
  | comparison op left right ihl ihr =>
    obtain ⟨below, rfl, hfits⟩ := exists_levels hlevels
    exact writable_binaryJson (ihl h.1 (hfits left (.head _)))
      (ihr h.2 (hfits right (.tail _ (.head _))))
  | logical op left right ihl ihr =>
    obtain ⟨below, rfl, hfits⟩ := exists_levels hlevels
    exact writable_binaryJson (ihl h.1 (hfits left (.head _)))
      (ihr h.2 (hfits right (.tail _ (.head _))))
  | not operand ih =>
    obtain ⟨below, rfl, hfits⟩ := exists_levels hlevels
    have hnames : ["left", "op", "type"].Pairwise (· < ·) := by decide
    refine .object (ascending_of_names hnames) ?_
    rw [List.forall_mem_cons, List.forall_mem_cons, List.forall_mem_singleton]
    exact ⟨ih h (hfits operand (.head _)), .string _, .string _⟩

/-- Reading the compact text of a predicate is reading its form. -/
theorem ofText_compact_toJson {p : Predicate} (h : p.ConstantsFinite)
    (hdepth : p.depth ≤ Format.json.levels) (limit : Nat) :
    ofText limit p.toJson.compact = ofJson limit p.toJson := by
  rw [depth_eq_height] at hdepth
  unfold ofText
  rw [Json.decode_read_compact (writable_toJson h hdepth)]

/-- A predicate without negative zeros is read from its compact text within its levels. -/
theorem ofText_compact_eq_ok {p : Predicate} {limit : Nat} (h : p.ConstantsFinite)
    (hcanonical : p.canonical = p) (hlevels : p.depth ≤ Format.json.levels)
    (hdepth : p.depth ≤ limit) : ofText limit p.toJson.compact = .ok p := by
  rw [ofText_compact_toJson h hlevels]
  exact ofJson_toJson_eq_ok_iff.2 ⟨hcanonical.symm, h, hdepth⟩

end Predicate

end AuditedRules
