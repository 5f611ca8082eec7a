import AuditedRules.Proofs.Document.ReadBack
import AuditedRules.Proofs.Predicate.CompactText

/-!
# Runtime values in records

A finite value that was written into a record is read back with its zero taken as positive
(`Value.decoder_readsBack`): a whole number within `2^53` is written as an integer, which stands for
the double again, and any other number as the double that it is.
-/

namespace AuditedRules.Value

/-- The numbers in the form of a finite value fit. -/
theorem numbersFit_toJson {value : Value} (h : value.Finite) : value.toJson.NumbersFit :=
  (writable_toJson h 0).numbersFit

/-- The numbers in the form of a finite value that may not be there fit. -/
theorem numbersFit_ofOption_toJson {value : Option Value}
    (h : ∀ found, value = some found → found.Finite) :
    (Json.ofOption (value.map toJson)).NumbersFit := by
  cases value with
  | none => exact .null
  | some found => exact numbersFit_toJson (h found rfl)

/-- The form of a value takes no level. -/
theorem nesting_toJson (value : Value) : value.toJson.nesting = 0 := by
  cases value with
  | bool b => rfl
  | string s => rfl
  | number x =>
    unfold toJson
    dsimp only
    cases x.exactInt? with
    | some i => rfl
    | none =>
      dsimp only
      split <;> rfl

/-- The form of a value that may not be there opens no level. -/
theorem nesting_ofOption_toJson (value : Option Value) :
    (Json.ofOption (value.map toJson)).nesting = 0 := by
  cases value with
  | none => rfl
  | some found => exact found.nesting_toJson

/-- The form of a finite value is not null. -/
theorem toJson_ne_null {value : Value} (h : value.Finite) : value.toJson ≠ .null := by
  intro hnull
  have hspells := spellsConstant_toJson h
  rw [hnull] at hspells
  cases hspells

/-- A finite value is read back with its zero positive. -/
theorem decoder_readsBack {value : Value} (h : value.Finite) (levels : Nat) :
    Decoder.ReadsBack decoder levels value.toJson value.canonical := by
  intro v hv _
  have hspells := spellsConstant_toJson h
  generalize value.toJson = written, value.canonical = read at hv hspells ⊢
  -- The form is a scalar, which has no members that could be in another order.
  cases hspells with
  | bool b =>
    cases hv
    rfl
  | string s =>
    cases hv
    rfl
  | number n =>
    cases hv
    cases n <;> rfl

/-- A finite value that may not be there is read back with its zero positive. -/
theorem optional_decoder_readsBack {value : Option Value}
    (h : ∀ found, value = some found → found.Finite) (levels : Nat) :
    Decoder.ReadsBack (.optional decoder) levels (.ofOption (value.map toJson))
      (value.map canonical) := by
  cases value with
  | none => exact Decoder.optional_readsBack_null decoder levels
  | some found =>
    have hfinite := h found rfl
    exact Decoder.optional_readsBack (toJson_ne_null hfinite) (decoder_readsBack hfinite levels)

end AuditedRules.Value
