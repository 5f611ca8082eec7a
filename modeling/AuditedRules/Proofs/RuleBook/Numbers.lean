import AuditedRules.Proofs.Document.Records
import AuditedRules.Proofs.RuleBook.Loaded
import AuditedRules.Proofs.Yaml.Numbers

/-!
# The constants of a loaded rule book

The constants in the predicates of a book that was loaded are finite (`constantsFinite_of_load`), so
that each predicate is read again from its JSON form. A predicate in a book is decoded by way of a
JSON value, whose numbers are finite because those of the document fit, be it JSON or YAML.
-/

namespace AuditedRules

/-- The document of a text fits, in either format. -/
theorem Format.fits_read (format : Format) (text : String) : (format.read text).root.Fits := by
  cases format with
  | json => exact Json.fits_read text
  | yaml => exact Yaml.fits_read text

/-- What is decoded from a text is decoded from its document. -/
theorem Reading.exists_of_decode {α : Type} {reading : Reading} {format : Format}
    {decoder : Decoder α} {value : α} (h : reading.decode format decoder = .ok value) :
    decoder format format.levels reading.root = .ok value := by
  obtain ⟨read, hread, h⟩ := bind_eq_ok_iff.1 h
  split at h
  · cases h
  · cases h
    exact hread

variable {format : Format} {levels : Nat} {document : Document}

/-- A predicate that is decoded has finite constants. -/
theorem Predicate.constantsFinite_of_decoder {p : Predicate} (hfits : document.Fits)
    (h : Predicate.decoder format levels document = .ok p) : p.ConstantsFinite := by
  obtain ⟨value, hvalue, h⟩ := bind_eq_ok_iff.1 h
  have hencodes := (ofJson_eq_ok_iff.1 (mapError_eq_ok_iff.1 h)).1
  exact hencodes.constantsFinite (Decoder.numbersFinite_of_json hfits hvalue)

/-- The predicate of a rule that is decoded has finite constants. -/
theorem Rule.constantsFinite_of_decoder {r : Rule} (hfits : document.Fits)
    (h : Rule.decoder format levels document = .ok r) : r.predicate.ConstantsFinite := by
  have hinitial : (default : Rule).predicate.ConstantsFinite := trivial
  refine Decoder.holds_of_record (p := fun r => r.predicate.ConstantsFinite) ?_ hinitial hfits h
  -- The last field sets the predicate, and the others leave it alone.
  simp only [List.forall_mem_cons, List.not_mem_nil, false_imp_iff, implies_true, and_true]
  exact ⟨.of_other rfl fun _ _ h => h, .of_other rfl fun _ _ h => h, .of_other rfl fun _ _ h => h,
    .of_other rfl fun _ _ h => h, .of_other rfl fun _ _ h => h, .of_other rfl fun _ _ h => h,
    .of_other rfl fun _ _ h => h,
    .of_put rfl fun _ _ _ _ hast hread _ _ => Predicate.constantsFinite_of_decoder hast hread⟩

/-- The predicates of a book that is decoded have finite constants. -/
theorem RuleBook.constantsFinite_of_decoder {book : RuleBook} (hfits : document.Fits)
    (h : RuleBook.decoder format levels document = .ok book) :
    ∀ r ∈ book.rules, r.predicate.ConstantsFinite := by
  have hinitial : ∀ r ∈ (default : RuleBook).rules, r.predicate.ConstantsFinite :=
    fun _ hr => absurd hr List.not_mem_nil
  refine Decoder.holds_of_record (p := fun book => ∀ r ∈ book.rules, r.predicate.ConstantsFinite)
    ?_ hinitial hfits h
  simp only [List.forall_mem_cons, List.not_mem_nil, false_imp_iff, implies_true, and_true]
  refine ⟨.of_other rfl fun _ _ h => h, .of_put rfl fun _ _ _ _ hlist hread _ _ r hr => ?_⟩
  obtain ⟨_, _, hrule, hdecoded⟩ := Decoder.exists_of_list hlist hread hr
  exact Rule.constantsFinite_of_decoder hrule hdecoded

/-- The predicates of a book that was loaded have finite constants. -/
theorem RuleBook.constantsFinite_of_load {files : String → FileState} {limit : Nat} {path : String}
    {book : RuleBook} (h : load files limit path = .ok book) :
    ∀ r ∈ book.rules, r.predicate.ConstantsFinite := by
  obtain ⟨contents, -, hdecode, -, -⟩ := load_eq_ok_iff.1 h
  have hfits := (Format.ofPath path).fits_read contents
  exact constantsFinite_of_decoder hfits (Reading.exists_of_decode hdecode)

end AuditedRules
