import AuditedRules.Proofs.Evaluation.Records
import AuditedRules.Proofs.Predicate.Fields
import AuditedRules.Proofs.RuleBook.Loaded

/-!
# Rule books as JSON text

A valid rule book whose numbers are finite is read from its own JSON text, as the same book with its
zeros taken as positive (`ofText_toJson`). Each part of the book is read back from its form: the
fields of the catalog, the rules with their predicates, and the lists that hold them. A predicate
needs as many levels as it has itself, so the lemmas ask for no fewer than the default limit, and
what stands around a predicate for one more each.

What is read is valid because validation does not see the signs of zeros: it asks for the types of
examples, the identifiers of rules, and the depth and the fields of predicates.
-/

namespace AuditedRules

open Decoder (ReadsBack)

/-! ## The sign of zero in rule books -/

/-- The field with a zero in its example taken as positive. -/
def CatalogField.canonical (field : CatalogField) : CatalogField :=
  { field with sample := field.sample.map Value.canonical }

/-- The catalog with the zeros in its examples taken as positive. -/
def FieldCatalog.canonical (catalog : FieldCatalog) : FieldCatalog :=
  ⟨catalog.fields.map CatalogField.canonical⟩

/-- The rule with the zeros in its predicate taken as positive. -/
def Rule.canonical (r : Rule) : Rule :=
  { r with predicate := r.predicate.canonical }

/-- The book with the zeros in it taken as positive. -/
def RuleBook.canonical (book : RuleBook) : RuleBook :=
  ⟨book.catalog.canonical, book.rules.map Rule.canonical⟩

/-- A number in an example is finite. -/
def CatalogField.NumbersFinite (field : CatalogField) : Prop :=
  ∀ value, field.sample = some value → value.Finite

/-- The numbers of a book are finite. -/
structure RuleBook.NumbersFinite (book : RuleBook) : Prop where
  /-- The numbers in the examples of the catalog are finite. -/
  examples : ∀ field ∈ book.catalog.fields, field.NumbersFinite
  /-- The numbers in the predicates are finite. -/
  constants : ∀ r ∈ book.rules, r.predicate.ConstantsFinite

/-! ## Reading the parts of a book -/

variable {levels : Nat}

/-- The type of a field is read back from its name. -/
theorem CatalogField.typeDecoder_readsBack (type : ValueType) (levels : Nat) :
    ReadsBack typeDecoder levels (.string type.name) type :=
  Decoder.choice_readsBack (by cases type <;> rfl) levels

/-- A field of a catalog is read back. -/
theorem CatalogField.decoder_readsBack {field : CatalogField} (h : field.NumbersFinite)
    (levels : Nat) : ReadsBack decoder levels field.toJson field.canonical := by
  obtain ⟨name, type, sample, description⟩ := field
  have hname (below : Nat) : ReadsBack .text below (.string name) name :=
    Decoder.text_readsBack below name
  have htype (below : Nat) : ReadsBack typeDecoder below (.string type.name) type :=
    typeDecoder_readsBack type below
  have hsample (below : Nat) : ReadsBack (.optional Value.decoder) below
      (.ofOption (sample.map Value.toJson)) (sample.map Value.canonical) :=
    Value.optional_decoder_readsBack h below
  unfold decoder
  cases description with
  | none =>
    refine Decoder.record_readsBack (fun below _ => .cons (.of_put rfl rfl (hname below))
      (.cons (.of_put rfl rfl (htype below)) (.cons (.of_put rfl rfl (hsample below)) .nil)))
      ?_ ?_ ?_ rfl
    · simp
    · simp [Decoder.Slot.required, Decoder.Slot.defaulted, Decoder.Slot.nullable]
    · simp [Decoder.commute_iff]
  | some text =>
    have hdescription (below : Nat) :
        ReadsBack (.optional .text) below (.string text) (some text) :=
      Decoder.optional_text_readsBack below (some text)
    refine Decoder.record_readsBack (fun below _ => .cons (.of_put rfl rfl (hname below))
      (.cons (.of_put rfl rfl (htype below)) (.cons (.of_put rfl rfl (hsample below))
        (.cons (.of_put rfl rfl (hdescription below)) .nil)))) ?_ ?_ ?_ rfl
    · simp
    · simp [Decoder.Slot.required, Decoder.Slot.defaulted, Decoder.Slot.nullable]
    · simp [Decoder.commute_iff]

/-- A catalog is read back. -/
theorem FieldCatalog.decoder_readsBack {catalog : FieldCatalog}
    (h : ∀ field ∈ catalog.fields, field.NumbersFinite) (levels : Nat) :
    ReadsBack decoder levels catalog.toJson catalog.canonical := by
  have hlist : ReadsBack (.list CatalogField.decoder) levels catalog.toJson
      (catalog.fields.map CatalogField.canonical) :=
    Decoder.list_readsBack fun below _ field hfield =>
      CatalogField.decoder_readsBack (h field hfield) below
  intro v hv hlevels
  exact congrArg (Except.map FieldCatalog.mk) (hlist v hv hlevels)

/-- A predicate with finite constants is read back within the default limit. -/
theorem Predicate.decoder_readsBack {p : Predicate} (h : p.ConstantsFinite)
    (hdepth : p.depth ≤ defaultLimit) (hlevels : defaultLimit ≤ levels) :
    ReadsBack decoder levels p.toJson p.canonical := by
  have hheight : p.height ≤ levels := by
    rw [← depth_eq_height]
    exact Nat.le_trans hdepth hlevels
  intro v hv hnesting
  -- A predicate is read as a JSON value first, which has its members in ascending order again.
  unfold decoder
  rw [Decoder.json_readsBack (writable_toJson h hheight) v hv hnesting]
  show (ofJson defaultLimit p.toJson).mapError _ = _
  rw [ofJson_toJson_eq_ok_iff.2 ⟨rfl, h, hdepth⟩]
  rfl

/-- The kind of a rule is read back from its name. -/
theorem RuleKind.decoder_readsBack (kind : RuleKind) (levels : Nat) :
    ReadsBack decoder levels (.string kind.name) kind :=
  Decoder.choice_readsBack (by cases kind <;> rfl) levels

/-- A rule with finite constants is read back within the default limit. -/
theorem Rule.decoder_readsBack {r : Rule} (h : r.predicate.ConstantsFinite)
    (hdepth : r.predicate.depth ≤ defaultLimit) (hlevels : defaultLimit + 1 ≤ levels) :
    ReadsBack decoder levels r.toJson r.canonical := by
  obtain ⟨id, name, description, kind, severity, message, active, predicate⟩ := r
  have hid (below : Nat) : ReadsBack .text below (.string id) id := Decoder.text_readsBack below id
  have hname (below : Nat) : ReadsBack (.optional .text) below (.ofText? name) name :=
    Decoder.optional_text_readsBack below name
  have hdescription (below : Nat) : ReadsBack .text below (.string description) description :=
    Decoder.text_readsBack below description
  have hkind (below : Nat) : ReadsBack RuleKind.decoder below (.string kind.name) kind :=
    kind.decoder_readsBack below
  have hseverity (below : Nat) :
      ReadsBack Severity.decoder below (.string severity.name) severity :=
    severity.decoder_readsBack below
  have hmessage (below : Nat) : ReadsBack (.optional .text) below (.ofText? message) message :=
    Decoder.optional_text_readsBack below message
  have hactive (below : Nat) : ReadsBack .boolean below (.bool active) active :=
    Decoder.boolean_readsBack below active
  -- The rule takes a level, which leaves those that the predicate needs.
  have hpredicate (below : Nat) (hbelow : levels = below + 1) :
      ReadsBack Predicate.decoder below predicate.toJson predicate.canonical :=
    Predicate.decoder_readsBack h hdepth (by omega)
  unfold decoder
  refine Decoder.record_readsBack (fun below hbelow => .cons (.of_put rfl rfl (hid below))
    (.cons (.of_put rfl rfl (hname below)) (.cons (.of_put rfl rfl (hdescription below))
      (.cons (.of_put rfl rfl (hkind below)) (.cons (.of_put rfl rfl (hseverity below))
        (.cons (.of_put rfl rfl (hmessage below)) (.cons (.of_put rfl rfl (hactive below))
          (.cons (.of_put rfl rfl (hpredicate below hbelow)) .nil)))))))) ?_ ?_ ?_ rfl
  · simp
  · simp [Decoder.Slot.required, Decoder.Slot.defaulted]
  · simp [Decoder.commute_iff]

namespace RuleBook

variable {book : RuleBook}

/-- A book with finite numbers is read back within the default limit. -/
theorem decoder_readsBack (h : book.NumbersFinite)
    (hdepth : ∀ r ∈ book.rules, r.predicate.depth ≤ defaultLimit)
    (hlevels : defaultLimit + 3 ≤ levels) :
    ReadsBack decoder levels book.toJson book.canonical := by
  have hcatalog (below : Nat) :
      ReadsBack FieldCatalog.decoder below book.catalog.toJson book.catalog.canonical :=
    FieldCatalog.decoder_readsBack h.examples below
  -- The book and the list of rules take a level each.
  have hrules (below : Nat) (hbelow : levels = below + 1) : ReadsBack (.list Rule.decoder) below
      (.array (book.rules.map Rule.toJson)) (book.rules.map Rule.canonical) :=
    Decoder.list_readsBack fun lower hlower r hr =>
      Rule.decoder_readsBack (h.constants r hr) (hdepth r hr) (by omega)
  unfold decoder
  refine Decoder.record_readsBack (fun below hbelow => .cons (.of_put rfl rfl (hcatalog below))
    (.cons (.of_put rfl rfl (hrules below hbelow)) .nil)) ?_ ?_ ?_ rfl
  · simp
  · simp [Decoder.Slot.defaulted]
  · simp [Decoder.commute_iff]

end RuleBook

/-! ## Numbers and levels of forms -/

/-- The form of a text that may not be there has no numbers. -/
theorem Json.numbersFit_ofText? (text : Option String) : (Json.ofText? text).NumbersFit := by
  cases text with
  | none => exact .null
  | some text => exact .string text

/-- The numbers in the form of a field with a finite example fit. -/
theorem CatalogField.numbersFit_toJson {field : CatalogField} (h : field.NumbersFinite) :
    field.toJson.NumbersFit := by
  obtain ⟨name, type, sample, description⟩ := field
  have hsample : (Json.ofOption (sample.map Value.toJson)).NumbersFit :=
    Value.numbersFit_ofOption_toJson h
  refine .object ?_
  cases description with
  | none => simp [Json.AllNumbers.string, hsample]
  | some text => simp [Json.AllNumbers.string, hsample]

/-- The numbers in the form of a rule with finite constants fit. -/
theorem Rule.numbersFit_toJson {r : Rule} (h : r.predicate.ConstantsFinite) :
    r.toJson.NumbersFit := by
  have hpredicate : r.predicate.toJson.NumbersFit :=
    (Predicate.writable_toJson h (Nat.le_refl _)).numbersFit
  refine .object ?_
  simp [Json.AllNumbers.string, Json.AllNumbers.bool, Json.numbersFit_ofText?, hpredicate]

/-- The numbers in the form of a book with finite numbers fit. -/
theorem RuleBook.numbersFit_toJson {book : RuleBook} (h : book.NumbersFinite) :
    book.toJson.NumbersFit := by
  have hcatalog : book.catalog.toJson.NumbersFit := by
    refine .array fun v hv => ?_
    obtain ⟨field, hfield, rfl⟩ := List.mem_map.1 hv
    exact CatalogField.numbersFit_toJson (h.examples field hfield)
  have hrules : (Json.array (book.rules.map Rule.toJson)).NumbersFit := by
    refine .array fun v hv => ?_
    obtain ⟨r, hr, rfl⟩ := List.mem_map.1 hv
    exact Rule.numbersFit_toJson (h.constants r hr)
  refine .object ?_
  simp [hcatalog, hrules]

/-- The form of a field of a catalog is an object of scalars. -/
theorem CatalogField.nesting_toJson_le (field : CatalogField) : field.toJson.nesting ≤ 1 := by
  obtain ⟨name, type, sample, description⟩ := field
  have hsample : (Json.ofOption (sample.map Value.toJson)).nesting = 0 :=
    Value.nesting_ofOption_toJson sample
  refine Json.nesting_object_le_iff.2 ?_
  cases description with
  | none => simp [Json.nesting, hsample]
  | some text => simp [Json.nesting, hsample]

/-- The form of a rule has one level more than its predicate. -/
theorem Rule.nesting_toJson_le {r : Rule} (h : r.predicate.ConstantsFinite)
    (hdepth : r.predicate.depth ≤ defaultLimit) : r.toJson.nesting ≤ defaultLimit + 1 := by
  have htext (text : Option String) : (Json.ofText? text).nesting = 0 := by cases text <;> rfl
  have hpredicate : r.predicate.toJson.nesting ≤ defaultLimit := by
    rw [Predicate.depth_eq_height] at hdepth
    exact (Predicate.writable_toJson h hdepth).nesting_le
  refine Json.nesting_object_le_iff.2 ?_
  simp [Json.nesting, htext, hpredicate]

/-- The form of a book has three levels more than its predicates. -/
theorem RuleBook.nesting_toJson_le {book : RuleBook} (h : book.NumbersFinite)
    (hdepth : ∀ r ∈ book.rules, r.predicate.depth ≤ defaultLimit) :
    book.toJson.nesting ≤ defaultLimit + 3 := by
  have hcatalog : book.catalog.toJson.nesting ≤ defaultLimit + 2 := by
    refine Json.nesting_array_le_iff.2 (List.forall_mem_map.2 fun field _ => ?_)
    exact Nat.le_trans field.nesting_toJson_le (Nat.le_add_left 1 defaultLimit)
  have hrules : (Json.array (book.rules.map Rule.toJson)).nesting ≤ defaultLimit + 2 := by
    refine Json.nesting_array_le_iff.2 (List.forall_mem_map.2 fun r hr => ?_)
    exact Rule.nesting_toJson_le (h.constants r hr) (hdepth r hr)
  refine Json.nesting_object_le_iff.2 ?_
  simp [hcatalog, hrules]

/-! ## Validation -/

/-- A predicate has the same leaves with its zeros positive. -/
theorem Predicate.fieldLeaves_canonical (p : Predicate) :
    p.canonical.fieldLeaves = p.fieldLeaves := by
  induction p with
  | const value => rfl
  | field name => rfl
  | arithmetic op left right ihl ihr => rw [canonical, fieldLeaves, fieldLeaves, ihl, ihr]
  | comparison op left right ihl ihr => rw [canonical, fieldLeaves, fieldLeaves, ihl, ihr]
  | logical op left right ihl ihr => rw [canonical, fieldLeaves, fieldLeaves, ihl, ihr]
  | not operand ih => rw [canonical, fieldLeaves, fieldLeaves, ih]

/-- A catalog contains the same names with its zeros positive. -/
theorem FieldCatalog.contains_canonical (catalog : FieldCatalog) (name : String) :
    catalog.canonical.contains name = catalog.contains name := by
  have hname : (fun field : CatalogField => field.canonical.name == name) =
      fun field => field.name == name := rfl
  unfold contains get? canonical
  rw [List.find?_map, Option.isSome_map]
  exact congrArg (fun test => (catalog.fields.find? test).isSome) hname

/-- Whether a catalog allows a predicate does not depend on the signs of zeros. -/
theorem FieldCatalog.firstUnknown?_canonical (catalog : FieldCatalog) (p : Predicate) :
    catalog.canonical.firstUnknown? p.canonical = catalog.firstUnknown? p := by
  have hempty : catalog.canonical.isEmpty = catalog.isEmpty := List.isEmpty_map
  have hnames : p.canonical.fieldNames = p.fieldNames := by
    rw [Predicate.fieldNames_eq, Predicate.fieldNames_eq, Predicate.fieldLeaves_canonical]
  unfold firstUnknown?
  simp only [hempty, hnames, contains_canonical]

namespace RuleBook

variable {book : RuleBook} {limit : Nat}

/-- A valid book is valid with its zeros positive, and with every limit that its predicates keep
to. -/
theorem Valid.canonical (h : book.Valid limit) {bound : Nat}
    (hdepth : ∀ r ∈ book.rules, r.predicate.depth ≤ bound) : book.canonical.Valid bound where
  examples := by
    refine List.forall_mem_map.2 fun field hfield value hvalue => ?_
    obtain ⟨found, hfound, rfl⟩ := Option.map_eq_some_iff.1 hvalue
    rw [Value.type_canonical]
    exact h.examples field hfield found hfound
  distinct := List.pairwise_map.2 h.distinct
  depth := by
    refine List.forall_mem_map.2 fun r hr => ?_
    show r.predicate.canonical.depth ≤ bound
    rw [Predicate.depth_canonical]
    exact hdepth r hr
  fields := by
    refine List.forall_mem_map.2 fun r hr => ?_
    exact (book.catalog.firstUnknown?_canonical r.predicate).trans (h.fields r hr)

/-- A valid book is read from the compact text of its JSON form, if its numbers are finite and its
predicates keep to the default limit. What is read is the book itself, but for the signs of the
zeros in it. The numbers of the text are read as the nearest doubles, so that they are kept. -/
theorem ofText_toJson (hvalid : book.validate limit = .ok ())
    (hdepth : ∀ r ∈ book.rules, r.predicate.depth ≤ defaultLimit) (hfinite : book.NumbersFinite) :
    ofText .json book.toJson.compact = .ok book.canonical := by
  -- The text is decoded as the canonical book, which is valid because the book is.
  rw [ofText_eq_ok_iff]
  constructor
  · have hread : Decoder.ReadsBack decoder Format.json.levels book.toJson book.canonical :=
      decoder_readsBack hfinite hdepth (by decide)
    have hlevels : book.toJson.nesting ≤ Format.json.levels :=
      Nat.le_trans (nesting_toJson_le hfinite hdepth) (by decide)
    exact hread.decode_compact (numbersFit_toJson hfinite).numbersKept hlevels
  · exact (validate_eq_ok_iff.1 hvalid).canonical hdepth

/-- A book with negative zeros, with and without optional parts, is read with positive zeros. -/
theorem ofText_toJson_negative_zero :
    let zero (negative : Bool) : Value := .number (.zero negative)
    let book (negative : Bool) : RuleBook :=
      ⟨⟨[⟨"balance", .number, some (zero negative), some "What is owed."⟩,
          ⟨"tier", .string, none, none⟩]⟩,
        [⟨"overdrawn", none, "No credit.", .constraint, .block, some "overdrawn", false,
          .comparison .less (.field "balance") (.const (zero negative))⟩]⟩
    (book true).validate 2 = .ok () ∧
      ofText .json (book true).toJson.compact = .ok (book false) := by
  intro zero book
  have hdepth : ∀ r ∈ (book true).rules, r.predicate.depth = 2 :=
    List.forall_mem_singleton.2 (Predicate.depth_eq_height _)
  have hvalid : (book true).validate 2 = .ok () := by
    refine validate_eq_ok_iff.2 ⟨?_, List.pairwise_singleton _ _,
      fun r hr => Nat.le_of_eq (hdepth r hr), List.forall_mem_singleton.2 ?_⟩
    · decide
    · rw [FieldCatalog.firstUnknown?_eq_none_iff rfl, Predicate.fieldNames_eq]
      decide
  have hfinite : (book true).NumbersFinite := by
    refine ⟨List.forall_mem_cons.2 ⟨?_, List.forall_mem_singleton.2 ?_⟩,
      List.forall_mem_singleton.2 ⟨trivial, rfl⟩⟩
    · intro value hvalue
      have hsame : some (zero true) = some value := hvalue
      rw [← Option.some.inj hsame]
      rfl
    · intro value hvalue
      cases hvalue
  have hread := ofText_toJson hvalid
    (fun r hr => Nat.le_trans (Nat.le_of_eq (hdepth r hr)) (by decide)) hfinite
  exact ⟨hvalid, hread⟩

end RuleBook

end AuditedRules
