import AuditedRules.Proofs.Document.Values
import AuditedRules.Proofs.Evaluation.SignOfZero
import AuditedRules.Rule

/-!
# Reading the records of an evaluation

A trace, a result or an outcome whose numbers are finite is decoded from its JSON form, with its
zeros taken as positive and nothing else changed (`records_decode_toJson`). Every member is read by
the field of its name; the members are in the order of the fields only as they are written, so the
lemmas allow any order.

A trace is read entry by entry: the induction is on the trace, and its invariant is that the levels
that may be opened are no fewer than those of the value and fewer than the bound on entries.
-/

namespace AuditedRules

/-! ## Finite numbers -/

/-- Every number in a trace is finite. -/
inductive Trace.NumbersFinite : Trace → Prop
  | entry {label : String} {value : Value} {pass : Option Bool} {children : List Trace}
      (finite : value.Finite) (below : ∀ t ∈ children, NumbersFinite t) :
    NumbersFinite ⟨label, value, pass, children⟩

/-- Every number in a result is finite. -/
structure EvalResult.NumbersFinite (r : EvalResult) : Prop where
  /-- The value, if there is one, is finite. -/
  value : ∀ value, r.value = some value → value.Finite
  /-- The numbers in the trace are finite. -/
  trace : r.trace.NumbersFinite

/-- Every number in an outcome is finite. -/
def RuleOutcome.NumbersFinite (o : RuleOutcome) : Prop :=
  o.result.NumbersFinite

/-- The result with the zeros in it taken as positive. -/
def EvalResult.canonical (r : EvalResult) : EvalResult :=
  { r with value := r.value.map Value.canonical, trace := r.trace.canonical }

/-- The outcome with the zeros in it taken as positive. -/
def RuleOutcome.canonical (o : RuleOutcome) : RuleOutcome :=
  { o with result := o.result.canonical }

/-! ## Traces -/

namespace Trace

/-- The JSON forms of a list are those of its traces. -/
theorem toJsons_eq_map (ts : List Trace) : toJsons ts = ts.map toJson := by
  induction ts with
  | nil => rfl
  | cons t rest ih => rw [toJsons, ih, List.map_cons]

/-- A trace with finite numbers is read back where the bound on entries exceeds the levels. -/
theorem decoderWithin_readsBack {t : Trace} (h : t.NumbersFinite) {levels bound : Nat}
    (hbound : levels < bound) :
    Decoder.ReadsBack (decoderWithin bound) levels t.toJson t.canonical := by
  induction h generalizing levels bound with
  | @entry label value pass children hvalue _ ih =>
    obtain ⟨bound, rfl⟩ : ∃ more, bound = more + 1 := Nat.exists_eq_add_one.2 (by omega)
    have hlabel (below : Nat) : Decoder.ReadsBack .text below (.string label) label :=
      Decoder.text_readsBack below label
    have hvalue (below : Nat) :
        Decoder.ReadsBack Value.decoder below value.toJson value.canonical :=
      Value.decoder_readsBack hvalue below
    -- The entries below are on at least two levels less, and the bound on them is one less.
    have hchildren (below : Nat) (hbelow : levels = below + 1) :
        Decoder.ReadsBack (.list (decoderWithin bound)) below (.array (children.map toJson))
          (children.map canonical) :=
      Decoder.list_readsBack fun _ _ t ht => ih t ht (by omega)
    rw [toJson, toJsons_eq_map, canonical, canonicals_eq_map]
    unfold decoderWithin
    cases pass with
    | none =>
      refine Decoder.record_readsBack (fun below hbelow => .cons (.of_put rfl rfl (hlabel below))
        (.cons (.of_put rfl rfl (hvalue below)) (.cons (.of_put rfl rfl (hchildren below hbelow))
          .nil))) ?_ ?_ ?_ rfl
      · simp
      · simp [Decoder.Slot.required, Decoder.Slot.defaulted]
      · simp [Decoder.commute_iff]
    | some b =>
      have hpass (below : Nat) :
          Decoder.ReadsBack (.optional .boolean) below (.bool b) (some b) :=
        Decoder.optional_readsBack (by simp) (Decoder.boolean_readsBack below b)
      refine Decoder.record_readsBack (fun below hbelow => .cons (.of_put rfl rfl (hlabel below))
        (.cons (.of_put rfl rfl (hvalue below)) (.cons (.of_put rfl rfl (hpass below))
          (.cons (.of_put rfl rfl (hchildren below hbelow)) .nil)))) ?_ ?_ ?_ rfl
      · simp
      · simp [Decoder.Slot.required, Decoder.Slot.defaulted]
      · simp [Decoder.commute_iff]

/-- A trace with finite numbers is read back. -/
theorem decoder_readsBack {t : Trace} (h : t.NumbersFinite) (levels : Nat) :
    Decoder.ReadsBack decoder levels t.toJson t.canonical :=
  fun v hv hlevels => decoderWithin_readsBack h (Nat.lt_succ_self levels) v hv hlevels

end Trace

/-! ## Results and outcomes -/

/-- A result with finite numbers is read back. -/
theorem EvalResult.decoder_readsBack {r : EvalResult} (h : r.NumbersFinite) (levels : Nat) :
    Decoder.ReadsBack decoder levels r.toJson r.canonical := by
  obtain ⟨pass, value, trace, error⟩ := r
  have hpass (below : Nat) : Decoder.ReadsBack .boolean below (.bool pass) pass :=
    Decoder.boolean_readsBack below pass
  have hvalue (below : Nat) : Decoder.ReadsBack (.optional Value.decoder) below
      (.ofOption (value.map Value.toJson)) (value.map Value.canonical) :=
    Value.optional_decoder_readsBack h.value below
  have htrace (below : Nat) : Decoder.ReadsBack Trace.decoder below trace.toJson trace.canonical :=
    Trace.decoder_readsBack h.trace below
  unfold decoder
  cases error with
  | none =>
    refine Decoder.record_readsBack (fun below _ => .cons (.of_put rfl rfl (hpass below))
      (.cons (.of_put rfl rfl (hvalue below)) (.cons (.of_put rfl rfl (htrace below)) .nil)))
      ?_ ?_ ?_ rfl
    · simp
    · simp [Decoder.Slot.required, Decoder.Slot.defaulted]
    · simp [Decoder.commute_iff]
  | some message =>
    have herror (below : Nat) :
        Decoder.ReadsBack (.optional .text) below (.string message) (some message) :=
      Decoder.optional_text_readsBack below (some message)
    refine Decoder.record_readsBack (fun below _ => .cons (.of_put rfl rfl (hpass below))
      (.cons (.of_put rfl rfl (hvalue below)) (.cons (.of_put rfl rfl (htrace below))
        (.cons (.of_put rfl rfl (herror below)) .nil)))) ?_ ?_ ?_ rfl
    · simp
    · simp [Decoder.Slot.required, Decoder.Slot.defaulted]
    · simp [Decoder.commute_iff]

/-- The severity of an outcome is read back from its name. -/
theorem Severity.decoder_readsBack (severity : Severity) (levels : Nat) :
    Decoder.ReadsBack decoder levels (.string severity.name) severity :=
  Decoder.choice_readsBack (by cases severity <;> rfl) levels

/-- An outcome with finite numbers is read back. -/
theorem RuleOutcome.decoder_readsBack {o : RuleOutcome} (h : o.NumbersFinite) (levels : Nat) :
    Decoder.ReadsBack decoder levels o.toJson o.canonical := by
  obtain ⟨id, severity, triggered, message, result⟩ := o
  have hid (below : Nat) : Decoder.ReadsBack .text below (.string id) id :=
    Decoder.text_readsBack below id
  have hseverity (below : Nat) :
      Decoder.ReadsBack Severity.decoder below (.string severity.name) severity :=
    severity.decoder_readsBack below
  have htriggered (below : Nat) : Decoder.ReadsBack .boolean below (.bool triggered) triggered :=
    Decoder.boolean_readsBack below triggered
  have hresult (below : Nat) :
      Decoder.ReadsBack EvalResult.decoder below result.toJson result.canonical :=
    EvalResult.decoder_readsBack h below
  unfold decoder
  cases message with
  | none =>
    refine Decoder.record_readsBack (fun below _ => .cons (.of_put rfl rfl (hid below))
      (.cons (.of_put rfl rfl (hseverity below)) (.cons (.of_put rfl rfl (htriggered below))
        (.cons (.of_put rfl rfl (hresult below)) .nil)))) ?_ ?_ ?_ rfl
    · simp
    · simp [Decoder.Slot.required, Decoder.Slot.defaulted]
    · simp [Decoder.commute_iff]
  | some text =>
    have hmessage (below : Nat) :
        Decoder.ReadsBack (.optional .text) below (.string text) (some text) :=
      Decoder.optional_text_readsBack below (some text)
    refine Decoder.record_readsBack (fun below _ => .cons (.of_put rfl rfl (hid below))
      (.cons (.of_put rfl rfl (hseverity below)) (.cons (.of_put rfl rfl (htriggered below))
        (.cons (.of_put rfl rfl (hmessage below)) (.cons (.of_put rfl rfl (hresult below))
          .nil))))) ?_ ?_ ?_ rfl
    · simp
    · simp [Decoder.Slot.required, Decoder.Slot.defaulted]
    · simp [Decoder.commute_iff]

/-- A trace, a result and an outcome whose numbers are finite are decoded from their JSON forms,
with the members of all objects in any order. What is decoded is the record itself, but for the
signs of the zeros in it. -/
theorem records_decode_toJson :
    (∀ (t : Trace) (v : Json), t.NumbersFinite → v.Reorders t.toJson →
      v.decode Trace.decoder = .ok t.canonical) ∧
    (∀ (r : EvalResult) (v : Json), r.NumbersFinite → v.Reorders r.toJson →
      v.decode EvalResult.decoder = .ok r.canonical) ∧
    ∀ (o : RuleOutcome) (v : Json), o.NumbersFinite → v.Reorders o.toJson →
      v.decode RuleOutcome.decoder = .ok o.canonical := by
  refine ⟨fun t v ht hv => ?_, fun r v hr hv => ?_, fun o v ho hv => ?_⟩
  · exact (Trace.decoder_readsBack ht v.nesting).decode hv
  · exact (EvalResult.decoder_readsBack hr v.nesting).decode hv
  · exact (RuleOutcome.decoder_readsBack ho v.nesting).decode hv

/-- An entry of a negative zero is decoded with a positive one from members in ascending order, and
the outcome of a failed evaluation is decoded as itself. -/
theorem records_decode_toJson_negative_zero :
    let entry (negative : Bool) : Trace := .leaf "field: balance" (.number (.zero negative))
    let outcome : RuleOutcome :=
      ⟨"R-1", .block, false, none, .failure (.missingField "balance")⟩
    Json.decode Trace.decoder (.object [("children", .array []),
      ("label", .string "field: balance"), ("value", .number (.int 0))]) = .ok (entry false) ∧
    outcome.toJson.decode RuleOutcome.decoder = .ok outcome := by
  intro entry outcome
  obtain ⟨htrace, -, houtcome⟩ := records_decode_toJson
  have hentry : (entry true).NumbersFinite := .entry rfl fun _ ht => absurd ht List.not_mem_nil
  have hfailed : outcome.NumbersFinite :=
    { value := fun _ hvalue => absurd hvalue (by simp [outcome, EvalResult.failure])
      trace := .entry trivial fun _ ht => absurd ht List.not_mem_nil }
  refine ⟨htrace (entry true) _ hentry ?_, houtcome outcome _ hfailed (.refl _)⟩
  -- The entry is written with its label first and its children last.
  have hzero : (Value.number (.zero true)).toJson = .number (.int 0) := by
    unfold Value.toJson
    dsimp only
    rw [Binary64.exactInt?_zero]
  show Json.Reorders _ (.object [("label", .string "field: balance"),
    ("value", (Value.number (.zero true)).toJson), ("children", .array [])])
  rw [hzero]
  have hperm := List.perm_append_singleton ("children", Json.array [])
    [("label", .string "field: balance"), ("value", .number (.int 0))]
  exact .object hperm.symm (.cons (.mk (.string _)) (.cons (.mk (.number _))
    (.cons (.mk (.array .nil)) .nil)))

end AuditedRules
