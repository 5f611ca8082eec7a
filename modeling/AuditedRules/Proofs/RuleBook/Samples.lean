import AuditedRules.Proofs.OrderedMap
import AuditedRules.Proofs.RuleBook.Validation
import Mathlib.Data.List.Nodup

/-!
# Samples of a catalog

Three operations look at the same list of fields. A name refers to the first field that has it
(`get?_eq_some_iff`), the sample context has the example of the last field that has the name and an
example (`get?_sampleContext_eq_some_iff`), and validation compares each example with the type of
its own field. So a sample has the type of a field of its name, and this is the field that the name
refers to as long as no two fields share a name. A catalog is not asked for that: where two fields
do share a name, a valid book may have a sample of another type (`sample_of_other_type`).
-/

namespace AuditedRules

/-- The field is the first one with the name. -/
def FirstNamed (fields : List CatalogField) (name : String) (field : CatalogField) : Prop :=
  ∃ front back, fields = front ++ field :: back ∧ field.name = name ∧
    ∀ earlier ∈ front, earlier.name ≠ name

/-- The value is the example of the last field that has the name and an example. -/
def LastExample (fields : List CatalogField) (name : String) (value : Value) : Prop :=
  ∃ front field back, fields = front ++ field :: back ∧ field.name = name ∧
    field.sample = some value ∧ ∀ later ∈ back, later.name = name → later.sample = none

section
variable {fields : List CatalogField} {name : String} {value : Value} {field : CatalogField}

/-- The first field with a name is a field with the name. -/
theorem FirstNamed.mem (h : FirstNamed fields name field) : field ∈ fields ∧ field.name = name := by
  obtain ⟨front, back, rfl, hname, -⟩ := h
  exact ⟨List.mem_append_right front List.mem_cons_self, hname⟩

/-- The last example of a name is that of a field with the name. -/
theorem LastExample.exists_mem (h : LastExample fields name value) :
    ∃ field ∈ fields, field.name = name ∧ field.sample = some value := by
  obtain ⟨front, field, back, rfl, hname, hvalue, -⟩ := h
  exact ⟨field, List.mem_append_right front List.mem_cons_self, hname, hvalue⟩

end

namespace FieldCatalog

variable {catalog : FieldCatalog} {fields : List CatalogField} {field : CatalogField}
  {name : String} {value : Value}

/-- A name refers to the first field that has it. -/
theorem get?_eq_some_iff :
    catalog.get? name = some field ↔ FirstNamed catalog.fields name field := by
  unfold get? FirstNamed
  rw [List.find?_eq_some_iff_append]
  constructor
  · rintro ⟨hname, front, back, hfields, hfront⟩
    exact ⟨front, back, hfields, by simpa using hname, fun f hf => by simpa using hfront f hf⟩
  · rintro ⟨front, back, hfields, hname, hfront⟩
    exact ⟨by simpa using hname, front, back, hfields, fun f hf => by simpa using hfront f hf⟩

/-- A field comes in front of the others with its example. -/
theorem get?_sampleContext_cons :
    (sampleContext ⟨field :: fields⟩).get? name =
      ((sampleContext ⟨fields⟩).get? name).or
        (if field.name = name then field.sample else none) := by
  unfold sampleContext
  rw [OrderedMap.get?_ofList, OrderedMap.get?_ofList]
  cases hsample : field.sample with
  | none => simp [hsample]
  | some value =>
    rw [List.filterMap_cons, hsample, Option.map_some]
    dsimp only
    rw [List.reverse_cons, entryValue?_append, entryValue?, entryValue?]

/-- A name without a sample has no field with an example. -/
theorem get?_sampleContext_eq_none_iff :
    (sampleContext ⟨fields⟩).get? name = none ↔ ∀ f ∈ fields, f.name = name → f.sample = none := by
  induction fields with
  | nil => exact iff_of_true rfl fun _ hf => absurd hf List.not_mem_nil
  | cons field fields ih =>
    rw [get?_sampleContext_cons, Option.or_eq_none_iff, ih, List.forall_mem_cons, and_comm]
    refine and_congr_left' ?_
    split
    · rename_i hname
      exact (imp_iff_right hname).symm
    · rename_i hname
      exact iff_of_true rfl fun h => absurd h hname

/-- The sample of a name is the example of the last field that has the name and an example. -/
theorem get?_sampleContext_eq_some_iff :
    catalog.sampleContext.get? name = some value ↔ LastExample catalog.fields name value := by
  obtain ⟨fields⟩ := catalog
  induction fields with
  | nil =>
    refine iff_of_false (fun h => by cases h) ?_
    rintro ⟨front, field, back, hfields, -⟩
    exact absurd hfields (by simp)
  | cons field fields ih =>
    rw [get?_sampleContext_cons, Option.or_eq_some_iff, ih]
    constructor
    · rintro (⟨front, f, back, hfields, hname, hvalue, hback⟩ | ⟨hnone, hvalue⟩)
      · exact ⟨field :: front, f, back, congrArg (field :: ·) hfields, hname, hvalue, hback⟩
      · -- No later field has an example, so this one is the last.
        split at hvalue
        · rename_i hname
          exact ⟨[], field, fields, rfl, hname, hvalue, get?_sampleContext_eq_none_iff.1 hnone⟩
        · cases hvalue
    · rintro ⟨front, f, back, hfields, hname, hvalue, hback⟩
      cases front with
      | nil =>
        obtain ⟨rfl, rfl⟩ := List.cons.inj hfields
        exact .inr ⟨get?_sampleContext_eq_none_iff.2 hback, by rw [if_pos hname, hvalue]⟩
      | cons first front =>
        obtain ⟨rfl, hrest⟩ := List.cons.inj hfields
        exact .inl ⟨front, f, back, hrest, hname, hvalue, hback⟩

/-- The name refers to a field that has the value as its example and accepts it. -/
def Respects (catalog : FieldCatalog) (name : String) (value : Value) : Prop :=
  ∃ field, catalog.get? name = some field ∧ value.type = field.type ∧ field.sample = some value

end FieldCatalog

namespace RuleBook

open FieldCatalog (get?_eq_some_iff get?_sampleContext_eq_some_iff)

/-- In a valid book the sample of a name is the example of the last field that has the name and an
example, and it has the type of that field. All samples are examples of the fields that their names
refer to, with their types, if and only if of fields with the same name the first has the example of
the last; so it is where no two fields share a name. -/
theorem sampleContext_respects {book : RuleBook} {limit : Nat}
    (h : book.validate limit = .ok ()) :
    (∀ name value, book.catalog.sampleContext.get? name = some value →
      LastExample book.catalog.fields name value ∧
        ∃ field ∈ book.catalog.fields, field.name = name ∧ field.sample = some value ∧
          value.type = field.type) ∧
    ((∀ name value, book.catalog.sampleContext.get? name = some value →
        book.catalog.Respects name value) ↔
      ∀ name value first, LastExample book.catalog.fields name value →
        FirstNamed book.catalog.fields name first → first.sample = some value) ∧
    (book.catalog.names.Nodup →
      ∀ name value, book.catalog.sampleContext.get? name = some value →
        book.catalog.Respects name value) := by
  have hexamples := (validate_eq_ok_iff.1 h).examples
  have hrespects : (∀ name value, book.catalog.sampleContext.get? name = some value →
        book.catalog.Respects name value) ↔
      ∀ name value first, LastExample book.catalog.fields name value →
        FirstNamed book.catalog.fields name first → first.sample = some value := by
    constructor
    · intro hall name value first hlast hfirst
      obtain ⟨field, hget, -, hsample⟩ :=
        hall name value (get?_sampleContext_eq_some_iff.2 hlast)
      rw [get?_eq_some_iff.2 hfirst, Option.some.injEq] at hget
      rw [hget]
      exact hsample
    · intro hall name value hvalue
      have hlast := get?_sampleContext_eq_some_iff.1 hvalue
      -- A field has the name, so the name refers to one.
      obtain ⟨field, hfield, hname, -⟩ := hlast.exists_mem
      have hsome : (book.catalog.get? name).isSome = true :=
        List.find?_isSome.2 ⟨field, hfield, by simpa using hname⟩
      obtain ⟨first, hget⟩ := Option.isSome_iff_exists.1 hsome
      have hfirst := get?_eq_some_iff.1 hget
      have hsample := hall name value first hlast hfirst
      exact ⟨first, hget, hexamples first hfirst.mem.1 value hsample, hsample⟩
  refine ⟨fun name value hvalue => ?_, hrespects, fun hnames => hrespects.2 ?_⟩
  · have hlast := get?_sampleContext_eq_some_iff.1 hvalue
    obtain ⟨field, hfield, hname, hsample⟩ := hlast.exists_mem
    exact ⟨hlast, field, hfield, hname, hsample, hexamples field hfield value hsample⟩
  · intro name value first hlast hfirst
    obtain ⟨field, hfield, hname, hsample⟩ := hlast.exists_mem
    -- Both fields have the name, so they are the same one.
    have hsame : first = field :=
      List.inj_on_of_nodup_map hnames hfirst.mem.1 hfield (hfirst.mem.2.trans hname.symm)
    rw [hsame, hsample]

/-- A book with two fields and without rules; only the second field has an example. -/
def tierBook : RuleBook :=
  ⟨⟨[⟨"amount", .number, none, none⟩, ⟨"tier", .string, some (.string "gold"), none⟩]⟩, []⟩

/-- The book about tiers is valid, and the name of its second field refers to a field with the
sample as its example. -/
theorem sampleContext_respects_tier :
    tierBook.validate defaultLimit = .ok () ∧ tierBook.catalog.names.Nodup ∧
      tierBook.catalog.sampleContext.get? "tier" = some (.string "gold") ∧
      tierBook.catalog.Respects "tier" (.string "gold") := by
  have hvalid : tierBook.validate defaultLimit = .ok () := rfl
  have hnames : tierBook.catalog.names.Nodup := by decide
  have hsample : tierBook.catalog.sampleContext.get? "tier" = some (.string "gold") := rfl
  obtain ⟨-, -, hrespects⟩ := sampleContext_respects hvalid
  exact ⟨hvalid, hnames, hsample, hrespects hnames _ _ hsample⟩

/-- A book that lists a name twice, as a number and as a text, each with an example. -/
def twiceBook : RuleBook :=
  ⟨⟨[⟨"tier", .number, some (.number (.ofInt 1)), none⟩,
    ⟨"tier", .string, some (.string "gold"), none⟩]⟩, []⟩

/-- The book that lists a name twice is valid, and its sample context has a text for the name, which
refers to a field of numbers. -/
theorem sample_of_other_type :
    twiceBook.validate defaultLimit = .ok () ∧
      twiceBook.catalog.sampleContext.get? "tier" = some (.string "gold") ∧
      twiceBook.catalog.get? "tier" = some ⟨"tier", .number, some (.number (.ofInt 1)), none⟩ ∧
      ¬ twiceBook.catalog.Respects "tier" (.string "gold") := by
  have hget : twiceBook.catalog.get? "tier" =
      some ⟨"tier", .number, some (.number (.ofInt 1)), none⟩ := rfl
  refine ⟨rfl, rfl, hget, ?_⟩
  rintro ⟨field, hfield, htype, -⟩
  rw [hget, Option.some.injEq] at hfield
  rw [← hfield] at htype
  cases htype

end RuleBook

end AuditedRules
