import AuditedRules.Proofs.Json.Numbers

/-!
# What holds of decoded records

A record is decoded by putting the values of its fields, one after the other, into the record that
holds the values of missing fields. So a property of that record which every field keeps holds of
what is decoded (`Decoder.holds_of_record`), whether the record is written as a mapping or as a
sequence. The values come from documents inside of the document; that its numbers fit is handed on
to them.
-/

namespace AuditedRules.Decoder

variable {α β : Type} {p : α → Prop} {format : Format} {levels : Nat}

/-- Whatever a field reads from a document that fits, putting it into a record keeps a property. -/
def Slot.Keeps (slot : Slot α) (p : α → Prop) : Prop :=
  ∀ format levels document put, document.Fits → slot.read format levels document = .ok put →
    ∀ record, p record → p (put record)

/-- A field keeps a property if putting in any value that its decoder reads does. -/
theorem Slot.Keeps.of_put {slot : Slot α} {decoder : Decoder β} {put : β → α → α}
    (hread : slot.read = fun format levels document => (decoder format levels document).map put)
    (h : ∀ format levels document value, document.Fits →
      decoder format levels document = .ok value → ∀ record, p record → p (put value record)) :
    slot.Keeps p := by
  intro format levels document read hfits hslot
  rw [hread] at hslot
  obtain ⟨value, hvalue, rfl⟩ := map_eq_ok_iff.1 hslot
  exact h format levels document value hfits hvalue

/-- A field keeps a property that does not depend on it. -/
theorem Slot.Keeps.of_other {slot : Slot α} {decoder : Decoder β} {put : β → α → α}
    (hread : slot.read = fun format levels document => (decoder format levels document).map put)
    (h : ∀ value record, p record → p (put value record)) : slot.Keeps p :=
  .of_put hread fun _ _ _ value _ _ => h value

/-- The members of a mapping keep what the fields keep. -/
theorem holds_of_namedFields {slots : List (Slot α)} (hslots : ∀ slot ∈ slots, slot.Keeps p)
    {documents : List (Document × Document)} (hfits : ∀ m ∈ documents, m.2.Fits)
    {seen seen' : List String} {record record' : α} (hrecord : p record)
    (h : namedFields slots format levels documents seen record = .ok (seen', record')) :
    p record' := by
  induction documents generalizing seen record with
  | nil =>
    cases h
    exact hrecord
  | cons m documents ih =>
    obtain ⟨hfirst, hrest⟩ := List.forall_mem_cons.1 hfits
    obtain ⟨name, -, h⟩ := bind_eq_ok_iff.1 h
    split at h
    · split at h
      · exact ih hrest hrecord h
      · cases h
    · rename_i slot hslot
      split at h
      · cases h
      · obtain ⟨put, hput, h⟩ := bind_eq_ok_iff.1 h
        have hkept : p (put record) := hslots slot (List.mem_of_find?_eq_some hslot) format levels
          m.2 put hfirst (mapError_eq_ok_iff.1 hput) record hrecord
        exact ih hrest hkept h

/-- The items of a sequence keep what the fields keep. -/
theorem holds_of_listed {slots : List (Slot α)} (hslots : ∀ slot ∈ slots, slot.Keeps p)
    {documents : List Document} (hfits : ∀ document ∈ documents, document.Fits) {name : String}
    {count index : Nat} {closed : Bool} {record record' : α} (hrecord : p record)
    (h : listed name count format levels closed index slots documents record = .ok record') :
    p record' := by
  induction slots generalizing documents index record with
  | nil =>
    cases documents with
    | nil =>
      obtain ⟨-, rfl⟩ := finish_eq_ok_iff.1 h
      exact hrecord
    | cons document documents => cases h
  | cons slot slots ih =>
    obtain ⟨hslot, hslots⟩ := List.forall_mem_cons.1 hslots
    cases documents with
    | nil =>
      unfold listed at h
      split at h
      · cases h
      · split at h
        · exact ih hslots hfits hrecord h
        · cases h
    | cons document documents =>
      obtain ⟨hfirst, hrest⟩ := List.forall_mem_cons.1 hfits
      obtain ⟨put, hput, h⟩ := bind_eq_ok_iff.1 h
      have hkept : p (put record) := hslot format levels document put hfirst
        (mapError_eq_ok_iff.1 hput) record hrecord
      exact ih hslots hrest hkept h

/-- A record has the property that the record of missing fields has and that every field keeps. -/
theorem holds_of_record {slots : List (Slot α)} (hslots : ∀ slot ∈ slots, slot.Keeps p)
    {initial : α} (hinitial : p initial) {document : Document} (hfits : document.Fits)
    {name : String} {value : α} (h : record name slots initial format levels document = .ok value) :
    p value := by
  have hnamed : ∀ {levels : Nat} {documents : List (Document × Document)} {closed : Bool},
      (∀ m ∈ documents, m.2.Fits) →
        named slots format levels documents closed initial = .ok value → p value := by
    intro levels documents closed hmembers h
    obtain ⟨⟨seen, read⟩, hread, h⟩ := bind_eq_ok_iff.1 h
    obtain ⟨_, -, h⟩ := bind_eq_ok_iff.1 h
    split at h
    · cases h
    · cases h
      exact holds_of_namedFields hslots hmembers hinitial hread
  unfold record at h
  split at h
  · cases h
  · cases hfits with
    | mapping hmembers => exact hnamed hmembers h
  · cases h
  · cases hfits with
    | sequence hitems => exact holds_of_listed hslots hitems hinitial h
  · exact hnamed (fun _ hm => absurd hm List.not_mem_nil) h
  · cases h

/-- What a list gives has come from one of its items. -/
theorem exists_of_list {item : Decoder α} {document : Document} (hfits : document.Fits)
    {values : List α} (h : list item format levels document = .ok values) {value : α}
    (hvalue : value ∈ values) :
    ∃ levels document, document.Fits ∧ item format levels document = .ok value := by
  unfold list at h
  split at h
  · cases h
  · obtain ⟨read, hread, h⟩ := bind_eq_ok_iff.1 h
    obtain ⟨-, rfl⟩ := finish_eq_ok_iff.1 h
    cases hfits with
    | sequence hitems =>
      obtain ⟨inner, hinner, hdecoded⟩ := exists_mem_of_items hread hvalue
      exact ⟨_, inner, hitems inner hinner, hdecoded⟩
  · cases h
    exact absurd hvalue List.not_mem_nil
  · cases h

end AuditedRules.Decoder
