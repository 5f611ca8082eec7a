import AuditedRules.Proofs.Document.Members

/-!
# What is read back from a JSON value

A record is written as a JSON value with its members in the order of the fields, and comes back as a
text or as a JSON value whose objects have an order of their own. A decoder reads a value back from
how it was written (`Decoder.ReadsBack`) if it reads it with the members in any order, whenever
there are levels enough.

What is read back is put together from the parts: texts, booleans, words, values that may be null,
lists (`list_readsBack`), and records of which every member is read by its field
(`record_readsBack`).
-/

namespace AuditedRules

/-- Decodes a value that is at hand. Unlike a text it may have any number of levels, so as many may
be opened as there are. -/
def Json.decode {α : Type} (decoder : Decoder α) (v : Json) : Except Fault α :=
  decoder .json v.nesting v.toDocument

/-! ## Reading back -/

namespace Decoder

variable {α β : Type} {slots : List (Slot α)} {levels : Nat} {puts : List (α → α)}

/-- A decoder reads a value back from how it was written, in whatever order the members of the
objects come, wherever there are levels enough. -/
def ReadsBack (decoder : Decoder α) (levels : Nat) (written : Json) (value : α) : Prop :=
  ∀ v : Json, v.Reorders written → v.nesting ≤ levels →
    decoder .json levels v.toDocument = .ok value

/-- What is read back is decoded from how it was written, members in any order. -/
theorem ReadsBack.decode {decoder : Decoder α} {v written : Json} {value : α}
    (h : ReadsBack decoder v.nesting written value) (hv : v.Reorders written) :
    v.decode decoder = .ok value :=
  h v hv (Nat.le_refl _)

/-- What is read back is decoded from the compact text, if the numbers in it are kept and it has no
more levels than text is read with. -/
theorem ReadsBack.decode_compact {decoder : Decoder α} {written : Json} {value : α}
    (h : ReadsBack decoder Format.json.levels written value) {reading : Json.NumberReading}
    (hkept : written.NumbersKept reading) (hlevels : written.nesting ≤ Format.json.levels) :
    (Json.read written.compact reading).decode .json decoder = .ok value := by
  rw [Json.decode_compact_of_kept decoder hkept]
  exact h written (.refl _) hlevels

/-- A text is read back. -/
theorem text_readsBack (levels : Nat) (s : String) : ReadsBack text levels (.string s) s := by
  intro v hv _
  cases hv
  rfl

/-- A boolean is read back. -/
theorem boolean_readsBack (levels : Nat) (b : Bool) : ReadsBack boolean levels (.bool b) b := by
  intro v hv _
  cases hv
  rfl

/-- The option of a word is read back from the word. -/
theorem choice_readsBack {options : List (String × α)} {word : String} {value : α}
    (h : chosen options word = .ok value) (levels : Nat) :
    ReadsBack (choice options) levels (.string word) value := by
  intro v hv _
  cases hv
  exact h

/-- What may be null and is not there is read back from null. -/
theorem optional_readsBack_null (decoder : Decoder α) (levels : Nat) :
    ReadsBack (optional decoder) levels .null none := by
  intro v hv _
  cases hv
  rfl

/-- What may be null and is there is read back where it is by itself. -/
theorem optional_readsBack {decoder : Decoder α} {written : Json} {value : α}
    (hnull : written ≠ .null) (h : ReadsBack decoder levels written value) :
    ReadsBack (optional decoder) levels written (some value) := by
  intro v hv hlevels
  refine optional_eq_ok ?_ (h v hv hlevels)
  -- Only null is null in another order.
  rintro rfl
  cases hv
  exact hnull rfl

/-- A text that may not be there is read back from the text or null. -/
theorem optional_text_readsBack (levels : Nat) (s : Option String) :
    ReadsBack (optional text) levels (.ofText? s) s := by
  cases s with
  | none => exact optional_readsBack_null text levels
  | some s =>
    have hnull : Json.string s ≠ .null := by simp
    exact optional_readsBack hnull (text_readsBack levels s)

/-- Sequences and mappings take a level, so there is one if there are levels enough. -/
theorem exists_below {v : Json} (h : v.nesting ≤ levels) (hv : 0 < v.nesting) :
    ∃ below, levels = below + 1 :=
  Nat.exists_eq_add_one.2 (Nat.lt_of_lt_of_le hv h)

/-- A list is read back if its items are, on the levels below. -/
theorem list_readsBack {item : Decoder α} {encode : β → Json} {read : β → α} {values : List β}
    (h : ∀ below, levels = below + 1 → ∀ x ∈ values, ReadsBack item below (encode x) (read x)) :
    ReadsBack (list item) levels (.array (values.map encode)) (values.map read) := by
  intro v hv hlevels
  generalize hwritten : values.map encode = written at hv
  cases hv with
  | @array items _ hitems =>
    obtain ⟨below, rfl⟩ := exists_below hlevels (Nat.succ_pos _)
    have hbelow : ∀ w ∈ items, w.nesting ≤ below := Json.nesting_array_le_iff.1 hlevels
    -- The items are read where they are; a list keeps its order.
    rw [← hwritten, List.forall₂_map_right_iff] at hitems
    refine list_eq_ok (List.forall₂_map_right_iff.2 ?_)
    exact forall₂_of_mem hitems fun w hw x hx hitem => h below rfl x hx w hitem (hbelow w hw)

/-- A JSON value that can be written is read back. -/
theorem json_readsBack {written : Json} (h : written.Writable levels) :
    ReadsBack json levels written written :=
  fun _ hv _ => json_of_reorders h hv

/-! ## Records -/

/-- A member is read by its field, in whatever order the members inside of its value come. -/
def ReadsMember (slots : List (Slot α)) (levels : Nat) (m : String × Json) (put : α → α) : Prop :=
  ∀ v : Json, v.Reorders m.2 → v.nesting ≤ levels → Reads slots levels (m.1, v) put

/-- A member is read if the decoder of its field reads its value back. -/
theorem ReadsMember.of_put {decoder : Decoder β} {put : β → α → α} {value : β} {slot : Slot α}
    {name : String} {written : Json}
    (hslot : slots.find? (fun slot => slot.name == name) = some slot)
    (hread : slot.read = fun format levels document => (decoder format levels document).map put)
    (h : ReadsBack decoder levels written value) :
    ReadsMember slots levels (name, written) (put value) := by
  intro v hv hlevels
  refine ⟨slot, hslot, ?_⟩
  rw [hread]
  dsimp only
  rw [h v hv hlevels]
  rfl

/-- Members whose names stay where they are have the same names. -/
theorem map_fst_of_memberReorders {placed written : List (String × Json)}
    (h : List.Forall₂ Json.MemberReorders placed written) :
    placed.map (·.1) = written.map (·.1) := by
  induction h with
  | nil => rfl
  | cons hmember _ ih =>
    cases hmember
    rw [List.map_cons, List.map_cons, ih]

/-- Members with reordered values are read as the members that were written. -/
theorem reads_of_memberReorders {placed written : List (String × Json)}
    (h : List.Forall₂ Json.MemberReorders placed written)
    (hlevels : ∀ m ∈ placed, m.2.nesting ≤ levels)
    (hreads : List.Forall₂ (ReadsMember slots levels) written puts) :
    List.Forall₂ (Reads slots levels) placed puts := by
  induction h generalizing puts with
  | nil =>
    cases hreads
    exact .nil
  | cons hmember _ ih =>
    obtain ⟨hfirst, hrest⟩ := List.forall_mem_cons.1 hlevels
    cases hmember with
    | mk hvalue =>
      cases hreads with
      | cons hread hreads => exact .cons (hread _ hvalue hfirst) (ih hrest hreads)

/-- A record is read back if its members are read on the levels below, and what they put into it
does not depend on who comes first. -/
theorem record_readsBack {name : String} {initial value : α} {written : List (String × Json)}
    (hreads : ∀ below, levels = below + 1 →
      List.Forall₂ (ReadsMember slots below) written puts)
    (hdistinct : (written.map (·.1)).Nodup)
    (hrequired : ∀ slot ∈ slots, slot.mayBeMissing = true ∨ slot.name ∈ written.map (·.1))
    (hcommute : puts.Pairwise Function.Commute) (hvalue : putAll puts initial = value) :
    ReadsBack (record name slots initial) levels (.object written) value := by
  intro v hv hlevels
  rw [← hvalue]
  cases hv with
  | @object members placed _ hperm hvalues =>
    -- The object itself takes a level, and its members are read on those below.
    obtain ⟨below, rfl⟩ := exists_below hlevels (Nat.succ_pos _)
    have hbelow : ∀ m ∈ placed, m.2.nesting ≤ below := fun m hm =>
      Json.nesting_object_le_iff.1 hlevels m (hperm.mem_iff.2 hm)
    rw [← map_fst_of_memberReorders hvalues] at hdistinct hrequired
    exact record_eq_ok_of_perm hperm (reads_of_memberReorders hvalues hbelow (hreads below rfl))
      hdistinct hrequired hcommute

end Decoder

end AuditedRules
