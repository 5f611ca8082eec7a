import AuditedRules.Proofs.Json.Numbers
import AuditedRules.Proofs.Json.RoundTrip

/-!
# Levels of a document

The levels that a decoder may open decide whether a document is read and never what is read. A
document that is read as a JSON value on some number of levels is read as the same value on as many
levels as it has, and on more; on fewer it is nested too deep (`Decoder.json_eq_ite`). All sequences
and mappings count, also those that the value does not keep because a later member has their name,
so the value may have fewer levels than the document and never has more
(`Decoder.nesting_le_of_json`).

That a document is nested too deep is what is found first, because everything in front of the place
is read.
-/

namespace AuditedRules

namespace Document

mutual

/-- The number of levels of sequences and mappings in a document, those in names apart. -/
def nesting : Document → Nat
  | .sequence items _ => itemsNesting items + 1
  | .mapping members _ => membersNesting members + 1
  | .null => 0
  | .bool _ => 0
  | .number _ => 0
  | .string _ => 0
  | .plain _ => 0
  | .unreadable => 0
  | .broken => 0

/-- The greatest number of levels in one of the items. -/
def itemsNesting : List Document → Nat
  | [] => 0
  | item :: items => max (nesting item) (itemsNesting items)

/-- The greatest number of levels in the value of one of the members. -/
def membersNesting : List (Document × Document) → Nat
  | [] => 0
  | (_, value) :: members => max (nesting value) (membersNesting members)

end

end Document

namespace Json

mutual

/-- The document of a value has the levels of the value. -/
theorem nesting_toDocument : ∀ v : Json, v.toDocument.nesting = v.nesting
  | .null => rfl
  | .bool _ => rfl
  | .number _ => rfl
  | .string _ => rfl
  | .array items => by rw [toDocument, Document.nesting, nesting_itemDocuments items, nesting]
  | .object members => by
    rw [toDocument, Document.nesting, nesting_memberDocuments members, nesting]

/-- The documents of items have as many levels as the items. -/
theorem nesting_itemDocuments :
    ∀ items : List Json, Document.itemsNesting (itemDocuments items) = itemsNesting items
  | [] => rfl
  | item :: items => by
    rw [itemDocuments, Document.itemsNesting, nesting_toDocument item, nesting_itemDocuments items,
      itemsNesting]

/-- The documents of members have as many levels as the values of the members. -/
theorem nesting_memberDocuments : ∀ members : List (String × Json),
    Document.membersNesting (memberDocuments members) = membersNesting members
  | [] => rfl
  | (name, value) :: members => by
    rw [memberDocuments, Document.membersNesting, nesting_toDocument value,
      nesting_memberDocuments members, membersNesting]

end

/-- A member has fewer levels than the object. -/
theorem nesting_lt_of_get? {v m : Json} {name : String} (h : v.get? name = some m) :
    m.nesting < v.nesting := by
  obtain ⟨members, rfl⟩ := exists_object_of_get? h
  have hlevels := nesting_object_le_iff.1 (Nat.le_refl (object members).nesting)
  exact Nat.lt_succ_of_le (hlevels (name, m) (mem_of_entryValue? h))

end Json

/-- An entry of a list in which entries were set is one of those that were set, or was there before.
-/
theorem mem_foldl_setEntry {α : Type} {members entries : List (String × α)} {e : String × α}
    (h : e ∈ members.foldl (fun entries m => setEntry m.1 m.2 entries) entries) :
    e ∈ members ∨ e ∈ entries := by
  induction members generalizing entries with
  | nil => exact .inr h
  | cons first rest ih =>
    rcases ih h with h | h
    · exact .inl (List.mem_cons_of_mem _ h)
    · rcases mem_setEntry _ _ _ e h with rfl | h
      · exact .inl List.mem_cons_self
      · exact .inr h

namespace Decoder

variable {α : Type} {format : Format} {levels : Nat} {d : Document} {v : Json}

/-! ## Items and members -/

/-- Items that are read are read one by one. -/
theorem forall₂_of_items {item : Document → Except Fault α} {index : Nat}
    {documents : List Document} {values : List α} (h : items item index documents = .ok values) :
    List.Forall₂ (fun d value => item d = .ok value) documents values := by
  induction documents generalizing index values with
  | nil =>
    cases h
    exact .nil
  | cons d documents ih =>
    obtain ⟨first, hfirst, h⟩ := bind_eq_ok_iff.1 h
    obtain ⟨rest, hrest, h⟩ := bind_eq_ok_iff.1 h
    cases h
    exact .cons (mapError_eq_ok_iff.1 hfirst) (ih hrest)

/-- Members that are read are read one by one, each with its name. -/
theorem forall₂_of_members {value : Document → Except Fault α}
    {documents : List (Document × Document)} {entries : List (String × α)}
    (h : members format value documents = .ok entries) :
    List.Forall₂ (fun d entry => memberName format "a string key" d.1 = .ok entry.1 ∧
      value d.2 = .ok entry.2) documents entries := by
  induction documents generalizing entries with
  | nil =>
    cases h
    exact .nil
  | cons d documents ih =>
    obtain ⟨name, hname, h⟩ := bind_eq_ok_iff.1 h
    obtain ⟨first, hfirst, h⟩ := bind_eq_ok_iff.1 h
    obtain ⟨others, hothers, h⟩ := bind_eq_ok_iff.1 h
    cases h
    exact .cons ⟨hname, mapError_eq_ok_iff.1 hfirst⟩ (ih hothers)

/-- Items that only the levels keep from being read are read when the levels are enough for all. -/
theorem items_eq_ite {item : Document → Except Fault α} {documents : List Document}
    {values : List α} (h : List.Forall₂ (fun d value =>
      item d = if d.nesting ≤ levels then .ok value else .error .tooDeep) documents values)
    (index : Nat) :
    items item index documents =
      if Document.itemsNesting documents ≤ levels then .ok values else .error .tooDeep := by
  induction h generalizing index with
  | nil => rfl
  | @cons d value documents values hfirst _ ih =>
    rw [items, hfirst, ih, Document.itemsNesting]
    simp only [Nat.max_le]
    by_cases hd : d.nesting ≤ levels
    · simp only [hd, if_true, true_and]
      split <;> rfl
    · simp only [hd, if_false, false_and]
      rfl

/-- Members with names whose values only the levels keep from being read are read when the levels
are enough for all. -/
theorem members_eq_ite {value : Document → Except Fault α}
    {documents : List (Document × Document)} {entries : List (String × α)}
    (h : List.Forall₂ (fun d entry => memberName format "a string key" d.1 = .ok entry.1 ∧
      value d.2 = if d.2.nesting ≤ levels then .ok entry.2 else .error .tooDeep)
      documents entries) :
    members format value documents =
      if Document.membersNesting documents ≤ levels then .ok entries else .error .tooDeep := by
  induction h with
  | nil => rfl
  | @cons d entry documents entries hfirst _ ih =>
    obtain ⟨key, document⟩ := d
    obtain ⟨hname, hvalue⟩ := hfirst
    rw [members, hname, hvalue, ih, Document.membersNesting]
    simp only [Nat.max_le]
    by_cases hd : document.nesting ≤ levels
    · simp only [hd, if_true, true_and]
      split <;> rfl
    · simp only [hd, if_false, false_and]
      rfl

/-! ## Values -/

/-- A document that is read on some levels is read as the same value on as many as it has, and is
nested too deep on fewer. -/
theorem json_eq_ite (h : json format levels d = .ok v) (bound : Nat) :
    json format bound d = if d.nesting ≤ bound then .ok v else .error .tooDeep := by
  induction levels generalizing d v bound with
  | zero =>
    cases d with
    | sequence documents closed => cases h
    | mapping documents closed => cases h
    | _ => cases bound <;> exact h
  | succ levels ih =>
    cases d with
    | sequence documents closed =>
      obtain ⟨values, hvalues, h⟩ := bind_eq_ok_iff.1 h
      obtain ⟨rfl, rfl⟩ := finish_eq_ok_iff.1 h
      cases bound with
      | zero => rfl
      | succ below =>
        -- The items are read on the levels below, so only their own levels decide.
        have hitems : List.Forall₂ (fun d value => json format below d =
            if d.nesting ≤ below then .ok value else .error .tooDeep) documents values :=
          (forall₂_of_items hvalues).imp fun d value hread => ih hread below
        rw [json, items_eq_ite hitems, Document.nesting]
        simp only [Nat.add_le_add_iff_right]
        split <;> rfl
    | mapping documents closed =>
      obtain ⟨entries, hentries, h⟩ := bind_eq_ok_iff.1 h
      obtain ⟨rfl, rfl⟩ := finish_eq_ok_iff.1 h
      cases bound with
      | zero => rfl
      | succ below =>
        -- Names take no levels, so only those of the values decide.
        have hmembers : List.Forall₂ (fun d entry =>
            memberName format "a string key" d.1 = .ok entry.1 ∧ json format below d.2 =
              if d.2.nesting ≤ below then .ok entry.2 else .error .tooDeep) documents entries :=
          (forall₂_of_members hentries).imp fun d entry hread => ⟨hread.1, ih hread.2 below⟩
        rw [json, members_eq_ite hmembers, Document.nesting]
        simp only [Nat.add_le_add_iff_right]
        split <;> rfl
    | _ => cases bound <;> exact h

/-- A leaf is read as a value without levels. -/
theorem nesting_of_leafJson (h : leafJson d = .ok v) : v.nesting = 0 := by
  unfold leafJson at h
  split at h
  · rename_i value hvalue
    cases value with
    | float x =>
      have hv : (if x.isFinite then Json.number (.float x) else .null) = v := Except.ok.inj h
      rw [← hv]
      split <;> rfl
    | wide i => cases h
    | _ =>
      cases h
      rfl
  · cases h

/-- What is read on some levels has no more of them. -/
theorem nesting_le_of_json (h : json format levels d = .ok v) : v.nesting ≤ levels := by
  induction levels generalizing d v with
  | zero =>
    cases d with
    | sequence documents closed => cases h
    | mapping documents closed => cases h
    | _ => exact Nat.le_of_eq (nesting_of_leafJson h)
  | succ levels ih =>
    cases d with
    | sequence documents closed =>
      obtain ⟨values, hvalues, h⟩ := bind_eq_ok_iff.1 h
      obtain ⟨-, rfl⟩ := finish_eq_ok_iff.1 h
      refine Json.nesting_array_le_iff.2 fun value hvalue => ?_
      obtain ⟨d, -, hread⟩ := exists_mem_of_items hvalues hvalue
      exact ih hread
    | mapping documents closed =>
      obtain ⟨entries, hentries, h⟩ := bind_eq_ok_iff.1 h
      obtain ⟨-, rfl⟩ := finish_eq_ok_iff.1 h
      refine Json.nesting_object_le_iff.2 fun m hm => ?_
      -- What is kept is one of the members read.
      rcases mem_foldl_setEntry hm with hm | hm
      · obtain ⟨d, -, hread⟩ := exists_mem_of_members hentries hm
        exact ih hread
      · cases hm
    | _ => exact Nat.le_trans (Nat.le_of_eq (nesting_of_leafJson h)) (Nat.zero_le _)

end Decoder

end AuditedRules
