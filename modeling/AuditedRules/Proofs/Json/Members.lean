import AuditedRules.Json.Basic
import Mathlib.Data.List.Sort

/-!
# Members of objects

What setting an entry does to a list of entries, seen from the outside: which entries are in the
list afterwards (`mem_setEntry_iff`) and what it says of a name (`entryValue?_setEntry`). An object
built from members that all have different names has exactly these members (`mem_ofMembers_iff`),
whatever their order, and has them in ascending order (`ofMembers_of_perm`).

A member of an object is smaller than the object, so definitions and proofs may go down from a value
to its members (`sizeOf_get?_lt`).
-/

namespace AuditedRules

/-- After a name is set, the list says the new value of it and of other names what it said
before. -/
theorem entryValue?_setEntry {α : Type} (name key : String) (value : α)
    (entries : List (String × α)) :
    entryValue? key (setEntry name value entries) =
      if name = key then some value else entryValue? key entries := by
  induction entries with
  | nil => rfl
  | cons head rest ih =>
    obtain ⟨first, other⟩ := head
    unfold setEntry
    split
    · rename_i hlt
      rw [entryValue?, entryValue?, ih]
      split
      · rename_i hfirst
        rw [← hfirst, if_neg (String.ne_of_lt hlt).symm]
      · rfl
    · rename_i hnlt
      split
      · rfl
      · rename_i hngt
        have heq : first = name := String.le_antisymm (String.not_lt.1 hngt) (String.not_lt.1 hnlt)
        rw [entryValue?, entryValue?, heq]
        split <;> rfl

/-- What a list of entries says of a name is one of its entries. -/
theorem mem_of_entryValue? {α : Type} {name : String} {value : α} {entries : List (String × α)}
    (h : entryValue? name entries = some value) : (name, value) ∈ entries := by
  induction entries with
  | nil => cases h
  | cons head rest ih =>
    obtain ⟨key, other⟩ := head
    rw [entryValue?] at h
    split at h
    · rename_i hkey
      cases h
      rw [hkey]
      exact List.mem_cons_self
    · exact List.mem_cons_of_mem _ (ih h)

/-- Setting a name that is not in the list adds one entry. -/
theorem mem_setEntry_iff {α : Type} {name : String} {value : α} {entries : List (String × α)}
    (fresh : ∀ e ∈ entries, e.1 ≠ name) (e : String × α) :
    e ∈ setEntry name value entries ↔ e = (name, value) ∨ e ∈ entries := by
  induction entries with
  | nil => simp [setEntry]
  | cons head rest ih =>
    obtain ⟨key, other⟩ := head
    have hrest := ih fun e he => fresh e (List.mem_cons_of_mem _ he)
    unfold setEntry
    split
    · rw [List.mem_cons, hrest, List.mem_cons, or_left_comm]
    · rename_i hnlt
      split
      · rw [List.mem_cons]
      · rename_i hngt
        have heq : key = name := String.le_antisymm (String.not_lt.1 hngt) (String.not_lt.1 hnlt)
        exact absurd heq (fresh (key, other) List.mem_cons_self)

/-- Setting names that differ from each other and from those in the list adds their entries. -/
theorem mem_foldl_setEntry_iff {α : Type} {members entries : List (String × α)}
    (distinct : members.Pairwise fun a b => a.1 ≠ b.1)
    (fresh : ∀ m ∈ members, ∀ e ∈ entries, e.1 ≠ m.1) (e : String × α) :
    e ∈ members.foldl (fun entries m => setEntry m.1 m.2 entries) entries ↔
      e ∈ members ∨ e ∈ entries := by
  induction members generalizing entries with
  | nil => simp
  | cons first rest ih =>
    obtain ⟨hfirst, hrest⟩ := List.pairwise_cons.1 distinct
    -- The first name is set, and those of the rest are still not in the list.
    have hmem : ∀ e, e ∈ setEntry first.1 first.2 entries ↔ e = first ∨ e ∈ entries :=
      mem_setEntry_iff (fresh first List.mem_cons_self)
    have hfresh : ∀ m ∈ rest, ∀ e ∈ setEntry first.1 first.2 entries, e.1 ≠ m.1 := by
      intro m hm e he
      rcases (hmem e).1 he with rfl | he
      · exact hfirst m hm
      · exact fresh m (List.mem_cons_of_mem _ hm) e he
    rw [List.foldl_cons, ih hrest hfresh, hmem, List.mem_cons, or_left_comm, or_assoc]

/-- Setting names keeps the ascending order. -/
theorem ascending_foldl_setEntry {α : Type} {members entries : List (String × α)}
    (h : Ascending entries) :
    Ascending (members.foldl (fun entries m => setEntry m.1 m.2 entries) entries) := by
  induction members generalizing entries with
  | nil => exact h
  | cons first rest ih => exact ih (ascending_setEntry first.1 first.2 entries h)

/-- Members ascend when their names do. -/
theorem ascending_of_names {α : Type} {members : List (String × α)}
    (h : (members.map (·.1)).Pairwise (· < ·)) : Ascending members :=
  List.pairwise_map.1 h

namespace Json

/-- The members of an object built from members with different names are these members. -/
theorem mem_ofMembers_iff {members : List (String × Json)}
    (distinct : members.Pairwise fun a b => a.1 ≠ b.1) :
    ∃ entries, ofMembers members = .object entries ∧ ∀ e, e ∈ entries ↔ e ∈ members := by
  refine ⟨_, rfl, fun e => ?_⟩
  rw [mem_foldl_setEntry_iff distinct (by simp)]
  simp

/-- An object built from members in any order has them in ascending order. -/
theorem ofMembers_of_perm {members placed : List (String × Json)} (hperm : members.Perm placed)
    (h : Ascending placed) : ofMembers members = .object placed := by
  have hplaced : placed.Pairwise fun a b => a.1 ≠ b.1 := h.imp fun hlt => String.ne_of_lt hlt
  have hdistinct : members.Pairwise fun a b => a.1 ≠ b.1 := (hperm.pairwise_iff Ne.symm).2 hplaced
  have hsame : members.foldl (fun entries m => setEntry m.1 m.2 entries) [] = placed := by
    refine List.Pairwise.eq_of_mem_iff (ascending_foldl_setEntry List.Pairwise.nil) h fun e => ?_
    rw [mem_foldl_setEntry_iff hdistinct (fun _ _ _ he => absurd he List.not_mem_nil),
      hperm.mem_iff]
    exact or_iff_left List.not_mem_nil
  exact congrArg object hsame

/-- Only an object has members. -/
theorem exists_object_of_get? {v m : Json} {name : String} (h : v.get? name = some m) :
    ∃ members, v = .object members := by
  cases v with
  | object members => exact ⟨members, rfl⟩
  | _ => cases h

/-- A member of an object is smaller than the object. -/
theorem sizeOf_get?_lt {v m : Json} {name : String} (h : v.get? name = some m) :
    sizeOf m < sizeOf v := by
  obtain ⟨members, rfl⟩ := exists_object_of_get? h
  have hm := List.sizeOf_lt_of_mem (mem_of_entryValue? h)
  simp only [Prod.mk.sizeOf_spec] at hm
  simp only [Json.object.sizeOf_spec]
  omega

end Json

end AuditedRules
