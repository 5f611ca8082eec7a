import AuditedRules.Proofs.Json.RoundTrip
import Mathlib.Data.List.Pairwise
import Mathlib.Logic.Function.Conjugate

/-!
# Records read from their members

A record that is written as an object is read member by member: the field of a member's name reads
its value and puts it into the record (`Reads`). If every member is read, no name stands twice and
no field is left out that has to be there, the record is what the members put together, one after
the other (`record_eq_ok`). The first member that is not read decides, however the members behind it
look (`record_eq_error`).

Where what different members put into a record does not depend on who comes first, the members may
come in any order (`record_eq_ok_of_perm`).
-/

namespace AuditedRules

namespace Decoder

variable {α : Type} {slots : List (Slot α)} {levels : Nat} {members : List (String × Json)}
  {puts : List (α → α)}

/-- A member is read by the field of its name, which has something to put into the record. -/
def Reads (slots : List (Slot α)) (levels : Nat) (m : String × Json) (put : α → α) : Prop :=
  ∃ slot, slots.find? (fun slot => slot.name == m.1) = some slot ∧
    slot.read .json levels m.2.toDocument = .ok put

/-- A record after some functions have put something into it, one after the other. -/
def putAll (puts : List (α → α)) (record : α) : α :=
  puts.foldl (fun record put => put record) record

/-- A member with a new name is asked of the field of its name. -/
theorem namedFields_cons {slot : Slot α} {name : String} {v : Json}
    (hslot : slots.find? (fun slot => slot.name == name) = some slot) {seen : List String}
    (hnew : name ∉ seen) (record : α) :
    namedFields slots .json levels (Json.memberDocuments ((name, v) :: members)) seen record = (do
      let put ← located (.member name) (slot.read .json levels v.toDocument)
      namedFields slots .json levels (Json.memberDocuments members) (name :: seen)
        (put record)) := by
  have hname : memberName .json "field identifier" (.string name) = .ok name := rfl
  have hseen : seen.contains name = false := by simpa using hnew
  rw [Json.memberDocuments, namedFields, hname]
  dsimp only [bind, Except.bind]
  rw [hslot]
  dsimp only
  rw [hseen, if_neg Bool.false_ne_true]

/-- Members that are all read put what they give into the record, one after the other; further
members follow. -/
theorem namedFields_append (hreads : List.Forall₂ (Reads slots levels) members puts)
    {seen : List String} (hdistinct : (members.map (·.1)).Nodup)
    (hnew : ∀ name ∈ members.map (·.1), name ∉ seen) (more : List (String × Json)) (record : α) :
    namedFields slots .json levels (Json.memberDocuments (members ++ more)) seen record =
      namedFields slots .json levels (Json.memberDocuments more)
        ((members.map (·.1)).reverse ++ seen)
        (putAll puts record) := by
  -- Each member puts its value into the record and its name among those seen.
  induction hreads generalizing seen record with
  | nil => rfl
  | @cons m put members puts hread _ ih =>
    obtain ⟨slot, hslot, hput⟩ := hread
    obtain ⟨hfirst, hrest⟩ := List.nodup_cons.1 hdistinct
    obtain ⟨hname, hnames⟩ := List.forall_mem_cons.1 hnew
    -- The names behind are not the one that has just been seen.
    have hlater : ∀ name ∈ members.map (·.1), name ∉ m.1 :: seen := by
      intro name hmem hseen
      rcases List.mem_cons.1 hseen with heq | hseen
      · rw [heq] at hmem
        exact hfirst hmem
      · exact hnames name hmem hseen
    rw [List.cons_append, namedFields_cons hslot hname, hput, List.map_cons, List.reverse_cons,
      List.append_assoc]
    exact ih hrest hlater (put record)

/-- A record is what its members put together, if each of them is read and no field is missing. -/
theorem record_eq_ok {name : String} {initial : α}
    (hreads : List.Forall₂ (Reads slots levels) members puts)
    (hdistinct : (members.map (·.1)).Nodup)
    (hrequired : ∀ slot ∈ slots, slot.mayBeMissing = true ∨ slot.name ∈ members.map (·.1)) :
    record name slots initial .json (levels + 1) (Json.object members).toDocument =
      .ok (putAll puts initial) := by
  have hread := namedFields_append hreads hdistinct (fun _ _ => List.not_mem_nil) [] initial
  rw [List.append_nil, List.append_nil] at hread
  -- The names seen are those of the members, so no field is missed among them.
  have hmissing : firstMissing? slots (members.map (·.1)).reverse = none := by
    unfold firstMissing?
    rw [Option.map_eq_none_iff, List.find?_eq_none]
    intro slot hslot hmissing
    rcases hrequired slot hslot with hmay | hthere
    · simp [hmay] at hmissing
    · rw [← List.mem_reverse] at hthere
      simp [hthere] at hmissing
  rw [Json.toDocument]
  show named slots .json levels (Json.memberDocuments members) true initial = _
  unfold named
  rw [hread]
  dsimp only [Json.memberDocuments, namedFields, bind, Except.bind]
  rw [hmissing]
  rfl

/-- A record is not read if one of its members is not, and those before it are. -/
theorem record_eq_error {name : String} {initial : α} {written more : List (String × Json)}
    {v : Json} {key : String} {slot : Slot α} {fault : Fault}
    (hreads : List.Forall₂ (Reads slots levels) members puts)
    (hdistinct : (members.map (·.1)).Nodup) (hnew : key ∉ members.map (·.1))
    (hslot : slots.find? (fun slot => slot.name == key) = some slot)
    (hfault : slot.read .json levels v.toDocument = .error fault)
    (hwritten : written = members ++ (key, v) :: more) :
    record name slots initial .json (levels + 1) (Json.object written).toDocument =
      .error (fault.within (.member key)) := by
  have hseen : key ∉ (members.map (·.1)).reverse ++ [] := by
    rw [List.append_nil, List.mem_reverse]
    exact hnew
  rw [hwritten, Json.toDocument]
  show named slots .json levels (Json.memberDocuments (members ++ (key, v) :: more)) true initial =
    _
  unfold named
  rw [namedFields_append hreads hdistinct (fun _ _ => List.not_mem_nil),
    namedFields_cons hslot hseen, hfault]
  rfl

/-- Two functions commute when it does not matter which of them is applied first. -/
theorem commute_iff {f g : α → α} : Function.Commute f g ↔ ∀ a, f (g a) = g (f a) :=
  Iff.rfl

/-- The members of a record may come in any order, if what they put into it does not depend on
who comes first. -/
theorem record_eq_ok_of_perm {name : String} {initial : α} {placed : List (String × Json)}
    (hperm : members.Perm placed) (hreads : List.Forall₂ (Reads slots levels) placed puts)
    (hdistinct : (placed.map (·.1)).Nodup)
    (hrequired : ∀ slot ∈ slots, slot.mayBeMissing = true ∨ slot.name ∈ placed.map (·.1))
    (hcommute : puts.Pairwise Function.Commute) :
    record name slots initial .json (levels + 1) (Json.object members).toDocument =
      .ok (putAll puts initial) := by
  have hnames : (members.map (·.1)).Perm (placed.map (·.1)) := hperm.map _
  -- What is put into the record comes in the order of the members.
  obtain ⟨puts', hreads', hputs⟩ := List.perm_comp_forall₂ hperm hreads
  have hall : ∀ put ∈ puts, ∀ put' ∈ puts, Function.Commute put put' :=
    hcommute.forall_of_forall_of_flip (fun put _ => .refl put) (hcommute.imp .symm)
  have hfold : putAll puts' initial = putAll puts initial := by
    refine hputs.foldl_eq' (fun put hput put' hput' record => ?_) initial
    exact hall put' (hputs.mem_iff.1 hput') put (hputs.mem_iff.1 hput) record
  rw [← hfold]
  refine record_eq_ok hreads' (hnames.nodup_iff.2 hdistinct) fun slot hslot => ?_
  rcases hrequired slot hslot with hmay | hthere
  · exact .inl hmay
  · exact .inr (hnames.mem_iff.2 hthere)

/-! ## Parts of records -/

/-- An array is decoded as the list of what its items are decoded as. -/
theorem list_eq_ok {item : Decoder α} {items : List Json} {values : List α}
    (h : List.Forall₂ (fun v value => item .json levels v.toDocument = .ok value) items values) :
    list item .json (levels + 1) (Json.array items).toDocument = .ok values := by
  have hitems : Decoder.items (item .json levels) 0 (items.map Json.toDocument) = .ok values :=
    items_eq_ok (List.forall₂_map_left_iff.2 h) 0
  rw [Json.toDocument, Json.itemDocuments_eq_map]
  dsimp only [list, bind, Except.bind]
  rw [hitems]
  rfl

/-- Where a value may be null, any other value is decoded as it would be elsewhere. -/
theorem optional_eq_ok {decoder : Decoder α} {v : Json} {value : α} (hnull : v ≠ .null)
    (h : decoder .json levels v.toDocument = .ok value) :
    optional decoder .json levels v.toDocument = .ok (some value) := by
  have hscalar : v.toDocument.scalar? ≠ some .null := by
    cases v with
    | null => exact absurd rfl hnull
    | number n => cases n <;> simp [Json.toDocument, Document.scalar?]
    | _ => simp [Json.toDocument, Document.scalar?]
  unfold optional
  split
  · rename_i hfound
    exact absurd hfound hscalar
  · rw [h]
    rfl

end Decoder

end AuditedRules
