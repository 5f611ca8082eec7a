import AuditedRules.OrderedMap
import AuditedRules.Proofs.Json.Members

/-!
# What a map says of a name

A map that is made from a list of entries says of a name what the last entry for it says
(`OrderedMap.get?_ofList`), so it defines the names of the list and no others
(`OrderedMap.isSome_get?_ofList`). What it says of all names determines a map
(`OrderedMap.ext_get?`), so the map of the entries of a map is that map
(`OrderedMap.ofList_entries`).
-/

namespace AuditedRules

variable {α : Type}

/-- Of two lists one after the other, the first counts that says something of a name. -/
theorem entryValue?_append (name : String) (front back : List (String × α)) :
    entryValue? name (front ++ back) = (entryValue? name front).or (entryValue? name back) := by
  induction front with
  | nil => rfl
  | cons head rest ih =>
    rw [List.cons_append, entryValue?, entryValue?, ih]
    split <;> rfl

/-- A list of entries says something of the names in it. -/
theorem isSome_entryValue?_iff {name : String} {entries : List (String × α)} :
    (entryValue? name entries).isSome = true ↔ name ∈ entries.map (·.1) := by
  induction entries with
  | nil => simp [entryValue?]
  | cons head rest ih =>
    rw [List.map_cons, List.mem_cons, ← ih, entryValue?]
    split
    · rename_i hkey
      simp [hkey]
    · rename_i hkey
      exact (or_iff_right fun h => hkey h.symm).symm

/-- Entries with different names say what they are. -/
theorem entryValue?_eq_some_iff {name : String} {value : α} {entries : List (String × α)}
    (distinct : entries.Pairwise fun a b => a.1 ≠ b.1) :
    entryValue? name entries = some value ↔ (name, value) ∈ entries := by
  refine ⟨mem_of_entryValue?, fun hmem => ?_⟩
  induction entries with
  | nil => cases hmem
  | cons head rest ih =>
    obtain ⟨hhead, hrest⟩ := List.pairwise_cons.1 distinct
    rw [entryValue?]
    rcases List.mem_cons.1 hmem with rfl | hmem
    · exact if_pos rfl
    · rw [if_neg (hhead _ hmem)]
      exact ih hrest hmem

/-- Entries with different names say the same in whichever direction they are read. -/
theorem entryValue?_reverse (name : String) {entries : List (String × α)}
    (distinct : entries.Pairwise fun a b => a.1 ≠ b.1) :
    entryValue? name entries.reverse = entryValue? name entries := by
  have hreverse : entries.reverse.Pairwise fun a b => a.1 ≠ b.1 :=
    List.pairwise_reverse.2 (distinct.imp Ne.symm)
  refine Option.ext fun value => ?_
  rw [entryValue?_eq_some_iff hreverse, entryValue?_eq_some_iff distinct, List.mem_reverse]

namespace OrderedMap

/-- The names of a map are different. -/
theorem distinct (map : OrderedMap α) : map.entries.Pairwise fun a b => a.1 ≠ b.1 :=
  map.ascending.imp fun hlt => String.ne_of_lt hlt

/-- A map says what its entries are. -/
theorem get?_eq_some_iff {map : OrderedMap α} {name : String} {value : α} :
    map.get? name = some value ↔ (name, value) ∈ map.entries :=
  entryValue?_eq_some_iff map.distinct

/-- Maps that say the same of all names are the same. -/
theorem ext_get? {map map' : OrderedMap α} (h : ∀ name, map.get? name = map'.get? name) :
    map = map' := by
  have hentries : map.entries = map'.entries :=
    List.Pairwise.eq_of_mem_iff map.ascending map'.ascending fun e => by
      rw [← get?_eq_some_iff, ← get?_eq_some_iff, h]
  cases map
  cases map'
  cases hentries
  rfl

/-- After a name is set, the map has its new value for it, and for other names what it had
before. -/
theorem get?_insert (map : OrderedMap α) (name : String) (value : α) (key : String) :
    (map.insert name value).get? key = if name = key then some value else map.get? key :=
  entryValue?_setEntry name key value map.entries

/-- Entries that are set one after the other say of a name what the last of them says, and where
they say nothing the map says what it said before. -/
theorem get?_foldl_insert (entries : List (String × α)) (map : OrderedMap α) (name : String) :
    (entries.foldl (fun map e => map.insert e.1 e.2) map).get? name =
      (entryValue? name entries.reverse).or (map.get? name) := by
  induction entries generalizing map with
  | nil => rfl
  | cons head rest ih =>
    have hhead : (map.insert head.1 head.2).get? name =
        (entryValue? name [head]).or (map.get? name) := by
      rw [get?_insert, entryValue?, entryValue?]
      split <;> rfl
    rw [List.foldl_cons, ih, hhead, List.reverse_cons, entryValue?_append, Option.or_assoc]

/-- Of a name, the map of a list of entries says what the last entry for it says. -/
theorem get?_ofList (entries : List (String × α)) (name : String) :
    (ofList entries).get? name = entryValue? name entries.reverse := by
  rw [ofList, get?_foldl_insert]
  exact Option.or_none

/-- The map of the entries of a map is the map. -/
theorem ofList_entries (map : OrderedMap α) : ofList map.entries = map :=
  ext_get? fun name => by rw [get?_ofList, entryValue?_reverse name map.distinct, get?]

/-- The map of a list of entries defines the names in the list. -/
theorem isSome_get?_ofList {entries : List (String × α)} {name : String} :
    ((ofList entries).get? name).isSome = true ↔ name ∈ entries.map (·.1) := by
  rw [get?_ofList, isSome_entryValue?_iff, List.map_reverse, List.mem_reverse]

end OrderedMap

end AuditedRules
