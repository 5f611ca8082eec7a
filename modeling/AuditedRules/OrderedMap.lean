/-!
# Maps in key order

A map from names to values, kept as the list of its entries in strictly ascending order of names.
Names are ordered by their characters, which is also the order of their encoded bytes, so the list
is determined by what the map says of each name.
-/

namespace AuditedRules

/-- Sets the entry of a name in a list of entries in ascending order. -/
def setEntry {α : Type} (name : String) (value : α) : List (String × α) → List (String × α)
  | [] => [(name, value)]
  | (key, other) :: rest =>
    if key < name then (key, other) :: setEntry name value rest
    else if name < key then (name, value) :: (key, other) :: rest
    else (name, value) :: rest

/-- The value that a list of entries gives to a name. -/
def entryValue? {α : Type} (name : String) : List (String × α) → Option α
  | [] => none
  | (key, value) :: rest => if key = name then some value else entryValue? name rest

/-- Strictly ascending names. -/
def Ascending {α : Type} (entries : List (String × α)) : Prop :=
  entries.Pairwise fun a b => a.1 < b.1

/-- The names after an entry is set are the name and the names from before. -/
theorem mem_setEntry {α : Type} (name : String) (value : α) (entries : List (String × α))
    (e : String × α) (h : e ∈ setEntry name value entries) : e = (name, value) ∨ e ∈ entries := by
  induction entries with
  | nil => simpa [setEntry] using h
  | cons head rest ih =>
    unfold setEntry at h
    split at h
    · rcases List.mem_cons.1 h with rfl | h
      · exact .inr (List.mem_cons_self ..)
      · rcases ih h with h | h
        · exact .inl h
        · exact .inr (List.mem_cons_of_mem _ h)
    · split at h
      · simpa using h
      · rcases List.mem_cons.1 h with h | h
        · exact .inl h
        · exact .inr (List.mem_cons_of_mem _ h)

/-- Setting an entry keeps the ascending order. -/
theorem ascending_setEntry {α : Type} (name : String) (value : α) (entries : List (String × α))
    (h : Ascending entries) : Ascending (setEntry name value entries) := by
  unfold Ascending at h ⊢
  induction entries with
  | nil => simp [setEntry]
  | cons head rest ih =>
    obtain ⟨hhead, hrest⟩ := List.pairwise_cons.1 h
    unfold setEntry
    split
    · rename_i hlt
      refine List.pairwise_cons.2 ⟨fun e he => ?_, ih hrest⟩
      rcases mem_setEntry name value rest e he with rfl | he
      · exact hlt
      · exact hhead e he
    · rename_i hnlt
      split
      · rename_i hlt
        refine List.pairwise_cons.2 ⟨fun e he => ?_, h⟩
        rcases List.mem_cons.1 he with rfl | he
        · exact hlt
        · exact String.lt_trans hlt (hhead e he)
      · rename_i hngt
        have heq : head.1 = name := by
          exact String.le_antisymm (String.not_lt.1 hngt) (String.not_lt.1 hnlt)
        refine List.pairwise_cons.2 ⟨fun e he => ?_, hrest⟩
        rw [← heq]
        exact hhead e he

/-- A map from names to values. -/
structure OrderedMap (α : Type) where
  /-- The entries, in ascending order of names. -/
  entries : List (String × α)
  /-- No name occurs twice, and the names ascend. -/
  ascending : Ascending entries

namespace OrderedMap

variable {α : Type}

/-- The map without entries. -/
def empty : OrderedMap α :=
  ⟨[], List.Pairwise.nil⟩

/-- Sets the value of a name. -/
def insert (map : OrderedMap α) (name : String) (value : α) : OrderedMap α :=
  ⟨setEntry name value map.entries, ascending_setEntry name value map.entries map.ascending⟩

/-- The value of a name. -/
def get? (map : OrderedMap α) (name : String) : Option α :=
  entryValue? name map.entries

/-- The map of a list of entries, of which the last for a name counts. -/
def ofList (entries : List (String × α)) : OrderedMap α :=
  entries.foldl (fun map e => map.insert e.1 e.2) empty

/-- The names in ascending order. -/
def keys (map : OrderedMap α) : List String :=
  map.entries.map (·.1)

/-- The number of entries. -/
def size (map : OrderedMap α) : Nat :=
  map.entries.length

end OrderedMap

end AuditedRules
