import AuditedRules.Predicate.Basic

/-!
# The fields of a predicate by recursion

`Predicate.fieldNames` walks a tree with an explicit stack and writes every name down once.
`fieldLeaves` lists the names of the leaves by recursion, from left to right and with repetitions.
The walk finds these names and leaves out the repetitions (`fieldNames_eq`), so the fields of a
predicate are the names of its leaves (`mem_fieldNames_iff`).

The invariant of the walk speaks of an arbitrary stack: the leaves of the trees on the stack are
added one after the other to the names found so far (`gatherNames_eq`). One step replaces a tree by
its operands, which have the leaves of the tree unless it is a leaf itself (`foldl_fieldLeaves`).

Leaving out repetitions does not change which name comes first of those with a property
(`find?_fieldNames`).
-/

namespace AuditedRules.Predicate

/-- The names of the field leaves, from left to right. -/
def fieldLeaves : Predicate → List String
  | .const _ => []
  | .field name => [name]
  | .arithmetic _ left right => left.fieldLeaves ++ right.fieldLeaves
  | .comparison _ left right => left.fieldLeaves ++ right.fieldLeaves
  | .logical _ left right => left.fieldLeaves ++ right.fieldLeaves
  | .not operand => operand.fieldLeaves

/-- The leaves of an operand are leaves of the tree. -/
theorem mem_fieldLeaves_of_mem_operands {p q : Predicate} {name : String} (hq : q ∈ p.operands)
    (h : name ∈ q.fieldLeaves) : name ∈ p.fieldLeaves := by
  -- A tree that is no leaf has exactly the leaves of its operands.
  cases p <;> simp only [operands, List.mem_cons, List.not_mem_nil, or_false] at hq <;>
    simp only [fieldLeaves, List.mem_append]
  case not operand => exact hq ▸ h
  all_goals
    rcases hq with rfl | rfl
    · exact .inl h
    · exact .inr h

/-- A tree that is no field leaf has the leaves of its operands. -/
theorem fieldLeaves_eq_flatMap {p : Predicate} (h : ∀ name, p ≠ .field name) :
    p.fieldLeaves = p.operands.flatMap fieldLeaves := by
  cases p with
  | field name => exact absurd rfl (h name)
  | _ => simp [fieldLeaves, operands]

/-! ## The walk -/

/-- The name of the root and then the leaves of the operands are added like the leaves of the
tree. -/
theorem foldl_fieldLeaves (p : Predicate) (names : List String) :
    (p.operands.flatMap fieldLeaves).foldl addName (addRootName names p) =
      p.fieldLeaves.foldl addName names := by
  cases p <;> simp [operands, fieldLeaves, addRootName]

/-- The walk adds the leaves of the trees on the stack one after the other. -/
theorem gatherNames_eq (stack : List Predicate) (names : List String) :
    gatherNames stack names = (stack.flatMap fieldLeaves).foldl addName names := by
  fun_induction gatherNames stack names with
  | case1 names => rfl
  | case2 names p rest ih =>
    rw [ih, List.flatMap_append, List.foldl_append, foldl_fieldLeaves, List.flatMap_cons,
      List.foldl_append]

/-- The fields are the names of the leaves, each at its first occurrence. -/
theorem fieldNames_eq (p : Predicate) : p.fieldNames = p.fieldLeaves.foldl addName [] := by
  rw [fieldNames, gatherNames_eq, List.flatMap_cons, List.flatMap_nil, List.append_nil]

/-! ## Membership -/

/-- Adding a name adds at most this name. -/
theorem mem_addName_iff {names : List String} {added name : String} :
    name ∈ addName names added ↔ name ∈ names ∨ name = added := by
  unfold addName
  split
  · rename_i hthere
    rw [List.contains_iff_mem] at hthere
    constructor
    · exact .inl
    · rintro (h | rfl)
      · exact h
      · exact hthere
  · rw [List.mem_append, List.mem_singleton]

/-- Adding names one after the other adds just these names. -/
theorem mem_foldl_addName_iff {added names : List String} {name : String} :
    name ∈ added.foldl addName names ↔ name ∈ names ∨ name ∈ added := by
  induction added generalizing names with
  | nil => rw [List.foldl_nil, List.mem_nil_iff, or_false]
  | cons first rest ih => rw [List.foldl_cons, ih, mem_addName_iff, List.mem_cons, or_assoc]

/-- A name is a field of a predicate exactly when a leaf has it. -/
theorem mem_fieldNames_iff {p : Predicate} {name : String} :
    name ∈ p.fieldNames ↔ name ∈ p.fieldLeaves := by
  rw [fieldNames_eq, mem_foldl_addName_iff, List.mem_nil_iff, false_or]

/-! ## Repetitions -/

/-- Adding a name to names without repetitions leaves out one more repetition, or none. -/
theorem addName_eraseDups (names : List String) (name : String) :
    addName names.eraseDups name = (names ++ [name]).eraseDups := by
  unfold addName
  rw [List.eraseDups_append]
  by_cases hthere : name ∈ names <;> simp [List.removeAll, List.eraseDups_cons, hthere]

/-- Adding names one after the other leaves out every repetition after the first occurrence. -/
theorem foldl_addName_eraseDups (names added : List String) :
    added.foldl addName names.eraseDups = (names ++ added).eraseDups := by
  induction added generalizing names with
  | nil => rw [List.foldl_nil, List.append_nil]
  | cons first rest ih =>
    rw [List.foldl_cons, addName_eraseDups, ih, List.append_assoc, List.singleton_append]

/-- The fields are the names of the leaves without repetitions. -/
theorem fieldNames_eq_eraseDups (p : Predicate) : p.fieldNames = p.fieldLeaves.eraseDups := by
  rw [fieldNames_eq]
  exact foldl_addName_eraseDups [] p.fieldLeaves

/-- Adding names does not repeat one. -/
theorem nodup_foldl_addName {names : List String} (h : names.Nodup) (added : List String) :
    (added.foldl addName names).Nodup := by
  induction added generalizing names with
  | nil => exact h
  | cons first rest ih =>
    refine ih ?_
    unfold addName
    split
    · exact h
    · rename_i hnew
      rw [List.contains_iff_mem] at hnew
      refine List.nodup_append.2
        ⟨h, List.pairwise_singleton _ first, fun name hname other hother => ?_⟩
      rw [List.mem_singleton.1 hother]
      rintro rfl
      exact hnew hname

/-- No field is listed twice. -/
theorem nodup_fieldNames (p : Predicate) : p.fieldNames.Nodup := by
  rw [fieldNames_eq]
  exact nodup_foldl_addName List.nodup_nil p.fieldLeaves

/-! ## The first field of a kind -/

/-- A name that is there already is not found later than it was. -/
theorem find?_addName (hit : String → Bool) (names : List String) (name : String) :
    (addName names name).find? hit = (names ++ [name]).find? hit := by
  unfold addName
  split
  · rename_i hthere
    rw [List.contains_iff_mem] at hthere
    rw [List.find?_append]
    cases hfound : names.find? hit with
    | some found => rfl
    | none =>
      -- The name is no hit, since it is one of the names.
      have hmiss := List.find?_eq_none.1 hfound name hthere
      simp [hmiss]
  · rfl

/-- Names added one after the other are found in their order. -/
theorem find?_foldl_addName (hit : String → Bool) (added names : List String) :
    (added.foldl addName names).find? hit = (names ++ added).find? hit := by
  induction added generalizing names with
  | nil => rw [List.foldl_nil, List.append_nil]
  | cons first rest ih =>
    rw [List.foldl_cons, ih, List.find?_append, find?_addName, ← List.find?_append,
      List.append_assoc, List.singleton_append]

/-- The first of the fields that is a hit is that of the first leaf that is one. -/
theorem find?_fieldNames (hit : String → Bool) (p : Predicate) :
    p.fieldNames.find? hit = p.fieldLeaves.find? hit := by
  rw [fieldNames_eq, find?_foldl_addName, List.nil_append]

end AuditedRules.Predicate
