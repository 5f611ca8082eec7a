import AuditedRules.Registry

/-!
# Putting things in order of their identifiers

`Registry.sortById` rearranges what it is given. Where no identifier occurs twice its result ascends
strictly, and so there is only one: it does not depend on the order that the things came in
(`sortById_eq_of_perm`). So an answer that is sorted does not show in which order the entries of a
registry are.
-/

namespace AuditedRules.Registry

variable {α β : Type}

/-- Different things, no two of which have the same identifier. -/
def Distinct (id : α → String) (things : List α) : Prop :=
  things.Pairwise fun a b => id a ≠ id b

/-- Things in strictly ascending order of their identifiers. -/
def AscendingById (id : α → String) (things : List α) : Prop :=
  things.Pairwise fun a b => id a < id b

/-- Being distinct does not depend on the order. -/
theorem Distinct.perm {id : α → String} {things others : List α} (h : Distinct id things)
    (hperm : things.Perm others) : Distinct id others :=
  List.Pairwise.perm h hperm Ne.symm

/-- What is made from distinct things, each with the identifier of what it is made from, is
distinct. -/
theorem Distinct.map {id : α → String} {things : List α} (h : Distinct id things) (f : α → β)
    {id' : β → String} (hid : ∀ a, id' (f a) = id a) : Distinct id' (things.map f) := by
  have hmade : things.Pairwise fun a b => id' (f a) ≠ id' (f b) :=
    h.imp fun hne => by rwa [hid, hid]
  exact List.pairwise_map.2 hmade

/-- Among distinct things, those with one identifier are a single one at most. -/
theorem Distinct.filter_eq {id : α → String} {things : List α} (h : Distinct id things) {a : α}
    (ha : a ∈ things) : things.filter (fun b => id b == id a) = [a] := by
  induction things with
  | nil => exact absurd ha List.not_mem_nil
  | cons first rest ih =>
    obtain ⟨hfirst, hrest⟩ := List.pairwise_cons.1 h
    rcases List.mem_cons.1 ha with rfl | ha
    · have hothers : rest.filter (fun b => id b == id a) = [] :=
        List.filter_eq_nil_iff.2 fun b hb => by simpa using (hfirst b hb).symm
      rw [List.filter_cons_of_pos (by simp), hothers]
    · rw [List.filter_cons_of_neg (by simpa using hfirst a ha), ih hrest ha]

/-- Sorting rearranges. -/
theorem sortById_perm (id : α → String) (things : List α) : (sortById id things).Perm things :=
  List.mergeSort_perm things _

/-- Sorted things have no later identifier before an earlier one. -/
theorem pairwise_le_sortById (id : α → String) (things : List α) :
    (sortById id things).Pairwise fun a b => id a ≤ id b := by
  have hle : ∀ a b : α, (!decide (id b < id a)) = true ↔ id a ≤ id b := fun a b => by
    rw [Bool.not_eq_true', decide_eq_false_iff_not, String.not_lt]
  have hsorted : (sortById id things).Pairwise fun a b => (!decide (id b < id a)) = true := by
    refine List.pairwise_mergeSort (fun a b c hab hbc => ?_) (fun a b => ?_) things
    · exact (hle a c).2 (String.le_trans ((hle a b).1 hab) ((hle b c).1 hbc))
    · rw [Bool.or_eq_true, hle, hle]
      exact String.le_total (id a) (id b)
  exact hsorted.imp fun h => (hle _ _).1 h

/-- Distinct things ascend strictly once they are sorted. -/
theorem ascendingById_sortById {id : α → String} {things : List α} (h : Distinct id things) :
    AscendingById id (sortById id things) := by
  have hdistinct : Distinct id (sortById id things) := h.perm (sortById_perm id things).symm
  have hboth := (pairwise_le_sortById id things).and hdistinct
  refine hboth.imp fun {a b} hab => ?_
  obtain ⟨hle, hne⟩ := hab
  exact Decidable.byContradiction fun hnlt => hne (String.le_antisymm hle (String.not_lt.1 hnlt))

/-- Things in strictly ascending order are determined by what occurs among them. -/
theorem AscendingById.eq_of_perm {id : α → String} {things others : List α}
    (h : AscendingById id things) (h' : AscendingById id others) (hperm : things.Perm others) :
    things = others := by
  refine List.Perm.eq_of_pairwise (fun a b _ _ hab hba => ?_) h h' hperm
  exact absurd (String.lt_trans hab hba) (String.lt_irrefl _)

/-- The order that distinct things come in does not show once they are sorted. -/
theorem sortById_eq_of_perm {id : α → String} {things others : List α} (h : Distinct id things)
    (hperm : things.Perm others) : sortById id things = sortById id others := by
  have hsorted : (sortById id things).Perm (sortById id others) :=
    (sortById_perm id things).trans (hperm.trans (sortById_perm id others).symm)
  exact AscendingById.eq_of_perm (ascendingById_sortById h)
    (ascendingById_sortById (h.perm hperm)) hsorted

end AuditedRules.Registry
