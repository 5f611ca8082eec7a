import AuditedRules.Proofs.Registry.Sorting

/-!
# Rules under their own identifiers

What a registry holds it holds under the identifier of the rule, and it holds no two rules under one
identifier: `Registry.Keyed`. Registering and erasing keep this. It makes the entries of a registry
say what is under an identifier in whatever order they are (`Keyed.get?_eq_some_iff`), and it makes
its listing and its check ascend strictly. None of its answers depends on that order
(`Keyed.answers_eq_of_perm`).
-/

namespace AuditedRules.Registry

/-- Every rule is held under its own identifier, and no two under the same one. -/
structure Keyed (registry : Registry) : Prop where
  /-- The key of a rule is its identifier. -/
  own : ∀ entry ∈ registry.entries, entry.1 = entry.2.id
  /-- No two entries have the same key. -/
  distinct : Distinct (·.1) registry.entries

/-! ## Registering and erasing -/

/-- The empty registry holds nothing, so it is keyed. -/
theorem keyed_empty : empty.Keyed :=
  ⟨fun _ h => absurd h List.not_mem_nil, List.Pairwise.nil⟩

/-- What is left after erasing is what was held under other identifiers. -/
theorem mem_erase_iff {registry : Registry} {id : String} {entry : String × Rule} :
    entry ∈ (registry.erase id).entries ↔ entry ∈ registry.entries ∧ entry.1 ≠ id := by
  unfold erase
  rw [List.mem_filter, bne_iff_ne]

/-- Erasing keeps a registry keyed. -/
theorem Keyed.erase {registry : Registry} (h : registry.Keyed) (id : String) :
    (registry.erase id).Keyed :=
  ⟨fun entry hentry => h.own entry (mem_erase_iff.1 hentry).1, List.Pairwise.filter _ h.distinct⟩

/-- Registering keeps a registry keyed. -/
theorem Keyed.register {registry : Registry} (h : registry.Keyed) (rule : Rule) :
    (registry.register rule).Keyed := by
  have herased := h.erase rule.id
  refine ⟨List.forall_mem_cons.2 ⟨rfl, herased.own⟩, List.pairwise_cons.2 ⟨?_, herased.distinct⟩⟩
  intro entry hentry
  exact (mem_erase_iff.1 hentry).2.symm

/-- The registry of a book is keyed. -/
theorem keyed_ofBook (book : RuleBook) : (ofBook book).Keyed := by
  have hrun : ∀ (rules : List Rule) (registry : Registry), registry.Keyed →
      (rules.foldl Registry.register registry).Keyed := by
    intro rules
    induction rules with
    | nil => exact fun _ h => h
    | cons first rest ih => exact fun registry h => ih (registry.register first) (h.register first)
  exact hrun book.rules empty keyed_empty

/-- Whether a registry is keyed does not depend on the order of its entries. -/
theorem Keyed.perm {registry other : Registry} (h : registry.Keyed)
    (horder : registry.entries.Perm other.entries) : other.Keyed :=
  ⟨fun entry hentry => h.own entry (horder.mem_iff.2 hentry), h.distinct.perm horder⟩

/-! ## What a keyed registry answers -/

/-- Under an identifier there is the rule that is held with it. -/
theorem Keyed.get?_eq_some_iff {registry : Registry} (h : registry.Keyed) {id : String}
    {rule : Rule} : registry.get? id = some rule ↔ (id, rule) ∈ registry.entries := by
  unfold get?
  rw [← List.head?_filter, Option.map_eq_some_iff]
  constructor
  · rintro ⟨⟨key, held⟩, hhead, rfl⟩
    obtain ⟨hmem, hkey⟩ := List.mem_filter.1 (List.mem_of_head? hhead)
    obtain rfl : key = id := eq_of_beq hkey
    exact hmem
  · intro hmem
    have hsingle : registry.entries.filter (fun entry => entry.1 == id) = [(id, rule)] :=
      h.distinct.filter_eq hmem
    exact ⟨(id, rule), by rw [hsingle, List.head?_cons], rfl⟩

/-- The rules of a keyed registry have different identifiers. -/
theorem Keyed.distinct_rules {registry : Registry} (h : registry.Keyed) :
    Distinct Rule.id registry.rules := by
  have hkeys : registry.entries.Pairwise fun a b => a.2.id ≠ b.2.id := by
    refine h.distinct.imp_of_mem fun {a b} ha hb hne => ?_
    rwa [← h.own a ha, ← h.own b hb]
  exact List.pairwise_map.2 hkeys

/-- The active rules of a keyed registry have different identifiers. -/
theorem Keyed.distinct_activeRules {registry : Registry} (h : registry.Keyed) :
    Distinct Rule.id registry.activeRules :=
  List.Pairwise.filter _ h.distinct_rules

/-- The listing has one entry for each rule, in strictly ascending order. -/
theorem Keyed.list_spec {registry : Registry} (h : registry.Keyed) :
    registry.list.Perm (registry.rules.map Rule.summary) ∧ AscendingById (·.id) registry.list :=
  ⟨sortById_perm _ _, ascendingById_sortById (h.distinct_rules.map _ fun _ => rfl)⟩

/-- A check has one outcome for each active rule, in strictly ascending order. -/
theorem Keyed.check_spec {registry : Registry} (h : registry.Keyed) (context : Context)
    (limit : Nat) :
    (registry.check context limit).Perm (registry.activeRules.map fun r => r.check context limit) ∧
      AscendingById (·.id) (registry.check context limit) :=
  ⟨sortById_perm _ _, ascendingById_sortById (h.distinct_activeRules.map _ fun _ => rfl)⟩

/-- A keyed registry answers the same in whatever order it holds its entries. -/
theorem Keyed.answers_eq_of_perm {registry other : Registry} (h : registry.Keyed)
    (horder : registry.entries.Perm other.entries) :
    (∀ id, registry.get? id = other.get? id) ∧ registry.list = other.list ∧
      ∀ context limit, registry.check context limit = other.check context limit := by
  have hrules : registry.rules.Perm other.rules := horder.map _
  refine ⟨fun id => Option.ext fun rule => ?_, ?_, fun context limit => ?_⟩
  · rw [h.get?_eq_some_iff, (h.perm horder).get?_eq_some_iff, horder.mem_iff]
  · exact sortById_eq_of_perm (h.distinct_rules.map _ fun _ => rfl) (hrules.map _)
  · exact sortById_eq_of_perm (h.distinct_activeRules.map _ fun _ => rfl) ((hrules.filter _).map _)

end AuditedRules.Registry
