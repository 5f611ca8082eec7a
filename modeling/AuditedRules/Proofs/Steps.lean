/-!
# Steps that may fail, one after the other

Readers and evaluators are chains of steps in `Except`. A chain succeeds when each of its steps
does, and it fails with the failure of the first step that fails.
-/

namespace AuditedRules

/-- Two steps succeed when the first gives something on which the second succeeds. -/
theorem bind_eq_ok_iff {ε α β : Type} {step : Except ε α} {next : α → Except ε β} {b : β} :
    step >>= next = .ok b ↔ ∃ a, step = .ok a ∧ next a = .ok b := by
  cases step with
  | error e => simp [bind, Except.bind]
  | ok a => simp [bind, Except.bind]

/-- Two steps fail when the first does, or when the second fails on what the first gives. -/
theorem bind_eq_error_iff {ε α β : Type} {step : Except ε α} {next : α → Except ε β} {e : ε} :
    step >>= next = .error e ↔ step = .error e ∨ ∃ a, step = .ok a ∧ next a = .error e := by
  cases step with
  | error e' => simp [bind, Except.bind]
  | ok a => simp [bind, Except.bind]

/-- A check before a step succeeds when both do. -/
theorem check_eq_ok_iff {ε β : Type} {check : Except ε Unit} {next : Except ε β} {b : β} :
    (check >>= fun _ => next) = .ok b ↔ check = .ok () ∧ next = .ok b := by
  rw [bind_eq_ok_iff]
  constructor
  · rintro ⟨_, hcheck, hnext⟩
    exact ⟨hcheck, hnext⟩
  · rintro ⟨hcheck, hnext⟩
    exact ⟨(), hcheck, hnext⟩

/-- A step whose failure is put into other words succeeds when it did before. -/
theorem mapError_eq_ok_iff {ε ε' α : Type} {step : Except ε α} {f : ε → ε'} {a : α} :
    step.mapError f = .ok a ↔ step = .ok a := by
  cases step with
  | error e =>
    show Except.error (f e) = .ok a ↔ _
    simp
  | ok b =>
    show Except.ok b = .ok a ↔ _
    simp

/-- A step whose result is turned into something else succeeds when it did before. -/
theorem map_eq_ok_iff {ε α β : Type} {step : Except ε α} {f : α → β} {b : β} :
    step.map f = .ok b ↔ ∃ a, step = .ok a ∧ f a = b := by
  cases step with
  | error e =>
    show Except.error e = .ok b ↔ _
    simp
  | ok a =>
    show Except.ok (f a) = .ok b ↔ _
    simp

/-- A step whose result is turned into something else fails when it did before. -/
theorem map_eq_error_iff {ε α β : Type} {step : Except ε α} {f : α → β} {e : ε} :
    step.map f = .error e ↔ step = .error e := by
  cases step with
  | error e' =>
    show Except.error e' = .error e ↔ _
    simp
  | ok a =>
    show Except.ok (f a) = .error e ↔ _
    simp

/-- A step for each item of a list succeeds when every step does, and gives what they give. -/
theorem mapM_eq_ok_iff {ε α β : Type} {step : α → Except ε β} {items : List α} {results : List β} :
    items.mapM step = .ok results ↔ items.map step = results.map .ok := by
  induction items generalizing results with
  | nil =>
    show (Except.ok [] : Except ε (List β)) = .ok results ↔ _
    cases results <;> simp
  | cons item items ih =>
    rw [List.mapM_cons, List.map_cons, bind_eq_ok_iff]
    constructor
    · rintro ⟨first, hfirst, h⟩
      obtain ⟨rest, hrest, h⟩ := bind_eq_ok_iff.1 h
      cases h
      rw [hfirst, ih.1 hrest, List.map_cons]
    · intro h
      cases results with
      | nil => cases h
      | cons first rest =>
        obtain ⟨hfirst, hrest⟩ := List.cons.inj h
        exact ⟨first, hfirst, bind_eq_ok_iff.2 ⟨rest, ih.2 hrest, rfl⟩⟩

/-- Where every step succeeds, the step for an item gives one of the results. -/
theorem exists_result_of_map_eq {ε α β : Type} {step : α → Except ε β} {items : List α}
    {results : List β} (h : items.map step = results.map .ok) {a : α} (ha : a ∈ items) :
    ∃ b ∈ results, step a = .ok b := by
  have hmem := List.mem_map_of_mem ha (f := step)
  rw [h] at hmem
  obtain ⟨b, hb, hstep⟩ := List.mem_map.1 hmem
  exact ⟨b, hb, hstep.symm⟩

/-- Where every step succeeds, a result is given by the step for some item. -/
theorem exists_item_of_map_eq {ε α β : Type} {step : α → Except ε β} {items : List α}
    {results : List β} (h : items.map step = results.map .ok) {b : β} (hb : b ∈ results) :
    ∃ a ∈ items, step a = .ok b := by
  have hmem := List.mem_map_of_mem hb (f := Except.ok (ε := ε))
  rw [← h] at hmem
  exact List.mem_map.1 hmem

/-- Steps that are the same for every item of a list are the same for the list. -/
theorem mapM_congr {ε α β : Type} {step step' : α → Except ε β} {items : List α}
    (h : ∀ a ∈ items, step a = step' a) : items.mapM step = items.mapM step' := by
  induction items with
  | nil => rfl
  | cons item items ih =>
    rw [List.mapM_cons, List.mapM_cons, h item List.mem_cons_self,
      ih fun a ha => h a (List.mem_cons_of_mem _ ha)]

/-- Steps that give alike results for matching items give alike results for matching lists. -/
theorem mapM_map_eq {ε α α' β β' γ : Type} {step : α → Except ε β} {step' : α' → Except ε β'}
    {view : β → γ} {view' : β' → γ} {matching : α → α'} {items : List α}
    (h : ∀ a ∈ items, (step a).map view = (step' (matching a)).map view') :
    (items.mapM step).map (List.map view) =
      ((items.map matching).mapM step').map (List.map view') := by
  induction items with
  | nil => rfl
  | cons item items ih =>
    have hitem := h item List.mem_cons_self
    have hitems := ih fun a ha => h a (List.mem_cons_of_mem _ ha)
    rw [List.map_cons, List.mapM_cons, List.mapM_cons]
    -- Both lists fail at the same item, or neither does.
    cases hstep : step item with
    | error e =>
      rw [hstep] at hitem
      rw [map_eq_error_iff.1 hitem.symm]
      rfl
    | ok first =>
      rw [hstep] at hitem
      obtain ⟨first', hstep', hfirst⟩ := map_eq_ok_iff.1 hitem.symm
      rw [hstep']
      cases hsteps : items.mapM step with
      | error e =>
        rw [hsteps] at hitems
        rw [map_eq_error_iff.1 hitems.symm]
        rfl
      | ok rest =>
        rw [hsteps] at hitems
        obtain ⟨rest', hsteps', hrest⟩ := map_eq_ok_iff.1 hitems.symm
        rw [hsteps']
        show Except.ok (view first :: rest.map view) = Except.ok (view' first' :: rest'.map view')
        rw [hfirst, hrest]

/-! ## Failures -/

/-- The failure of a step, if it fails. -/
def failure? {ε α : Type} : Except ε α → Option ε
  | .ok _ => none
  | .error e => some e

/-- A step has a failure when it fails with it. -/
theorem failure?_eq_some_iff {ε α : Type} {step : Except ε α} {e : ε} :
    failure? step = some e ↔ step = .error e := by
  cases step <;> simp [failure?]

/-- A step has no failure when it succeeds. -/
theorem failure?_eq_none_iff {ε α : Type} {step : Except ε α} :
    failure? step = none ↔ ∃ a, step = .ok a := by
  cases step <;> simp [failure?]

/-- Steps for the items of a list fail with the first of their failures. -/
theorem failure?_mapM {ε α β : Type} (step : α → Except ε β) (items : List α) :
    failure? (items.mapM step) = items.findSome? fun a => failure? (step a) := by
  induction items with
  | nil => rfl
  | cons item items ih =>
    rw [List.mapM_cons, List.findSome?_cons, ← ih]
    cases step item with
    | error e => rfl
    | ok first => cases items.mapM step <;> rfl

/-- The first hit in lists put together is the first hit of the first list that has one. -/
theorem findSome?_flatMap {α β γ : Type} {lists : α → List β} {hit : β → Option γ}
    {hitOf : α → Option γ} {items : List α} (h : ∀ a ∈ items, hitOf a = (lists a).findSome? hit) :
    (items.flatMap lists).findSome? hit = items.findSome? hitOf := by
  induction items with
  | nil => rfl
  | cons item items ih =>
    rw [List.flatMap_cons, List.findSome?_append, List.findSome?_cons, ← h item List.mem_cons_self,
      ih fun a ha => h a (List.mem_cons_of_mem _ ha)]
    cases hitOf item <;> rfl

end AuditedRules
