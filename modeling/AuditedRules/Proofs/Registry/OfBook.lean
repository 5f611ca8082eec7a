import AuditedRules.Proofs.Predicate.Depth
import AuditedRules.Proofs.Registry.Keyed
import AuditedRules.Proofs.RuleBook.Validation

/-!
# The registry of a rule book

A book is a list: the first rule of an identifier counts, and a check goes through the rules in
their order. A registry lets the last rule of an identifier count and has no order. The two give the
same answers when the book is valid, because then no identifier occurs twice: registering the rules
one after the other never replaces one (`entries_foldl_register`), so the entries are exactly the
rules of the book. The answers of the registry do not depend on the order of its entries, so the
order in which they were registered is as good as any other (`Mirrors.perm`).
-/

namespace AuditedRules.Registry

/-! ## The entries -/

/-- A rule whose identifier is new goes in front of what is there. -/
theorem entries_register_of_new {registry : Registry} {rule : Rule}
    (hnew : ∀ entry ∈ registry.entries, entry.1 ≠ rule.id) :
    (registry.register rule).entries = (rule.id, rule) :: registry.entries := by
  have hkept : registry.entries.filter (fun entry => entry.1 != rule.id) = registry.entries :=
    List.filter_eq_self.2 fun entry hentry => bne_iff_ne.2 (hnew entry hentry)
  unfold register erase
  rw [hkept]

/-- Rules with new and different identifiers are all in the registry after they were registered, and
nothing that was there is lost. -/
theorem entries_foldl_register {rules : List Rule} (hdistinct : Distinct Rule.id rules)
    {registry : Registry}
    (hnew : ∀ rule ∈ rules, ∀ entry ∈ registry.entries, entry.1 ≠ rule.id) :
    (rules.foldl register registry).entries =
      (rules.map fun rule => (rule.id, rule)).reverse ++ registry.entries := by
  induction rules generalizing registry with
  | nil => simp
  | cons first rest ih =>
    obtain ⟨hfirst, hrest⟩ := List.pairwise_cons.1 hdistinct
    have hentries : (registry.register first).entries = (first.id, first) :: registry.entries :=
      entries_register_of_new (hnew first List.mem_cons_self)
    -- The rest is new to the registry with the first rule, since it is new to that rule too.
    have hstill : ∀ rule ∈ rest, ∀ entry ∈ (registry.register first).entries,
        entry.1 ≠ rule.id := by
      rw [hentries]
      exact fun rule hrule => List.forall_mem_cons.2
        ⟨hfirst rule hrule, hnew rule (List.mem_cons_of_mem _ hrule)⟩
    rw [List.foldl_cons, ih hrest hstill, hentries]
    simp

/-- The entries of the registry of a book without repeated identifiers are the rules of the book. -/
theorem entries_ofBook_perm {book : RuleBook} (hdistinct : Distinct Rule.id book.rules) :
    (ofBook book).entries.Perm (book.rules.map fun rule => (rule.id, rule)) := by
  have hnone : ∀ rule ∈ book.rules, ∀ entry ∈ empty.entries, entry.1 ≠ rule.id :=
    fun _ _ _ hentry => absurd hentry List.not_mem_nil
  unfold ofBook
  rw [entries_foldl_register hdistinct hnone, empty, List.append_nil]
  exact List.reverse_perm _

/-! ## The answers of a book -/

/-- In a book without repeated identifiers every rule is found under its own. -/
theorem get?_book_eq_some_iff {book : RuleBook} (hdistinct : Distinct Rule.id book.rules)
    {id : String} {rule : Rule} :
    book.get? id = some rule ↔ rule ∈ book.rules ∧ rule.id = id := by
  unfold RuleBook.get?
  rw [← List.head?_filter]
  constructor
  · intro hhead
    obtain ⟨hmem, hid⟩ := List.mem_filter.1 (List.mem_of_head? hhead)
    exact ⟨hmem, eq_of_beq hid⟩
  · rintro ⟨hmem, rfl⟩
    rw [hdistinct.filter_eq hmem, List.head?_cons]

/-- A check of a book without repeated identifiers has one outcome for an active rule and none for
another. -/
theorem filter_check_book {book : RuleBook} (hdistinct : Distinct Rule.id book.rules)
    (context : Context) {rule : Rule} (hrule : rule ∈ book.rules) :
    (book.check context).filter (fun outcome => outcome.id == rule.id) =
      if rule.active then [rule.check context defaultLimit] else [] := by
  have hsame : book.rules.filter (fun r => r.id == rule.id) = [rule] :=
    hdistinct.filter_eq hrule
  have hactive : book.activeRules.filter (fun r => r.id == rule.id) = [rule].filter (·.active) := by
    unfold RuleBook.activeRules
    rw [← hsame, List.filter_filter, List.filter_filter]
    exact List.filter_congr fun r _ => Bool.and_comm _ _
  calc (book.check context).filter (fun outcome => outcome.id == rule.id)
      = (book.activeRules.filter fun r => r.id == rule.id).map
          fun r => r.check context defaultLimit := List.filter_map
    _ = ([rule].filter (·.active)).map fun r => r.check context defaultLimit := by rw [hactive]
    _ = if rule.active then [rule.check context defaultLimit] else [] := by
        rw [List.filter_cons]
        split <;> rfl

/-! ## The same answers -/

/-- A registry gives the answers of a book, those with several parts in strictly ascending order. -/
structure Mirrors (registry : Registry) (book : RuleBook) (context : Context) : Prop where
  /-- Under every identifier there is the rule of the book. -/
  get : ∀ id, registry.get? id = book.get? id
  /-- The listing has the summaries of all rules of the book. -/
  list : registry.list.Perm (book.rules.map Rule.summary)
  /-- The listing ascends. -/
  listAscending : AscendingById (·.id) registry.list
  /-- The check has the outcomes of the check of the book. -/
  check : (registry.check context defaultLimit).Perm (book.check context)
  /-- The check ascends. -/
  checkAscending : AscendingById (·.id) (registry.check context defaultLimit)
  /-- For an active rule there is one outcome, and there is none for another. -/
  once : ∀ rule ∈ book.rules,
    (registry.check context defaultLimit).filter (fun outcome => outcome.id == rule.id) =
      if rule.active then [rule.check context defaultLimit] else []
  /-- An outcome is triggered when the predicate of its rule passes, and only then has the message
  of its rule. -/
  outcomes : ∀ outcome ∈ registry.check context defaultLimit, ∃ rule ∈ book.rules,
    rule.active = true ∧ outcome.id = rule.id ∧ outcome.severity = rule.severity ∧
      outcome.result = rule.predicate.evaluate context defaultLimit ∧
      outcome.triggered = (rule.predicate.evaluate context defaultLimit).pass ∧
      outcome.message = if outcome.triggered then rule.message else none

/-- What a keyed registry gives of a book it gives in whatever order it holds its entries. -/
theorem Mirrors.perm {registry other : Registry} {book : RuleBook} {context : Context}
    (h : registry.Mirrors book context) (hkeyed : registry.Keyed)
    (horder : registry.entries.Perm other.entries) : other.Mirrors book context := by
  obtain ⟨hget, hlist, hchecks⟩ := hkeyed.answers_eq_of_perm horder
  have hcheck := hchecks context defaultLimit
  obtain ⟨get, list, listAscending, check, checkAscending, once, outcomes⟩ := h
  simp only [hget, hlist, hcheck] at get list listAscending check checkAscending once outcomes
  exact ⟨get, list, listAscending, check, checkAscending, once, outcomes⟩

/-- In whatever order it holds its entries, the registry of a valid book gives the answers of the
book. -/
theorem ofBook_mirrors {book : RuleBook} {limit : Nat} (hvalid : book.validate limit = .ok ())
    {registry : Registry} (horder : registry.entries.Perm (ofBook book).entries)
    (context : Context) : registry.Mirrors book context := by
  -- The order in which the rules were registered is as good as any other.
  refine Mirrors.perm ?_ (keyed_ofBook book) horder.symm
  have hdistinct : Distinct Rule.id book.rules := (RuleBook.validate_eq_ok_iff.1 hvalid).distinct
  have hkeyed : (ofBook book).Keyed := keyed_ofBook book
  have hentries : (ofBook book).entries.Perm (book.rules.map fun rule => (rule.id, rule)) :=
    entries_ofBook_perm hdistinct
  have hrules : (ofBook book).rules.Perm book.rules := by
    simpa [rules, Function.comp_def] using hentries.map (·.2)
  have hactive : (ofBook book).activeRules.Perm book.activeRules := hrules.filter _
  obtain ⟨hlist, hlistAscending⟩ := hkeyed.list_spec
  obtain ⟨hcheck, hcheckAscending⟩ := hkeyed.check_spec context defaultLimit
  have hsame : ((ofBook book).check context defaultLimit).Perm (book.check context) :=
    hcheck.trans (hactive.map _)
  refine ⟨fun id => Option.ext fun rule => ?_, hlist.trans (hrules.map _), hlistAscending, hsame,
    hcheckAscending, fun rule hrule => ?_, fun outcome houtcome => ?_⟩
  · rw [hkeyed.get?_eq_some_iff, get?_book_eq_some_iff hdistinct, hentries.mem_iff, List.mem_map]
    simp
  · -- At most one outcome is left, so that the order does not matter any more.
    have hone := hsame.filter fun outcome => outcome.id == rule.id
    rw [filter_check_book hdistinct context hrule] at hone
    split at hone
    · rw [if_pos ‹_›]
      exact hone.eq_singleton
    · rw [if_neg ‹_›]
      exact hone.eq_nil
  · obtain ⟨rule, hrule, rfl⟩ := List.mem_map.1 (hsame.mem_iff.1 houtcome)
    obtain ⟨hrule, hon⟩ := List.mem_filter.1 hrule
    exact ⟨rule, hrule, hon, rfl, rfl, rfl, rfl, rfl⟩

/-- A book whose rules do not ascend, one of them not active. -/
def smallBook : RuleBook where
  catalog := default
  rules :=
    [⟨"minimum", none, "", .rule, .warn, some "too few", true,
        .comparison .less (.field "quantity") (.const (.number (.ofInt 10)))⟩,
      ⟨"expired", none, "", .rule, .warn, none, false, .field "expired"⟩,
      ⟨"blocked", none, "", .constraint, .block, some "blocked", true, .field "blocked"⟩]

/-- The registry of the small book, with its entries in the order of the book, gives the answers of
the book. -/
theorem ofBook_mirrors_smallBook :
    smallBook.validate defaultLimit = .ok () ∧
      Mirrors ⟨smallBook.rules.map fun rule => (rule.id, rule)⟩ smallBook
        (.ofList [("blocked", .bool true), ("expired", .bool true)]) := by
  have hvalid : smallBook.validate defaultLimit = .ok () := by
    refine RuleBook.validate_eq_ok_iff.2 ⟨by decide, by simp [smallBook], ?_, ?_⟩
    · simp only [smallBook, Predicate.depth_eq_height]
      decide
    · intro rule _
      rfl
  exact ⟨hvalid, ofBook_mirrors hvalid (List.reverse_perm _).symm _⟩

end AuditedRules.Registry
