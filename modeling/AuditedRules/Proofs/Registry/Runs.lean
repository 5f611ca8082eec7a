import AuditedRules.Proofs.Registry.Keyed
import AuditedRules.Proofs.Text.Bytes
import AuditedRules.Registry.Shared
import Mathlib.Logic.Function.Basic

/-!
# Runs on a shared registry

Any number of handles share one registry, and calls through them are interleaved in any order. Each
call is one step, except for a check: it takes the active rules in one step and evaluates them in a
later one, and other calls may come in between. Whenever a registry is read, its entries come in
some order about which nothing is known.

What a run has to answer is said from the calls alone. A rule is in place (`InPlace`) when it was
registered and nothing was registered or removed under its identifier since, through whichever
handle. `Answers` says for each call what it answers after the calls before it; for the second half
of a check, that is what was in place when its first half was made.

The proof is an invariant of one step (`Session.Follows`): all handles lead to one registry, it
holds what is in place, and each check under way has taken what was in place at its first half. That
the order of entries does not show follows from the answers alone, because they leave no choice
(`Answers.unique`).
-/

namespace AuditedRules.Registry

/-! ## Calls and steps -/

/-- What is asked of a shared registry. -/
inductive Call
  /-- A further handle is made from a handle. -/
  | share (handle : Nat)
  | register (handle : Nat) (rule : Rule)
  | remove (handle : Nat) (id : String)
  | get (handle : Nat) (id : String)
  | list (handle : Nat)
  | size (handle : Nat)
  /-- The first half of the check of a task, which takes the active rules. -/
  | look (task handle : Nat) (context : Context) (limit : Nat)
  /-- The second half of the check of a task, which evaluates them. -/
  | finish (task : Nat)

/-- What is answered to a call. -/
inductive Reply
  | done
  | rule (found : Option Rule)
  | listing (summaries : List RuleSummary)
  | count (number : Nat)
  | outcomes (outcomes : List RuleOutcome)

/-- A check between its halves. -/
structure PendingCheck where
  /-- The rules that were taken. -/
  rules : List Rule
  context : Context
  limit : Nat

/-- A shared registry, with the checks that are under way. -/
structure Session where
  shared : SharedRegistries
  /-- For each task, its check. -/
  pending : Nat → Option PendingCheck

/-- The session on the registry of a book, with a single handle. -/
def Session.start (book : RuleBook) : Session :=
  ⟨SharedRegistries.none.add (ofBook book), fun _ => none⟩

/-- Puts a check under way for a task, or ends it. -/
def Session.setPending (s : Session) (task : Nat) (check? : Option PendingCheck) : Session :=
  { s with pending := Function.update s.pending task check? }

/-- Through a handle, the registry is read with its entries in some order. -/
def Session.Sees (s : Session) (handle : Nat) (order : Registry) : Prop :=
  ∃ registry, s.shared.get? handle = some registry ∧ order.entries.Perm registry.entries

/-- A handle was given out. -/
def Session.Open (s : Session) (handle : Nat) : Prop :=
  handle < s.shared.handles.length

/-- A call is answered, which may change the session. -/
inductive Step (s : Session) : Call → Reply → Session → Prop
  | share {handle : Nat} (hopen : s.Open handle) :
    Step s (.share handle) .done { s with shared := s.shared.share handle }
  | register {handle : Nat} {rule : Rule} (hopen : s.Open handle) :
    Step s (.register handle rule) .done
      { s with shared := s.shared.modify handle fun registry => registry.register rule }
  | remove {handle : Nat} {id : String} {order : Registry} (hsees : s.Sees handle order) :
    Step s (.remove handle id) (.rule (order.get? id))
      { s with shared := s.shared.modify handle fun registry => registry.erase id }
  | get {handle : Nat} {id : String} {order : Registry} (hsees : s.Sees handle order) :
    Step s (.get handle id) (.rule (order.get? id)) s
  | list {handle : Nat} {order : Registry} (hsees : s.Sees handle order) :
    Step s (.list handle) (.listing order.list) s
  | size {handle : Nat} {order : Registry} (hsees : s.Sees handle order) :
    Step s (.size handle) (.count order.size) s
  | look {task handle : Nat} {context : Context} {limit : Nat} {order : Registry}
    (hfree : s.pending task = none) (hsees : s.Sees handle order) :
    Step s (.look task handle context limit) .done
      (s.setPending task (some ⟨order.activeRules, context, limit⟩))
  | finish {task : Nat} {check : PendingCheck} (hpending : s.pending task = some check) :
    Step s (.finish task) (.outcomes (checkRules check.rules check.context check.limit))
      (s.setPending task none)

/-- A session is reached from the start by the calls of a history, with the replies in it. -/
inductive Run (start : Session) : List (Call × Reply) → Session → Prop
  | nil : Run start [] start
  | step {history : List (Call × Reply)} {s s' : Session} {call : Call} {reply : Reply}
    (hrun : Run start history s) (hstep : Step s call reply s') :
    Run start (history ++ [(call, reply)]) s'

/-- A call can be made: its handle was given out, the task of a first half is free, and the task of
a second half has made its first half. -/
def Session.Allows (s : Session) : Call → Prop
  | .share handle | .register handle _ | .remove handle _ | .get handle _ | .list handle
  | .size handle => s.Open handle
  | .look task handle _ _ => s.pending task = none ∧ s.Open handle
  | .finish task => (s.pending task).isSome

/-! ## What the calls say -/

/-- A call decides what is under an identifier. -/
def Call.Changes (id : String) : Call → Prop
  | .register _ rule => rule.id = id
  | .remove _ other => other = id
  | _ => False

/-- A call is a half of the check of a task. -/
def Call.IsOf (task : Nat) : Call → Prop
  | .look other _ _ _ | .finish other => other = task
  | _ => False

/-- After some calls a rule is in place: it was registered, and nothing was registered or removed
under its identifier since. -/
def InPlace (past : List Call) (rule : Rule) : Prop :=
  ∃ before handle after, past = before ++ .register handle rule :: after ∧
    ∀ call ∈ after, ¬ call.Changes rule.id

/-- What is found under an identifier is the rule with it that is in place, if there is one. -/
def Finds (past : List Call) (id : String) (found : Option Rule) : Prop :=
  ∀ rule, found = some rule ↔ InPlace past rule ∧ rule.id = id

/-- Things in strictly ascending order of the bytes of their identifiers. -/
def AscendingByBytes {α : Type} (id : α → String) (things : List α) : Prop :=
  things.Pairwise fun a b => Text.bytes (id a) < Text.bytes (id b)

/-- A listing has the summaries of the rules in place, ascending. -/
def Lists (past : List Call) (summaries : List RuleSummary) : Prop :=
  AscendingByBytes (·.id) summaries ∧
    ∀ summary, summary ∈ summaries ↔ ∃ rule, InPlace past rule ∧ rule.summary = summary

/-- A check has the outcomes of the active rules in place, ascending. -/
def Checks (past : List Call) (context : Context) (limit : Nat) (outcomes : List RuleOutcome) :
    Prop :=
  AscendingByBytes (·.id) outcomes ∧
    ∀ outcome, outcome ∈ outcomes ↔
      ∃ rule, InPlace past rule ∧ rule.active = true ∧ rule.check context limit = outcome

/-- The check of a task is under way, and its first half was made after the calls in `before`. -/
def Looked (past before : List Call) (task : Nat) (context : Context) (limit : Nat) : Prop :=
  ∃ handle between, past = before ++ .look task handle context limit :: between ∧
    ∀ call ∈ between, ¬ call.IsOf task

/-- The answer to a call after some calls. -/
inductive Answers (past : List Call) : Call → Reply → Prop
  | share {handle : Nat} : Answers past (.share handle) .done
  | register {handle : Nat} {rule : Rule} : Answers past (.register handle rule) .done
  | remove {handle : Nat} {id : String} {found : Option Rule} (hfound : Finds past id found)
    (hafter : Finds (past ++ [.remove handle id]) id none) :
    Answers past (.remove handle id) (.rule found)
  | get {handle : Nat} {id : String} {found : Option Rule} (hfound : Finds past id found) :
    Answers past (.get handle id) (.rule found)
  | list {handle : Nat} {summaries : List RuleSummary} (hlists : Lists past summaries) :
    Answers past (.list handle) (.listing summaries)
  | size {handle : Nat} {summaries : List RuleSummary} (hlists : Lists past summaries) :
    Answers past (.size handle) (.count summaries.length)
  | look {task handle : Nat} {context : Context} {limit : Nat} :
    Answers past (.look task handle context limit) .done
  | finish {task : Nat} {before : List Call} {context : Context} {limit : Nat}
    {outcomes : List RuleOutcome} (hlooked : Looked past before task context limit)
    (hchecks : Checks before context limit outcomes) :
    Answers past (.finish task) (.outcomes outcomes)

/-- Every reply is the answer to its call after the calls before it. -/
def Answered (opening : List Call) (history : List (Call × Reply)) : Prop :=
  ∀ before call reply after, history = before ++ (call, reply) :: after →
    Answers (opening ++ before.map (·.1)) call reply

/-- The calls that fill the registry of a book. -/
def opening (book : RuleBook) : List Call :=
  book.rules.map (.register 0)

/-! ## Rules in place -/

/-- A list with a last thing is split at that one, or before it. -/
theorem concat_eq_append_cons {α : Type} {front before after : List α} {last a : α}
    (h : front ++ [last] = before ++ a :: after) :
    (front = before ∧ last = a ∧ after = []) ∨
      ∃ rest, after = rest ++ [last] ∧ front = before ++ a :: rest := by
  rcases List.eq_nil_or_concat after with rfl | ⟨rest, x, rfl⟩
  · obtain ⟨hfront, hlast⟩ := List.append_inj' h rfl
    exact .inl ⟨hfront, List.singleton_inj.1 hlast, rfl⟩
  · have hassoc : before ++ a :: rest.concat x = (before ++ a :: rest) ++ [x] := by simp
    obtain ⟨hfront, hlast⟩ := List.append_inj' (h.trans hassoc) rfl
    exact .inr ⟨rest, by rw [List.singleton_inj.1 hlast, List.concat_eq_append], hfront⟩

/-- One more call puts its own rule in place, and leaves the others that it does not decide on. -/
theorem inPlace_concat {past : List Call} {call : Call} {rule : Rule} :
    InPlace (past ++ [call]) rule ↔
      (∃ handle, call = .register handle rule) ∨ InPlace past rule ∧ ¬ call.Changes rule.id := by
  constructor
  · rintro ⟨before, handle, after, hpast, hafter⟩
    obtain ⟨-, hcall, -⟩ | ⟨rest, rfl, hfront⟩ := concat_eq_append_cons hpast
    · exact .inl ⟨handle, hcall⟩
    · have hrest : ∀ c ∈ rest, ¬ c.Changes rule.id :=
        fun c hc => hafter c (List.mem_append_left _ hc)
      exact .inr ⟨⟨before, handle, rest, hfront, hrest⟩, hafter call (by simp)⟩
  · rintro (⟨handle, rfl⟩ | ⟨⟨before, handle, after, rfl, hafter⟩, hcall⟩)
    · exact ⟨past, handle, [], rfl, fun _ h => absurd h List.not_mem_nil⟩
    · refine ⟨before, handle, after ++ [call], by simp, ?_⟩
      exact List.forall_mem_append.2 ⟨hafter, by simpa using hcall⟩

/-- After a removal nothing is found under its identifier. -/
theorem finds_concat_remove (past : List Call) (handle : Nat) (id : String) :
    Finds (past ++ [.remove handle id]) id none := by
  intro rule
  rw [inPlace_concat]
  simp [Call.Changes, eq_comm]

/-- Before any call nothing is in place. -/
theorem not_inPlace_nil (rule : Rule) : ¬ InPlace [] rule := by
  rintro ⟨before, handle, after, hpast, -⟩
  simp at hpast

/-- A half of a check stays the last one of its task until the task makes another. -/
theorem Looked.concat {past before : List Call} {task : Nat} {context : Context} {limit : Nat}
    (h : Looked past before task context limit) {call : Call} (hcall : ¬ call.IsOf task) :
    Looked (past ++ [call]) before task context limit := by
  obtain ⟨handle, between, rfl, hbetween⟩ := h
  refine ⟨handle, between ++ [call], by simp, ?_⟩
  exact List.forall_mem_append.2 ⟨hbetween, by simpa using hcall⟩

/-- Things ascend by the bytes of their identifiers when they ascend by the identifiers. -/
theorem ascendingByBytes_iff {α : Type} {id : α → String} {things : List α} :
    AscendingByBytes id things ↔ AscendingById id things :=
  List.Pairwise.iff fun _ _ => Text.bytes_lt_bytes_iff

/-! ## A registry that holds what is in place -/

/-- A registry holds what is in place after some calls. -/
structure Holds (registry : Registry) (past : List Call) : Prop where
  keyed : registry.Keyed
  mem_rules : ∀ rule, rule ∈ registry.rules ↔ InPlace past rule

/-- Some rules are the active ones among those in place. -/
structure Taken (past : List Call) (rules : List Rule) : Prop where
  distinct : Distinct Rule.id rules
  mem : ∀ rule, rule ∈ rules ↔ InPlace past rule ∧ rule.active = true

namespace Holds

variable {registry : Registry} {past : List Call}

/-- The empty registry holds what is in place before any call. -/
theorem empty : Registry.empty.Holds [] :=
  ⟨keyed_empty, fun rule => iff_of_false List.not_mem_nil (not_inPlace_nil rule)⟩

/-- The entries are the rules in place, under their identifiers. -/
theorem mem_entries (h : registry.Holds past) {id : String} {rule : Rule} :
    (id, rule) ∈ registry.entries ↔ InPlace past rule ∧ rule.id = id := by
  rw [← h.mem_rules, rules, List.mem_map]
  constructor
  · exact fun hentry => ⟨⟨(id, rule), hentry, rfl⟩, (h.keyed.own _ hentry).symm⟩
  · rintro ⟨⟨⟨key, rule⟩, hentry, rfl⟩, rfl⟩
    obtain rfl : key = rule.id := h.keyed.own _ hentry
    exact hentry

/-- Erasing leaves the rules in place that have another identifier. -/
theorem mem_rules_erase (h : registry.Holds past) {id : String} {rule : Rule} :
    rule ∈ (registry.erase id).rules ↔ InPlace past rule ∧ ¬ id = rule.id := by
  rw [rules, List.mem_map]
  constructor
  · rintro ⟨⟨key, rule⟩, hentry, rfl⟩
    obtain ⟨hentry, hne⟩ := mem_erase_iff.1 hentry
    obtain ⟨hplace, hid⟩ := h.mem_entries.1 hentry
    exact ⟨hplace, fun heq => hne (by rw [heq, hid])⟩
  · rintro ⟨hplace, hne⟩
    have hentry : (rule.id, rule) ∈ registry.entries := h.mem_entries.2 ⟨hplace, rfl⟩
    exact ⟨(rule.id, rule), mem_erase_iff.2 ⟨hentry, fun heq => hne heq.symm⟩, rfl⟩

/-- Registering a rule puts it in place. -/
theorem register (h : registry.Holds past) (handle : Nat) (rule : Rule) :
    (registry.register rule).Holds (past ++ [.register handle rule]) := by
  refine ⟨h.keyed.register rule, fun other => ?_⟩
  have hnew : (∃ place, Call.register handle rule = .register place other) ↔ other = rule := by
    simp [eq_comm]
  rw [inPlace_concat, hnew, Call.Changes, ← h.mem_rules_erase]
  exact List.mem_cons

/-- Erasing what is under an identifier leaves the others in place. -/
theorem erase (h : registry.Holds past) (handle : Nat) (id : String) :
    (registry.erase id).Holds (past ++ [.remove handle id]) := by
  refine ⟨h.keyed.erase id, fun rule => ?_⟩
  have hnone : ¬ ∃ place, Call.remove handle id = .register place rule := by simp
  rw [inPlace_concat, or_iff_right hnone, Call.Changes]
  exact h.mem_rules_erase

/-- A call that decides on no identifier leaves everything in place. -/
theorem concat (h : registry.Holds past) {call : Call} (hcall : ∀ id, ¬ call.Changes id) :
    registry.Holds (past ++ [call]) := by
  refine ⟨h.keyed, fun rule => ?_⟩
  have hnone : ¬ ∃ handle, call = .register handle rule := by
    rintro ⟨handle, rfl⟩
    exact hcall rule.id rfl
  rw [inPlace_concat, or_iff_right hnone, and_iff_left (hcall rule.id)]
  exact h.mem_rules rule

/-- The registry of a book holds what is in place after the calls that fill it. -/
theorem ofBook (book : RuleBook) : (ofBook book).Holds (opening book) := by
  have hrun : ∀ (rules : List Rule) {registry : Registry} {past : List Call}, registry.Holds past →
      (rules.foldl Registry.register registry).Holds (past ++ rules.map (.register 0)) := by
    intro rules
    induction rules with
    | nil => exact fun {registry past} h => by simpa using h
    | cons first rest ih =>
      intro registry past h
      have hrest := ih (h.register 0 first)
      rwa [List.append_assoc] at hrest
  exact hrun book.rules empty

/-- What a registry holds does not depend on the order of its entries. -/
theorem perm (h : registry.Holds past) {order : Registry}
    (horder : order.entries.Perm registry.entries) : order.Holds past := by
  refine ⟨h.keyed.perm horder.symm, fun rule => ?_⟩
  rw [← h.mem_rules]
  exact (horder.map _).mem_iff

/-! ## What it answers -/

/-- Under each identifier there is the rule in place. -/
theorem finds (h : registry.Holds past) (id : String) : Finds past id (registry.get? id) :=
  fun _ => h.keyed.get?_eq_some_iff.trans h.mem_entries

/-- The listing is that of the rules in place. -/
theorem lists (h : registry.Holds past) : Lists past registry.list := by
  obtain ⟨hperm, hascending⟩ := h.keyed.list_spec
  refine ⟨ascendingByBytes_iff.2 hascending, fun summary => ?_⟩
  rw [hperm.mem_iff, List.mem_map]
  simp only [h.mem_rules]

/-- The rules that are taken for a check are the active ones in place. -/
theorem taken (h : registry.Holds past) : Taken past registry.activeRules := by
  refine ⟨h.keyed.distinct_activeRules, fun rule => ?_⟩
  rw [activeRules, List.mem_filter, h.mem_rules]

end Holds

/-- The number of rules is the length of the listing. -/
theorem size_eq_length_list (registry : Registry) : registry.size = registry.list.length := by
  have hperm := sortById_perm (·.id) (registry.rules.map Rule.summary)
  calc registry.size = (registry.rules.map Rule.summary).length := by simp [size, rules]
    _ = registry.list.length := hperm.length_eq.symm

/-- Evaluating what was taken gives the check of what was in place. -/
theorem Taken.checks {past : List Call} {rules : List Rule} (h : Taken past rules)
    (context : Context) (limit : Nat) :
    Checks past context limit (checkRules rules context limit) := by
  have hdistinct : Distinct (·.id) (rules.map fun r => r.check context limit) :=
    h.distinct.map _ fun _ => rfl
  refine ⟨ascendingByBytes_iff.2 (ascendingById_sortById hdistinct), fun outcome => ?_⟩
  rw [checkRules, (sortById_perm _ _).mem_iff, List.mem_map]
  simp only [h.mem, and_assoc]

/-! ## One step -/

/-- A session is what the calls made of it: all handles lead to one registry, which holds what is in
place, and every check under way has taken the active rules that were in place at its first half. -/
structure Session.Follows (s : Session) (past : List Call) : Prop where
  registry : ∃ registry, s.shared.registries = [registry] ∧ registry.Holds past
  handles : ∀ place ∈ s.shared.handles, place = 0
  pending : ∀ task check, s.pending task = some check → ∃ before,
    Looked past before task check.context check.limit ∧ Taken before check.rules

namespace Session.Follows

variable {s : Session} {past : List Call} {handle : Nat}

/-- A session on the registry of a book is what filling it makes. -/
theorem start (book : RuleBook) : (Session.start book).Follows (opening book) := by
  refine ⟨⟨ofBook book, rfl, Holds.ofBook book⟩, fun place hplace => ?_, fun _ _ h => nomatch h⟩
  exact List.mem_singleton.1 hplace

/-- Every handle that was given out leads to the registry. -/
theorem place_eq (h : s.Follows past) (hopen : s.Open handle) :
    s.shared.handles[handle]? = some 0 := by
  rw [List.getElem?_eq_getElem hopen, h.handles _ (List.getElem_mem hopen)]

/-- Through every handle that was given out, what is in place can be read. -/
theorem sees (h : s.Follows past) (hopen : s.Open handle) : ∃ order, s.Sees handle order := by
  obtain ⟨registry, hregistries, -⟩ := h.registry
  refine ⟨registry, registry, ?_, List.Perm.refl _⟩
  simp [SharedRegistries.get?, h.place_eq hopen, hregistries]

/-- A handle that leads to a registry leads to one that holds what is in place. -/
theorem holds_of_get? (h : s.Follows past) {registry : Registry}
    (hget : s.shared.get? handle = some registry) : registry.Holds past := by
  obtain ⟨held, hregistries, hholds⟩ := h.registry
  obtain ⟨place, hplace, hat⟩ := Option.bind_eq_some_iff.1 hget
  rw [h.handles place (List.mem_of_getElem? hplace), hregistries] at hat
  rwa [← Option.some.inj hat]

/-- What is read through a handle is what is in place. -/
theorem holds (h : s.Follows past) {order : Registry} (hsees : s.Sees handle order) :
    order.Holds past := by
  obtain ⟨registry, hget, horder⟩ := hsees
  exact (h.holds_of_get? hget).perm horder

/-- A call that is no half of a check leaves the checks under way as they are. -/
theorem pending_concat (h : s.Follows past) {call : Call} (hcall : ∀ task, ¬ call.IsOf task) :
    ∀ task check, s.pending task = some check → ∃ before,
      Looked (past ++ [call]) before task check.context check.limit ∧ Taken before check.rules := by
  intro task check hpending
  obtain ⟨before, hlooked, htaken⟩ := h.pending task check hpending
  exact ⟨before, hlooked.concat (hcall task), htaken⟩

/-- A change through a handle is a change of the registry. -/
theorem modify (h : s.Follows past) (hopen : s.Open handle) {call : Call}
    (hcall : ∀ task, ¬ call.IsOf task) {change : Registry → Registry}
    (hchange : ∀ registry, registry.Holds past → (change registry).Holds (past ++ [call])) :
    Session.Follows { s with shared := s.shared.modify handle change } (past ++ [call]) := by
  obtain ⟨registry, hregistries, hholds⟩ := h.registry
  have hmodify : s.shared.modify handle change = ⟨[change registry], s.shared.handles⟩ := by
    simp [SharedRegistries.modify, h.place_eq hopen, hregistries]
  rw [hmodify]
  exact ⟨⟨change registry, rfl, hchange registry hholds⟩, h.handles, h.pending_concat hcall⟩

/-- A call that only reads leaves the session what the calls made of it. -/
theorem concat (h : s.Follows past) {call : Call} (hcall : ∀ task, ¬ call.IsOf task)
    (hkeeps : ∀ id, ¬ call.Changes id) : s.Follows (past ++ [call]) := by
  obtain ⟨registry, hregistries, hholds⟩ := h.registry
  exact ⟨⟨registry, hregistries, hholds.concat hkeeps⟩, h.handles, h.pending_concat hcall⟩

/-- A half of a check changes what is under way for its own task only. -/
theorem update (h : s.Follows past) {call : Call} {task : Nat} {check? : Option PendingCheck}
    (hcall : ∀ other, call.IsOf other → other = task) (hkeeps : ∀ id, ¬ call.Changes id)
    (hcheck : ∀ check, check? = some check → ∃ before,
      Looked (past ++ [call]) before task check.context check.limit ∧ Taken before check.rules) :
    (s.setPending task check?).Follows (past ++ [call]) := by
  obtain ⟨registry, hregistries, hholds⟩ := h.registry
  refine ⟨⟨registry, hregistries, hholds.concat hkeeps⟩, h.handles, fun other check hother => ?_⟩
  by_cases heq : other = task
  · subst heq
    exact hcheck check (by simpa [Session.setPending] using hother)
  · have hsame : s.pending other = some check := by simpa [Session.setPending, heq] using hother
    obtain ⟨before, hlooked, htaken⟩ := h.pending other check hsame
    exact ⟨before, hlooked.concat fun hof => heq (hcall other hof), htaken⟩

end Session.Follows

variable {s s' : Session} {past : List Call} {call : Call} {reply : Reply}

/-- A handle that can be read through was given out. -/
theorem Session.Sees.isOpen {handle : Nat} {order : Registry} (h : s.Sees handle order) :
    s.Open handle := by
  obtain ⟨registry, hget, -⟩ := h
  obtain ⟨place, hplace, -⟩ := Option.bind_eq_some_iff.1 hget
  exact (List.getElem?_eq_some_iff.1 hplace).1

/-- A step leaves the session what the calls made of it. -/
theorem Step.follows (hstep : Step s call reply s') (h : s.Follows past) :
    s'.Follows (past ++ [call]) := by
  cases hstep with
  | share hopen =>
    obtain ⟨registry, hregistries, hholds⟩ := h.registry
    have hshare := h.place_eq hopen
    refine ⟨⟨registry, ?_, hholds.concat fun _ => id⟩, ?_, h.pending_concat fun _ => id⟩
    · simp [SharedRegistries.share, hshare, hregistries]
    · simpa [SharedRegistries.share, hshare, or_imp, forall_and] using h.handles
  | register hopen => exact h.modify hopen (fun _ => id) fun _ hholds => hholds.register _ _
  | remove hsees => exact h.modify hsees.isOpen (fun _ => id) fun _ hholds => hholds.erase _ _
  | get hsees => exact h.concat (fun _ => id) fun _ => id
  | list hsees => exact h.concat (fun _ => id) fun _ => id
  | size hsees => exact h.concat (fun _ => id) fun _ => id
  | look hfree hsees =>
    refine h.update (fun _ => Eq.symm) (fun _ => id) fun check hcheck => ?_
    obtain rfl := Option.some.inj hcheck
    exact ⟨past, ⟨_, [], rfl, fun _ hmem => absurd hmem List.not_mem_nil⟩, (h.holds hsees).taken⟩
  | finish hpending =>
    exact h.update (fun _ => Eq.symm) (fun _ => id) fun _ hcheck => nomatch hcheck

/-- The reply of a step is the answer to its call. -/
theorem Step.answers (hstep : Step s call reply s') (h : s.Follows past) :
    Answers past call reply := by
  cases hstep with
  | share hopen => exact .share
  | register hopen => exact .register
  | remove hsees => exact .remove ((h.holds hsees).finds _) (finds_concat_remove _ _ _)
  | get hsees => exact .get ((h.holds hsees).finds _)
  | list hsees => exact .list (h.holds hsees).lists
  | size hsees =>
    rw [size_eq_length_list]
    exact .size (h.holds hsees).lists
  | look hfree hsees => exact .look
  | finish hpending =>
    obtain ⟨before, hlooked, htaken⟩ := h.pending _ _ hpending
    exact .finish hlooked (htaken.checks _ _)

/-- Every call that can be made is answered. -/
theorem Session.Follows.exists_step (h : s.Follows past) (hallows : s.Allows call) :
    ∃ reply s', Step s call reply s' := by
  cases call with
  | share handle => exact ⟨_, _, .share hallows⟩
  | register handle rule => exact ⟨_, _, .register hallows⟩
  | remove handle id =>
    obtain ⟨order, hsees⟩ := h.sees hallows
    exact ⟨_, _, .remove hsees⟩
  | get handle id =>
    obtain ⟨order, hsees⟩ := h.sees hallows
    exact ⟨_, _, .get hsees⟩
  | list handle =>
    obtain ⟨order, hsees⟩ := h.sees hallows
    exact ⟨_, _, .list hsees⟩
  | size handle =>
    obtain ⟨order, hsees⟩ := h.sees hallows
    exact ⟨_, _, .size hsees⟩
  | look task handle context limit =>
    obtain ⟨hfree, hopen⟩ := hallows
    obtain ⟨order, hsees⟩ := h.sees hopen
    exact ⟨_, _, .look hfree hsees⟩
  | finish task =>
    obtain ⟨check, hpending⟩ := Option.isSome_iff_exists.1 hallows
    exact ⟨_, _, .finish hpending⟩

/-! ## The answers leave no choice -/

/-- Things in strictly ascending order are determined by which things occur. -/
theorem AscendingByBytes.eq_of_mem_iff {α : Type} {id : α → String} {things others : List α}
    (h : AscendingByBytes id things) (h' : AscendingByBytes id others)
    (hmem : ∀ a, a ∈ things ↔ a ∈ others) : things = others := by
  have hnodup : ∀ {list : List α}, AscendingById id list → list.Nodup := by
    refine fun hascending => List.Pairwise.imp (fun {a b} hlt heq => ?_) hascending
    rw [heq] at hlt
    exact String.lt_irrefl _ hlt
  have hthings := ascendingByBytes_iff.1 h
  have hothers := ascendingByBytes_iff.1 h'
  exact hthings.eq_of_perm hothers
    ((List.perm_ext_iff_of_nodup (hnodup hthings) (hnodup hothers)).2 hmem)

/-- The last place of a kind in a list is a single one. -/
theorem eq_of_append_cons_eq {α : Type} {kind : α → Prop} {before before' after after' : List α}
    {a a' : α} (h : before ++ a :: after = before' ++ a' :: after')
    (hafter : ∀ x ∈ after, ¬ kind x) (hafter' : ∀ x ∈ after', ¬ kind x) (ha : kind a)
    (ha' : kind a') : before = before' ∧ a = a' := by
  obtain ⟨gap, rfl, hgap⟩ | ⟨gap, rfl, hgap⟩ := List.append_eq_append_iff.1 h
  · cases gap with
    | nil => exact ⟨by simp, (List.cons.inj hgap).1⟩
    | cons first gap =>
      have hmem : a' ∈ after := by rw [(List.cons.inj hgap).2]; simp
      exact absurd ha' (hafter a' hmem)
  · cases gap with
    | nil => exact ⟨by simp, (List.cons.inj hgap).1.symm⟩
    | cons first gap =>
      have hmem : a ∈ after' := by rw [(List.cons.inj hgap).2]; simp
      exact absurd ha (hafter' a hmem)

/-- There is one answer to a call. -/
theorem Answers.unique {reply' : Reply} (h : Answers past call reply)
    (h' : Answers past call reply') : reply = reply' := by
  have hfound : ∀ {id : String} {found found' : Option Rule}, Finds past id found →
      Finds past id found' → found = found' :=
    fun hfinds hfinds' => Option.ext fun rule => (hfinds rule).trans (hfinds' rule).symm
  have hlisted : ∀ {summaries summaries' : List RuleSummary}, Lists past summaries →
      Lists past summaries' → summaries = summaries' :=
    fun hlists hlists' => hlists.1.eq_of_mem_iff hlists'.1
      fun summary => (hlists.2 summary).trans (hlists'.2 summary).symm
  cases h with
  | share | register | look => cases h'; rfl
  | remove hfinds _ => cases h' with | remove hfinds' _ => rw [hfound hfinds hfinds']
  | get hfinds => cases h' with | get hfinds' => rw [hfound hfinds hfinds']
  | list hlists => cases h' with | list hlists' => rw [hlisted hlists hlists']
  | size hlists => cases h' with | size hlists' => rw [hlisted hlists hlists']
  | finish hlooked hchecks =>
    cases h' with
    | finish hlooked' hchecks' =>
      obtain ⟨handle, between, hpast, hbetween⟩ := hlooked
      obtain ⟨handle', between', hpast', hbetween'⟩ := hlooked'
      -- Both have the first half that was made last.
      obtain ⟨rfl, hlook⟩ := eq_of_append_cons_eq (hpast.symm.trans hpast')
        hbetween hbetween' rfl rfl
      cases hlook
      rw [hchecks.1.eq_of_mem_iff hchecks'.1
        fun outcome => (hchecks.2 outcome).trans (hchecks'.2 outcome).symm]

/-- Histories of the same calls are the same, if all their replies are answers. -/
theorem Answered.unique {history other : List (Call × Reply)} (h : Answered past history)
    (h' : Answered past other) (hcalls : other.map (·.1) = history.map (·.1)) :
    other = history := by
  have hanswers : ∀ {list : List (Call × Reply)}, Answered past list → ∀ {i : Nat}
      (hi : i < list.length), Answers (past ++ (list.map (·.1)).take i) list[i].1 list[i].2 := by
    intro list hlist i hi
    have hsplit : list = list.take i ++ list[i] :: list.drop (i + 1) := by
      rw [← List.drop_eq_getElem_cons hi, List.take_append_drop]
    rw [← List.map_take]
    exact hlist _ _ _ _ hsplit
  have hlength : other.length = history.length := by
    simpa using congrArg List.length hcalls
  refine List.ext_getElem hlength fun i hi hi' => ?_
  have hcall : other[i].1 = history[i].1 := by
    have hat := congrArg (·[i]?) hcalls
    simpa [List.getElem?_eq_getElem hi, List.getElem?_eq_getElem hi'] using hat
  have hanswer := hanswers h' hi
  rw [hcalls, hcall] at hanswer
  exact Prod.ext hcall (hanswer.unique (hanswers h hi'))

/-! ## Runs -/

variable {book : RuleBook} {history : List (Call × Reply)}

/-- A run leaves the session what its calls made of it. -/
theorem Run.follows (hrun : Run (.start book) history s) :
    s.Follows (opening book ++ history.map (·.1)) := by
  induction hrun with
  | nil => simpa using Session.Follows.start book
  | step hrun hstep ih => simpa using hstep.follows ih

/-- Every reply of a run is the answer to its call after the calls before it. -/
theorem Run.answered (hrun : Run (.start book) history s) : Answered (opening book) history := by
  induction hrun with
  | nil =>
    intro before call reply after hsplit
    simp at hsplit
  | step hrun hstep ih =>
    intro before call reply after hsplit
    obtain ⟨rfl, hlast, -⟩ | ⟨rest, rfl, hfront⟩ := concat_eq_append_cons hsplit
    · cases hlast
      exact hstep.answers hrun.follows
    · exact ih before call reply rest hfront

/-- A run that ends in a session is that of one finite map from identifiers to rules. -/
structure RefinesMap (book : RuleBook) (history : List (Call × Reply)) (s : Session) : Prop where
  /-- Every reply says what was in place: at its call, or for a check at its first half. -/
  answered : Answered (opening book) history
  /-- Through every handle that was given out there is a registry. -/
  reached : ∀ handle, s.Open handle → ∃ registry, s.shared.get? handle = some registry
  /-- The registry of a handle holds every rule under its own identifier. -/
  own : ∀ handle registry, s.shared.get? handle = some registry →
    ∀ entry ∈ registry.entries, entry.1 = entry.2.id
  /-- The registry of a handle has, under every identifier, the rule in place. -/
  finds : ∀ handle registry, s.shared.get? handle = some registry →
    ∀ id, Finds (opening book ++ history.map (·.1)) id (registry.get? id)
  /-- Another run with the calls of the history has its replies, in whatever orders entries came. -/
  unique : ∀ other s', Run (.start book) other s' → other.map (·.1) = history.map (·.1) →
    other = history
  /-- Every call that can be made is answered. -/
  continues : ∀ call, s.Allows call → ∃ reply s', Step s call reply s'

/-- Every run on a shared registry is that of one finite map, whatever calls are made through
whichever handles and in whatever orders entries come. -/
theorem run_refines_map (hrun : Run (.start book) history s) : RefinesMap book history s := by
  have hfollows := hrun.follows
  refine ⟨hrun.answered, fun handle hopen => ?_, fun handle registry hget => ?_,
    fun handle registry hget => ?_, fun other s' hother hcalls => ?_, fun call => ?_⟩
  · obtain ⟨_, registry, hget, _⟩ := hfollows.sees hopen
    exact ⟨registry, hget⟩
  · exact (hfollows.holds_of_get? hget).keyed.own
  · exact (hfollows.holds_of_get? hget).finds
  · exact hrun.answered.unique hother.answered hcalls
  · exact hfollows.exists_step

/-- A rule that is triggered by quantities below a bound. -/
def minimumRule (bound : Int) : Rule :=
  ⟨"minimum", none, "", .rule, .warn, some "too few", true,
    .comparison .less (.field "quantity") (.const (.number (.ofInt bound)))⟩

/-- A rule that is replaced and removed during a check is still checked as it was when the check
began. -/
theorem run_refines_map_replacement :
    let book : RuleBook := ⟨default, [minimumRule 10]⟩
    let context : Context := .ofList [("quantity", .number (.ofInt 15))]
    let history : List (Call × Reply) :=
      [(.share 0, .done), (.look 7 1 context 64, .done), (.register 0 (minimumRule 20), .done),
        (.get 1 "minimum", .rule (some (minimumRule 20))),
        (.remove 1 "minimum", .rule (some (minimumRule 20))), (.list 0, .listing []),
        (.finish 7, .outcomes [(minimumRule 10).check context 64])]
    ∃ s, Run (.start book) history s ∧ RefinesMap book history s := by
  intro book context history
  have hrun : ∃ s, Run (.start book) history s := by
    have hnone : (⟨[]⟩ : Registry).list = [] := by simp [Registry.list, rules, sortById]
    have hold : checkRules [minimumRule 10] context 64 = [(minimumRule 10).check context 64] := by
      simp [checkRules, sortById]
    have h1 := Run.nil.step (@Step.share (.start book) 0 Nat.zero_lt_one)
    have h2 := h1.step (@Step.look _ 7 1 context 64 _ rfl ⟨_, rfl, List.Perm.refl _⟩)
    have h3 := h2.step (@Step.register _ 0 (minimumRule 20) Nat.two_pos)
    have h4 := h3.step (@Step.get _ 1 "minimum" _ ⟨_, rfl, List.Perm.refl _⟩)
    have h5 := h4.step (@Step.remove _ 1 "minimum" _ ⟨_, rfl, List.Perm.refl _⟩)
    have h6 := h5.step (@Step.list _ 0 ⟨[]⟩ ⟨_, rfl, List.Perm.refl _⟩)
    have h7 := h6.step (@Step.finish _ 7 ⟨[minimumRule 10], context, 64⟩ rfl)
    rw [hnone, hold] at h7
    exact ⟨_, h7⟩
  obtain ⟨s, hrun⟩ := hrun
  exact ⟨s, hrun, run_refines_map hrun⟩

end AuditedRules.Registry
