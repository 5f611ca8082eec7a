import AuditedRules.Proofs.Evaluation.SignOfZero
import AuditedRules.Proofs.OrderedMap
import Mathlib.Data.List.Forall2

/-!
# Contexts and their JSON form

An object is taken into a context member by member. This goes well as long as the members are
scalars, and the entries that they stand for are then those of the context
(`Context.insertMembers_eq_ok_iff`); it ends at the first member that is none
(`Context.insertMembers_eq_error_iff`). So it is determined which values are contexts, what these
contexts define, and what is reported of the other values.

The JSON form of a context is an object of scalars when its numbers are finite, and it is read back
with zeros that are positive (`Context.ofJson_toJson_of_finite`). Evaluation does not show the sign
of zero, so no predicate can tell the two contexts apart (`contexts_convert_exactly`).
-/

namespace AuditedRules

/-! ## Scalars -/

/-- Booleans, numbers and strings are values. -/
theorem Value.isSome_ofJson?_iff {json : Json} :
    (ofJson? json).isSome = true ↔ json.kind ∈ [Json.Kind.boolean, .number, .string] := by
  cases json <;> simp [ofJson?, Json.kind]

/-- The JSON form of a value is a scalar when the value is finite. -/
theorem Value.kind_toJson_iff {value : Value} :
    value.toJson.kind ∈ [Json.Kind.boolean, .number, .string] ↔ value.Finite := by
  rw [← isSome_ofJson?_iff, Option.isSome_iff_exists]
  simp only [ofJson?_eq_some_iff]
  exact ⟨fun ⟨_, h⟩ => finite_of_spellsConstant h, fun h => ⟨_, spellsConstant_toJson h⟩⟩

/-- A value that is not finite is a number. -/
theorem Value.exists_number_of_not_finite {value : Value} (h : ¬ value.Finite) :
    ∃ x, value = .number x ∧ x.isFinite = false := by
  cases value with
  | number x => exact ⟨x, rfl, Bool.eq_false_iff.2 h⟩
  | _ => exact absurd trivial h

namespace Context

variable {members : List (String × Json)} {context taken : Context} {e : ContextError}

/-! ## Members -/

/-- The entries that some members stand for, one by one. -/
def EntriesOf : List (String × Json) → List (String × Value) → Prop :=
  List.Forall₂ fun m entry => m.1 = entry.1 ∧ SpellsConstant m.2 entry.2

/-- The entries say of a name what the first member with that name stands for. -/
theorem EntriesOf.entryValue?_iff {entries : List (String × Value)} (h : EntriesOf members entries)
    {name : String} {value : Value} :
    entryValue? name entries = some value ↔
      ∃ json, entryValue? name members = some json ∧ SpellsConstant json value := by
  induction h with
  | nil => simp [entryValue?]
  | @cons m entry members entries hm hrest ih =>
    obtain ⟨hname, hspells⟩ := hm
    rw [entryValue?, entryValue?, hname]
    split
    · simp only [Option.some.injEq, exists_eq_left']
      rw [← Value.ofJson?_eq_some_iff, Value.ofJson?_eq_some_iff.2 hspells, Option.some.injEq]
    · exact ih

/-- The members of an object are taken into a context when they stand for entries, which are
inserted in their order. -/
theorem insertMembers_eq_ok_iff :
    context.insertMembers members = .ok taken ↔ ∃ entries, EntriesOf members entries ∧
      taken = entries.foldl (fun map e => map.insert e.1 e.2) context := by
  induction members generalizing context with
  | nil =>
    constructor
    · rintro ⟨⟩
      exact ⟨[], .nil, rfl⟩
    · rintro ⟨entries, ⟨⟩, rfl⟩
      rfl
  | cons m members ih =>
    obtain ⟨key, json⟩ := m
    rw [insertMembers]
    cases hvalue : Value.ofJson? json with
    | none =>
      refine iff_of_false (by rintro ⟨⟩) ?_
      rintro ⟨entries, hentries, -⟩
      -- No entry stands for a member that is no scalar.
      cases hentries with
      | cons hm hrest => cases hvalue.symm.trans (Value.ofJson?_eq_some_iff.2 hm.2)
    | some value =>
      refine ih.trans ⟨?_, ?_⟩
      · rintro ⟨entries, hentries, rfl⟩
        have hm := Value.ofJson?_eq_some_iff.1 hvalue
        exact ⟨(key, value) :: entries, .cons ⟨rfl, hm⟩ hentries, rfl⟩
      · rintro ⟨entries, hentries, rfl⟩
        cases hentries with
        | @cons _ entry _ entries hm hrest =>
          obtain ⟨name, other⟩ := entry
          obtain ⟨rfl, hspells⟩ := hm
          -- A member spells one scalar only, so the entry in front is that of the member.
          cases hvalue.symm.trans (Value.ofJson?_eq_some_iff.2 hspells)
          exact ⟨entries, hrest, rfl⟩

/-- The members of an object are taken into a context when all of them are values. -/
theorem exists_insertMembers_iff :
    (∃ taken, context.insertMembers members = .ok taken) ↔
      ∀ m ∈ members, m.2.kind ∈ [Json.Kind.boolean, .number, .string] := by
  induction members generalizing context with
  | nil => exact ⟨fun _ _ hm => absurd hm List.not_mem_nil, fun _ => ⟨context, rfl⟩⟩
  | cons m members ih =>
    rw [List.forall_mem_cons, ← Value.isSome_ofJson?_iff, insertMembers]
    cases Value.ofJson? m.2 with
    | none => simp
    | some value =>
      rw [Option.isSome_some, eq_self, true_and]
      exact ih

/-- The values that are read as contexts are the objects all of whose members are scalars. -/
theorem exists_ofJson_iff {v : Json} :
    (∃ context, ofJson v = .ok context) ↔ ∃ members, v = .object members ∧
      ∀ m ∈ members, m.2.kind ∈ [Json.Kind.boolean, .number, .string] := by
  constructor
  · rintro ⟨context, h⟩
    cases v with
    | object members => exact ⟨members, rfl, exists_insertMembers_iff.1 ⟨context, h⟩⟩
    | _ => cases h
  · rintro ⟨members, rfl, hmembers⟩
    exact exists_insertMembers_iff.2 hmembers

/-- What is reported of members that are not all scalars: the name of the first that is none, and
its kind. -/
def FirstOffender (members : List (String × Json)) (e : ContextError) : Prop :=
  ∃ front key json back, members = front ++ (key, json) :: back ∧
    (∀ m ∈ front, m.2.kind ∈ [Json.Kind.boolean, .number, .string]) ∧
    json.kind ∉ [Json.Kind.boolean, .number, .string] ∧ e = .unsupportedValue key json.kind

/-- Members are refused for the first offender among them. -/
theorem insertMembers_eq_error_iff :
    context.insertMembers members = .error e ↔ FirstOffender members e := by
  induction members generalizing context with
  | nil => exact iff_of_false (by rintro ⟨⟩) (by rintro ⟨_ | _, _, _, _, ⟨⟩, _⟩)
  | cons m members ih =>
    obtain ⟨key, json⟩ := m
    rw [insertMembers]
    cases hvalue : Value.ofJson? json with
    | none =>
      -- The member is no scalar, so it is the first offender, and nothing else is.
      have hoffends : json.kind ∉ [Json.Kind.boolean, .number, .string] := by
        rw [← Value.isSome_ofJson?_iff, hvalue]
        exact Bool.false_ne_true
      constructor
      · rintro ⟨⟩
        exact ⟨[], key, json, members, rfl, fun _ h => absurd h List.not_mem_nil, hoffends, rfl⟩
      · rintro ⟨front, name, other, back, hmembers, hfront, -, rfl⟩
        cases front with
        | nil =>
          cases hmembers
          rfl
        | cons first front =>
          cases hmembers
          exact absurd (hfront _ List.mem_cons_self) hoffends
    | some value =>
      -- The member is a scalar, so the first offender stands behind it.
      have hscalar : json.kind ∈ [Json.Kind.boolean, .number, .string] := by
        rw [← Value.isSome_ofJson?_iff, hvalue]
        rfl
      refine ih.trans ⟨?_, ?_⟩
      · rintro ⟨front, name, other, back, rfl, hfront, hoffends, he⟩
        exact ⟨(key, json) :: front, name, other, back, rfl,
          List.forall_mem_cons.2 ⟨hscalar, hfront⟩, hoffends, he⟩
      · rintro ⟨front, name, other, back, hmembers, hfront, hoffends, he⟩
        cases front with
        | nil =>
          cases hmembers
          exact absurd hscalar hoffends
        | cons first front =>
          cases hmembers
          exact ⟨front, name, other, back, rfl, (List.forall_mem_cons.1 hfront).2, hoffends, he⟩

/-! ## Objects -/

/-- The context defines the names of some members and no others, each with the scalar that its
member is. Of members with the same name the last counts. -/
def HasMembers (context : Context) (members : List (String × Json)) : Prop :=
  ∀ name value, context.get? name = some value ↔
    ∃ json, entryValue? name members.reverse = some json ∧ SpellsConstant json value

/-- Where the names of the members differ, each member counts. -/
theorem HasMembers.get?_eq_some_iff (h : context.HasMembers members)
    (distinct : members.Pairwise fun a b => a.1 ≠ b.1) {name : String} {value : Value} :
    context.get? name = some value ↔
      ∃ json, (name, json) ∈ members ∧ SpellsConstant json value := by
  rw [h name value, entryValue?_reverse name distinct]
  simp only [entryValue?_eq_some_iff distinct]

/-- Members determine the context. -/
theorem HasMembers.unique (h : context.HasMembers members) (h' : taken.HasMembers members) :
    context = taken :=
  OrderedMap.ext_get? fun name => Option.ext fun value => (h name value).trans (h' name value).symm

/-- The context of an object has its members. -/
theorem hasMembers_of_ofJson (h : ofJson (.object members) = .ok context) :
    context.HasMembers members := by
  obtain ⟨entries, hentries, rfl⟩ := insertMembers_eq_ok_iff.1 h
  intro name value
  show (OrderedMap.ofList entries).get? name = some value ↔ _
  rw [OrderedMap.get?_ofList]
  exact EntriesOf.entryValue?_iff (List.forall₂_reverse_iff.2 hentries)

/-- The contexts that are read are those with the members of an object of scalars. -/
theorem ofJson_eq_ok_iff {v : Json} :
    ofJson v = .ok context ↔ ∃ members, v = .object members ∧
      (∀ m ∈ members, m.2.kind ∈ [Json.Kind.boolean, .number, .string]) ∧
        context.HasMembers members := by
  constructor
  · intro h
    obtain ⟨members, rfl, hscalars⟩ := exists_ofJson_iff.1 ⟨context, h⟩
    exact ⟨members, rfl, hscalars, hasMembers_of_ofJson h⟩
  · rintro ⟨members, rfl, hscalars, hhas⟩
    obtain ⟨taken, h⟩ := exists_ofJson_iff.2 ⟨members, rfl, hscalars⟩
    rw [h, (hasMembers_of_ofJson h).unique hhas]

/-- A value is refused as no object, or for the first of its members that is no scalar. -/
theorem ofJson_eq_error_iff {v : Json} :
    ofJson v = .error e ↔ v.kind ≠ .object ∧ e = .notAnObject ∨
      ∃ members, v = .object members ∧ FirstOffender members e := by
  cases v with
  | object members =>
    refine insertMembers_eq_error_iff.trans ⟨fun h => .inr ⟨members, rfl, h⟩, ?_⟩
    rintro (⟨hkind, -⟩ | ⟨_, ⟨⟩, h⟩)
    · exact absurd rfl hkind
    · exact h
  | _ =>
    constructor
    · rintro ⟨⟩
      exact .inl ⟨by rintro ⟨⟩, rfl⟩
    · rintro (⟨-, rfl⟩ | ⟨_, ⟨⟩, -⟩)
      rfl

/-! ## Reading back -/

/-- All numbers that a context has are finite. -/
def Finite (context : Context) : Prop :=
  ∀ name value, context.get? name = some value → value.Finite

/-- Names ascend as before when the values are changed. -/
theorem ascending_map {α β : Type} {entries : List (String × α)} (f : α → β)
    (h : Ascending entries) : Ascending (entries.map fun entry => (entry.1, f entry.2)) :=
  List.pairwise_map.2 h

/-- The context with its zeros taken as positive. -/
def canonical (context : Context) : Context :=
  ⟨context.entries.map fun entry => (entry.1, entry.2.canonical),
    ascending_map Value.canonical context.ascending⟩

/-- The canonical context has for a name what the context has, with a zero taken as positive. -/
theorem get?_canonical (context : Context) (name : String) :
    context.canonical.get? name = (context.get? name).map Value.canonical := by
  show entryValue? name (context.entries.map fun entry => (entry.1, entry.2.canonical)) =
    (entryValue? name context.entries).map Value.canonical
  induction context.entries with
  | nil => rfl
  | cons head rest ih =>
    rw [List.map_cons, entryValue?, entryValue?, ih]
    split <;> rfl

/-- A context and its canonical one are alike. -/
theorem alike_canonical (context : Context) : context.Alike context.canonical := fun name => by
  rw [get?_canonical, Option.map_map]
  exact congrArg (Option.map · (context.get? name))
    (funext fun value => value.canonical_canonical.symm)

/-- A finite context equals its canonical one. -/
theorem same_canonical (h : context.Finite) : context.same context.canonical = true := by
  have hkeys : context.keys = context.canonical.keys := by
    simp [OrderedMap.keys, canonical]
  unfold same
  rw [hkeys, beq_self_eq_true, Bool.true_and, List.all_eq_true]
  intro entry hentry
  have hget : context.get? entry.1 = some entry.2 := OrderedMap.get?_eq_some_iff.2 hentry
  have hfinite := h _ _ hget
  rw [get?_canonical, hget]
  show entry.2.strictEq entry.2.canonical = true
  rw [Value.strictEq_iff_canonical_eq hfinite, Value.canonical_canonical]

/-- No predicate can tell a context from its canonical one. -/
theorem evaluate_canonical_showsSame (context : Context) (p : Predicate) (limit : Nat) :
    (p.evaluate context limit).ShowsSame (p.evaluate context.canonical limit) := by
  have hleft := p.evaluate_canonical_showsSame context.alike_canonical limit
  have hright := p.evaluate_canonical_showsSame (.refl context.canonical) limit
  exact hleft.trans hright.symm

/-- The JSON form of a finite context is read back with its zeros positive. -/
theorem ofJson_toJson_of_finite (h : context.Finite) :
    ofJson context.toJson = .ok context.canonical := by
  refine insertMembers_eq_ok_iff.2 ⟨context.canonical.entries, ?_,
    context.canonical.ofList_entries.symm⟩
  unfold EntriesOf canonical
  rw [List.forall₂_map_left_iff, List.forall₂_map_right_iff, List.forall₂_same]
  intro entry hentry
  exact ⟨rfl, Value.spellsConstant_toJson (h _ _ (OrderedMap.get?_eq_some_iff.2 hentry))⟩

/-- Entries that are not all finite have a first one that is not. -/
theorem exists_first_not_finite {entries : List (String × Value)}
    (h : ¬ ∀ entry ∈ entries, entry.2.Finite) :
    ∃ front key x back, entries = front ++ (key, .number x) :: back ∧
      (∀ entry ∈ front, entry.2.Finite) ∧ x.isFinite = false := by
  induction entries with
  | nil => exact absurd (List.forall_mem_nil _) h
  | cons first rest ih =>
    by_cases hfirst : first.2.Finite
    · rw [List.forall_mem_cons, and_iff_right hfirst] at h
      obtain ⟨front, key, x, back, rfl, hfront, hx⟩ := ih h
      exact ⟨first :: front, key, x, back, rfl, List.forall_mem_cons.2 ⟨hfirst, hfront⟩, hx⟩
    · obtain ⟨key, value⟩ := first
      obtain ⟨x, rfl, hx⟩ := Value.exists_number_of_not_finite hfirst
      exact ⟨[], key, x, rest, rfl, List.forall_mem_nil _, hx⟩

/-- The JSON form of a context that is not finite is refused for the smallest name of a number that
is not finite, which is null in the form. -/
theorem ofJson_toJson_of_not_finite (h : ¬ context.Finite) :
    ∃ key x, context.get? key = some (.number x) ∧ x.isFinite = false ∧
      (∀ name y, context.get? name = some (.number y) → y.isFinite = false → key ≤ name) ∧
      ofJson context.toJson = .error (.unsupportedValue key .null) := by
  have hentries : ¬ ∀ entry ∈ context.entries, entry.2.Finite := fun hall =>
    h fun name value hget => hall _ (OrderedMap.get?_eq_some_iff.1 hget)
  obtain ⟨front, key, x, back, hsplit, hfront, hx⟩ := exists_first_not_finite hentries
  have hascending := context.ascending
  rw [hsplit] at hascending
  have hback := (List.pairwise_cons.1 (List.pairwise_append.1 hascending).2.1).1
  refine ⟨key, x, ?_, hx, fun name y hget hy => ?_, ?_⟩
  · rw [OrderedMap.get?_eq_some_iff, hsplit]
    exact List.mem_append_right _ List.mem_cons_self
  · rw [OrderedMap.get?_eq_some_iff, hsplit, List.mem_append, List.mem_cons] at hget
    rcases hget with hmem | hmem | hmem
    · exact absurd (hfront _ hmem) (Bool.eq_false_iff.1 hy)
    · cases hmem
      exact String.le_refl key
    · exact String.not_lt.1 (String.lt_asymm (hback _ hmem))
  · have hnull : (Value.number x).toJson = .null :=
      Value.toJson_eq_null_iff.2 (Bool.eq_false_iff.1 hx)
    unfold toJson
    rw [hsplit, List.map_append, List.map_cons, hnull]
    refine insertMembers_eq_error_iff.2 ⟨_, key, .null, _, rfl, fun m hm => ?_, by decide, rfl⟩
    obtain ⟨entry, hentry, rfl⟩ := List.mem_map.1 hm
    exact Value.kind_toJson_iff.2 (hfront entry hentry)

end Context

/-- A value is a context exactly when it is an object of scalars, and the context then defines the
names of the members with the scalars that these are. Any other value is refused as no object or for
its first member that is no scalar. The JSON form of a finite context is read back as an equal one,
in which at most zeros have another sign and which no predicate can tell apart from it. The JSON
form of another context is refused for the smallest name of a number that is not finite, which is
null. -/
theorem contexts_convert_exactly :
    (∀ (v : Json) (context : Context), Context.ofJson v = .ok context ↔
      ∃ members, v = .object members ∧
        (∀ m ∈ members, m.2.kind ∈ [Json.Kind.boolean, .number, .string]) ∧
          context.HasMembers members) ∧
    (∀ (members : List (String × Json)) (context : Context),
      Context.ofJson (.object members) = .ok context →
        members.Pairwise (fun a b => a.1 ≠ b.1) → ∀ name value,
          (context.get? name = some value ↔
            ∃ json, (name, json) ∈ members ∧ SpellsConstant json value)) ∧
    (∀ (v : Json) (e : ContextError), Context.ofJson v = .error e ↔
      v.kind ≠ .object ∧ e = .notAnObject ∨
        ∃ members, v = .object members ∧ Context.FirstOffender members e) ∧
    (∀ context : Context, context.Finite →
      ∃ again, Context.ofJson context.toJson = .ok again ∧ context.same again = true ∧
        (∀ name, again.get? name = (context.get? name).map Value.canonical) ∧
        ∀ (p : Predicate) (limit : Nat),
          (p.evaluate context limit).ShowsSame (p.evaluate again limit)) ∧
    ∀ context : Context, ¬ context.Finite →
      ∃ key x, context.get? key = some (.number x) ∧ x.isFinite = false ∧
        (∀ name y, context.get? name = some (.number y) → y.isFinite = false → key ≤ name) ∧
        Context.ofJson context.toJson = .error (.unsupportedValue key .null) :=
  ⟨fun _ _ => Context.ofJson_eq_ok_iff,
    fun _ _ h distinct _ _ => (Context.hasMembers_of_ofJson h).get?_eq_some_iff distinct,
    fun _ _ => Context.ofJson_eq_error_iff,
    fun context h => ⟨context.canonical, Context.ofJson_toJson_of_finite h,
      Context.same_canonical h, context.get?_canonical, context.evaluate_canonical_showsSame⟩,
    fun _ => Context.ofJson_toJson_of_not_finite⟩

/-- A context with a negative zero is read back as an equal one, with its text. One with two numbers
that are not finite is refused for the name that comes first in the order of names. -/
theorem contexts_convert_exactly_negative_zero :
    let context : Context := .ofList [("tier", .string "gold"), ("balance", .number (.zero true))]
    let broken : Context := .ofList [("rate", .number .nan), ("cap", .number (.infinity false))]
    context.Finite ∧ ¬ broken.Finite ∧
      (∃ again, Context.ofJson context.toJson = .ok again ∧ context.same again = true ∧
        again.get? "tier" = some (.string "gold")) ∧
      Context.ofJson broken.toJson = .error (.unsupportedValue "cap" .null) := by
  intro context broken
  obtain ⟨-, hdistinct, -, hfinite, hbroken⟩ := contexts_convert_exactly
  have hcontext : context.Finite := by
    intro name value hget
    rw [OrderedMap.get?_ofList] at hget
    rcases List.mem_cons.1 (mem_of_entryValue? hget) with hmem | hmem
    · cases hmem
      rfl
    · cases List.mem_singleton.1 hmem
      trivial
  have htier : context.get? "tier" = some (.string "gold") :=
    (OrderedMap.get?_ofList _ _).trans (by decide)
  have hrate : broken.get? "rate" = some (.number .nan) :=
    (OrderedMap.get?_ofList _ _).trans (by decide)
  have hcap : broken.get? "cap" = some (.number (.infinity false)) :=
    (OrderedMap.get?_ofList _ _).trans (by decide)
  have hnot : ¬ broken.Finite := fun h => Bool.false_ne_true (h "rate" _ hrate)
  obtain ⟨again, hagain, hsame, -⟩ := hfinite context hcontext
  obtain ⟨key, x, hget, -, hleast, herror⟩ := hbroken broken hnot
  refine ⟨hcontext, hnot, ⟨again, hagain, hsame, ?_⟩, ?_⟩
  · refine (hdistinct _ again hagain (by decide) "tier" _).2 ⟨.string "gold", ?_, .string "gold"⟩
    exact List.mem_map_of_mem (OrderedMap.get?_eq_some_iff.1 htier)
  · have hkey : key ≤ "cap" := hleast "cap" _ hcap rfl
    rw [OrderedMap.get?_ofList] at hget
    rcases List.mem_cons.1 (mem_of_entryValue? hget) with hmem | hmem
    · cases hmem
      exact herror
    · cases List.mem_singleton.1 hmem
      exact absurd hkey (by decide)

end AuditedRules
