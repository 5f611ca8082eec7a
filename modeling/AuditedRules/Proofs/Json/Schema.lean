import AuditedRules.Proofs.Json.Members

/-!
# JSON Schema

What a schema says of a value, for the keywords `$ref`, `type`, `const`, `enum`, `required`,
`properties`, `oneOf` and `not` of the draft of 2020-12. A schema is an object of keywords, and a
value fits it when it passes all of them. Most keywords look at one kind of values only and pass all
others: `required` and `properties` speak of objects. The keywords `$schema`, `title` and `$defs`
assert nothing.

A reference may lead back to where it stands, so a schema is applied within a number of steps, and
there may be no verdict: when the steps run out, and for keywords and forms of keywords that are not
listed here. A verdict never changes with more steps (`judge_mono`), so `Validates` and `Rejects`
cannot both hold.

Proofs about a given schema use `Decides verdict P`: there is a verdict, and it is positive exactly
when `P` holds. Each keyword has a lemma that says what it decides, from what the schemas inside it
decide.
-/

namespace AuditedRules.Json.Schema

/-! ## Verdicts -/

/-- All checks are passed; there is a verdict when every check has one. -/
def every : List (Option Bool) → Option Bool
  | [] => some true
  | verdict :: rest => do
    let first ← verdict
    let others ← every rest
    some (first && others)

/-- The number of checks that are passed, when every check has a verdict. -/
def passes : List (Option Bool) → Option Nat
  | [] => some 0
  | verdict :: rest => do
    let first ← verdict
    let others ← passes rest
    some (first.toNat + others)

/-! ## Keywords -/

/-- The parts of a text between slashes. -/
def slashParts : List Char → List (List Char)
  | [] => [[]]
  | c :: rest =>
    if c = '/' then [] :: slashParts rest
    else match slashParts rest with
      | [] => [[c]]
      | part :: others => (c :: part) :: others

/-- The schema that a reference `#/name/name…` means inside of the root schema. -/
def resolve (root : Json) (reference : String) : Option Json :=
  match slashParts reference.toList with
  | ['#'] :: names => names.foldlM (fun v name => v.get? (String.ofList name)) root
  | _ => none

/-- Texts, if all items are. -/
def texts? : List Json → Option (List String)
  | [] => some []
  | item :: items => do
    let first ← item.string?
    let others ← texts? items
    some (first :: others)

/-- The value has the type, or one of the types, that `type` names. -/
def typeVerdict (v : Json) : Json → Option Bool
  | .string type => some (type == v.kind.name)
  | .array types => (texts? types).map fun types => types.contains v.kind.name
  | _ => none

/-- The value is the one that `const` gives; here it is a text. -/
def constVerdict (v : Json) : Json → Option Bool
  | .string text => some (v.string? == some text)
  | _ => none

/-- The value is one of those that `enum` gives; here they are texts. -/
def enumVerdict (v : Json) : Json → Option Bool
  | .array items => (texts? items).map fun texts => texts.any fun text => v.string? == some text
  | _ => none

/-- The value, if it is an object, has the members that `required` names. -/
def requiredVerdict (v : Json) : Json → Option Bool
  | .array items => match v with
    | .object _ => (texts? items).map fun names => names.all fun name => (v.get? name).isSome
    | _ => some true
  | _ => none

section
variable (judge : Json → Json → Option Bool) (v : Json)

/-- The member of a name, if the value has it, fits the schema given for it. -/
def propertyVerdict (property : String × Json) : Option Bool :=
  match v.get? property.1 with
  | some member => judge property.2 member
  | none => some true

/-- The members for which `properties` gives schemas fit these. -/
def propertiesVerdict : Json → Option Bool
  | .object properties => every (properties.map (propertyVerdict judge v))
  | _ => none

/-- The value fits exactly one of the schemas of `oneOf`. -/
def oneOfVerdict : Json → Option Bool
  | .array schemas => (passes (schemas.map fun schema => judge schema v)).map (· == 1)
  | _ => none

/-- The value does not fit the schema of `not`. -/
def notVerdict (schema : Json) : Option Bool :=
  (judge schema v).map fun fits => !fits

/-- The value fits the schema that `$ref` refers to. -/
def refVerdict (root : Json) : Json → Option Bool
  | .string reference => (resolve root reference).bind fun schema => judge schema v
  | _ => none

/-- Whether the value passes one keyword of a schema, where `judge` applies the schemas inside. -/
def keywordVerdict (root : Json) (keyword : String × Json) : Option Bool :=
  if keyword.1 = "type" then typeVerdict v keyword.2
  else if keyword.1 = "const" then constVerdict v keyword.2
  else if keyword.1 = "enum" then enumVerdict v keyword.2
  else if keyword.1 = "required" then requiredVerdict v keyword.2
  else if keyword.1 = "properties" then propertiesVerdict judge v keyword.2
  else if keyword.1 = "oneOf" then oneOfVerdict judge v keyword.2
  else if keyword.1 = "not" then notVerdict judge v keyword.2
  else if keyword.1 = "$ref" then refVerdict judge v root keyword.2
  else if keyword.1 ∈ ["$schema", "title", "$defs"] then some true
  else none

end

/-! ## Schemas -/

/-- Whether a value fits a schema inside of a root schema, as far as it can be told within a number
of steps. -/
def judge (root : Json) : Nat → Json → Json → Option Bool
  | 0, _, _ => none
  | steps + 1, .object keywords, v =>
    every (keywords.map (keywordVerdict (judge root steps) v root))
  | _ + 1, .bool fits, _ => some fits
  | _ + 1, _, _ => none

/-- The value fits the schema. -/
def Validates (schema v : Json) : Prop :=
  ∃ steps, judge schema steps schema v = some true

/-- The value does not fit the schema. -/
def Rejects (schema v : Json) : Prop :=
  ∃ steps, judge schema steps schema v = some false

/-! ## More steps -/

/-- Where `judge` has a verdict, `judge'` has the same. -/
def Extends (judge judge' : Json → Json → Option Bool) : Prop :=
  ∀ schema v fits, judge schema v = some fits → judge' schema v = some fits

/-- Checks that keep their verdicts keep the verdict on all of them. -/
theorem every_map_extends {α : Type} {check check' : α → Option Bool}
    (h : ∀ a fits, check a = some fits → check' a = some fits) {items : List α} {fits : Bool}
    (hevery : every (items.map check) = some fits) : every (items.map check') = some fits := by
  induction items generalizing fits with
  | nil => exact hevery
  | cons item rest ih =>
    simp only [List.map_cons, every, Option.bind_eq_bind, Option.bind_eq_some_iff] at hevery ⊢
    obtain ⟨first, hfirst, others, hothers, hfits⟩ := hevery
    exact ⟨first, h item first hfirst, others, ih hothers, hfits⟩

/-- Checks that keep their verdicts keep the number of those that are passed. -/
theorem passes_map_extends {α : Type} {check check' : α → Option Bool}
    (h : ∀ a fits, check a = some fits → check' a = some fits) {items : List α} {count : Nat}
    (hpasses : passes (items.map check) = some count) :
    passes (items.map check') = some count := by
  induction items generalizing count with
  | nil => exact hpasses
  | cons item rest ih =>
    simp only [List.map_cons, passes, Option.bind_eq_bind, Option.bind_eq_some_iff] at hpasses ⊢
    obtain ⟨first, hfirst, others, hothers, hcount⟩ := hpasses
    exact ⟨first, h item first hfirst, others, ih hothers, hcount⟩

section
variable {judge judge' : Json → Json → Option Bool} (h : Extends judge judge')
include h

/-- The schemas of `properties` keep their verdict. -/
theorem propertiesVerdict_extends {v keyword : Json} {fits : Bool}
    (hverdict : propertiesVerdict judge v keyword = some fits) :
    propertiesVerdict judge' v keyword = some fits := by
  cases keyword with
  | object properties =>
    refine every_map_extends (fun property fits hproperty => ?_) hverdict
    unfold propertyVerdict at hproperty ⊢
    cases hm : v.get? property.1 with
    | none => rwa [hm] at hproperty
    | some member =>
      rw [hm] at hproperty
      exact h property.2 member fits hproperty
  | _ => cases hverdict

/-- The schemas of `oneOf` keep their verdict. -/
theorem oneOfVerdict_extends {v keyword : Json} {fits : Bool}
    (hverdict : oneOfVerdict judge v keyword = some fits) :
    oneOfVerdict judge' v keyword = some fits := by
  cases keyword with
  | array schemas =>
    obtain ⟨count, hcount, hfits⟩ := Option.map_eq_some_iff.1 hverdict
    exact Option.map_eq_some_iff.2
      ⟨count, passes_map_extends (fun schema fits => h schema v fits) hcount, hfits⟩
  | _ => cases hverdict

/-- The schema of `not` keeps its verdict. -/
theorem notVerdict_extends {v schema : Json} {fits : Bool}
    (hverdict : notVerdict judge v schema = some fits) :
    notVerdict judge' v schema = some fits := by
  obtain ⟨inner, hinner, hfits⟩ := Option.map_eq_some_iff.1 hverdict
  exact Option.map_eq_some_iff.2 ⟨inner, h schema v inner hinner, hfits⟩

/-- The schema that `$ref` refers to keeps its verdict. -/
theorem refVerdict_extends {root v keyword : Json} {fits : Bool}
    (hverdict : refVerdict judge v root keyword = some fits) :
    refVerdict judge' v root keyword = some fits := by
  cases keyword with
  | string reference =>
    obtain ⟨schema, hschema, hfits⟩ := Option.bind_eq_some_iff.1 hverdict
    exact Option.bind_eq_some_iff.2 ⟨schema, hschema, h schema v fits hfits⟩
  | _ => cases hverdict

/-- A keyword keeps its verdict when the schemas inside it keep theirs. -/
theorem keywordVerdict_extends {root v : Json} {keyword : String × Json} {fits : Bool}
    (hverdict : keywordVerdict judge v root keyword = some fits) :
    keywordVerdict judge' v root keyword = some fits := by
  have hproperties := @propertiesVerdict_extends _ _ h v keyword.2 fits
  have honeOf := @oneOfVerdict_extends _ _ h v keyword.2 fits
  have hnot := @notVerdict_extends _ _ h v keyword.2 fits
  have href := @refVerdict_extends _ _ h root v keyword.2 fits
  unfold keywordVerdict at hverdict ⊢
  grind

end

/-- A verdict within some steps is the verdict within one step more. -/
theorem judge_succ (root : Json) (steps : Nat) :
    Extends (judge root steps) (judge root (steps + 1)) := by
  induction steps with
  | zero =>
    intro schema v fits h
    cases h
  | succ steps ih =>
    intro schema v fits h
    cases schema with
    | object keywords => exact every_map_extends (fun _ _ => keywordVerdict_extends ih) h
    | bool b => exact h
    | _ => cases h

/-- A verdict never changes with more steps. -/
theorem judge_mono (root : Json) {steps more : Nat} (hle : steps ≤ more) :
    Extends (judge root steps) (judge root more) := by
  induction hle with
  | refl => exact fun _ _ _ h => h
  | step _ ih => exact fun schema v fits h => judge_succ root _ schema v fits (ih schema v fits h)

/-- No value both fits a schema and does not. -/
theorem not_rejects_of_validates {schema v : Json} (h : Validates schema v) :
    ¬ Rejects schema v := by
  rintro ⟨more, hmore⟩
  obtain ⟨steps, hsteps⟩ := h
  have htrue := judge_mono schema (Nat.le_max_left steps more) _ _ _ hsteps
  have hfalse := judge_mono schema (Nat.le_max_right steps more) _ _ _ hmore
  rw [htrue] at hfalse
  cases hfalse

/-! ## Deciding -/

/-- There is a verdict, and it is positive exactly when `P` holds. -/
def Decides (verdict : Option Bool) (P : Prop) : Prop :=
  ∃ fits, verdict = some fits ∧ (fits = true ↔ P)

/-- What a verdict decides may be put in other words. -/
theorem Decides.congr {verdict : Option Bool} {P Q : Prop} (h : Decides verdict P) (hPQ : P ↔ Q) :
    Decides verdict Q := by
  obtain ⟨fits, hverdict, hfits⟩ := h
  exact ⟨fits, hverdict, hfits.trans hPQ⟩

/-- A Boolean decides that it is true. -/
theorem decides_some {fits : Bool} {P : Prop} (h : fits = true ↔ P) : Decides (some fits) P :=
  ⟨fits, rfl, h⟩

/-- A negated verdict decides the negation. -/
theorem Decides.not {verdict : Option Bool} {P : Prop} (h : Decides verdict P) :
    Decides (verdict.map fun fits => !fits) (¬ P) := by
  obtain ⟨fits, rfl, hfits⟩ := h
  refine decides_some ?_
  rw [← hfits, Bool.not_eq_true', Bool.not_eq_true]

/-- No checks are all passed. -/
theorem every_nil_decides : Decides (every []) True :=
  decides_some (by simp)

/-- The first of some checks and the others are decided together. -/
theorem every_cons_decides {verdict : Option Bool} {rest : List (Option Bool)} {P Q : Prop}
    (h : Decides verdict P) (hrest : Decides (every rest) Q) :
    Decides (every (verdict :: rest)) (P ∧ Q) := by
  obtain ⟨first, rfl, hfirst⟩ := h
  obtain ⟨others, hothers, hQ⟩ := hrest
  refine ⟨first && others, by rw [every, hothers]; rfl, ?_⟩
  rw [Bool.and_eq_true, hfirst, hQ]

/-- A check that is decided for each item of a list is decided for all of them. -/
theorem every_map_decides {α : Type} {check : α → Option Bool} {P : α → Prop} {items : List α}
    (h : ∀ a ∈ items, Decides (check a) (P a)) :
    Decides (every (items.map check)) (∀ a ∈ items, P a) := by
  induction items with
  | nil => exact every_nil_decides.congr (by simp)
  | cons item rest ih =>
    have hrest := ih fun a ha => h a (List.mem_cons_of_mem _ ha)
    exact (every_cons_decides (h item List.mem_cons_self) hrest).congr (by simp)

/-- A verdict decides one thing only. -/
theorem Decides.iff {verdict : Option Bool} {P Q : Prop} (hP : Decides verdict P)
    (hQ : Decides verdict Q) : P ↔ Q := by
  obtain ⟨fits, hverdict, hfits⟩ := hP
  obtain ⟨fits', hverdict', hfits'⟩ := hQ
  rw [hverdict, Option.some.injEq] at hverdict'
  rw [← hfits, hverdict', hfits']

/-- A verdict that is there decides that it is positive. -/
theorem decides_of_isSome {verdict : Option Bool} (h : verdict.isSome) :
    Decides verdict (verdict = some true) := by
  obtain ⟨fits, rfl⟩ := Option.isSome_iff_exists.1 h
  exact decides_some (by simp)

/-- With a verdict on all checks there is one on each. -/
theorem isSome_of_every {α : Type} {check : α → Option Bool} {items : List α} {fits : Bool}
    (h : every (items.map check) = some fits) : ∀ a ∈ items, (check a).isSome := by
  induction items generalizing fits with
  | nil => simp
  | cons item rest ih =>
    simp only [List.map_cons, every, Option.bind_eq_bind, Option.bind_eq_some_iff] at h
    obtain ⟨first, hfirst, others, hothers, -⟩ := h
    intro a ha
    rcases List.mem_cons.1 ha with rfl | ha
    · rw [hfirst]
      rfl
    · exact ih hothers a ha

/-- The order of checks does not matter, nor does repetition. -/
theorem every_map_decides_of_mem_iff {α : Type} {check : α → Option Bool} {items items' : List α}
    {P : Prop} (h : Decides (every (items.map check)) P) (same : ∀ a, a ∈ items' ↔ a ∈ items) :
    Decides (every (items'.map check)) P := by
  obtain ⟨fits, hfits, -⟩ := id h
  have hsome := isSome_of_every hfits
  have hitems := every_map_decides fun a ha => decides_of_isSome (hsome a ha)
  have hitems' := every_map_decides fun a ha => decides_of_isSome (hsome a ((same a).1 ha))
  refine hitems'.congr (Iff.trans ?_ (hitems.iff h))
  simp only [same]

/-- Of checks that exclude each other at most one is passed, and one is when what it decides
holds. -/
theorem passes_of_exclusive {α : Type} {check : α → Option Bool} {P : α → Prop} {items : List α}
    (decided : ∀ a ∈ items, Decides (check a) (P a))
    (exclusive : items.Pairwise fun a b => P a → ¬ P b) :
    ∃ count, passes (items.map check) = some count ∧ count ≤ 1 ∧
      (count = 1 ↔ ∃ a ∈ items, P a) := by
  induction items with
  | nil => exact ⟨0, rfl, by omega, by simp⟩
  | cons item rest ih =>
    obtain ⟨hitem, hrest⟩ := List.pairwise_cons.1 exclusive
    obtain ⟨fits, hverdict, hfits⟩ := decided item List.mem_cons_self
    have hdecided := fun a ha => decided a (List.mem_cons_of_mem _ ha)
    obtain ⟨count, hcount, hle, hone⟩ := ih hdecided hrest
    refine ⟨fits.toNat + count, by rw [List.map_cons, passes, hverdict, hcount]; rfl, ?_⟩
    simp only [List.mem_cons, exists_eq_or_imp]
    cases fits with
    | false =>
      have hnot : ¬ P item := fun h => by cases hfits.2 h
      simpa only [hnot, false_or, ← hone, Bool.toNat_false, Nat.zero_add, and_true] using hle
    | true =>
      -- The others are excluded, so none of them is passed.
      have hnone : ¬ ∃ a ∈ rest, P a := fun ⟨a, ha, h⟩ => hitem a ha (hfits.1 rfl) h
      rw [← hone] at hnone
      simp only [hfits.1 rfl, true_or, Bool.toNat_true]
      exact ⟨by omega, by simp; omega⟩

/-! ## What keywords decide -/

/-- Texts are the texts of their JSON values. -/
theorem texts?_map_string (texts : List String) : texts? (texts.map .string) = some texts := by
  induction texts with
  | nil => rfl
  | cons text rest ih => rw [List.map_cons, texts?, ih]; rfl

/-- A value has a text exactly when it is that text. -/
theorem string?_eq_some_iff {v : Json} {text : String} :
    v.string? = some text ↔ v = .string text := by
  cases v <;> simp [string?]

section
variable {judge : Json → Json → Option Bool} {v root : Json}

/-- `type` with one type decides that the value has it. -/
theorem type_decides (type : String) :
    Decides (keywordVerdict judge v root ("type", .string type)) (v.kind.name = type) :=
  decides_some (by rw [beq_iff_eq, eq_comm])

/-- `type` with some types decides that the value has one of them. -/
theorem types_decides (types : List String) :
    Decides (keywordVerdict judge v root ("type", .array (types.map .string)))
      (v.kind.name ∈ types) := by
  have htexts := texts?_map_string types
  have hverdict : keywordVerdict judge v root ("type", .array (types.map .string)) =
      some (types.contains v.kind.name) := by
    simp only [keywordVerdict, if_true, typeVerdict, htexts, Option.map_some]
  rw [hverdict]
  exact decides_some List.contains_iff_mem

/-- `const` with a text decides that the value is this text. -/
theorem const_decides (text : String) :
    Decides (keywordVerdict judge v root ("const", .string text)) (v = .string text) :=
  decides_some (by rw [beq_iff_eq, string?_eq_some_iff])

/-- `enum` with some texts decides that the value is one of them. -/
theorem enum_decides (texts : List String) :
    Decides (keywordVerdict judge v root ("enum", .array (texts.map .string)))
      (∃ text, text ∈ texts ∧ v = .string text) := by
  have htexts := texts?_map_string texts
  have hverdict : keywordVerdict judge v root ("enum", .array (texts.map .string)) =
      some (texts.any fun text => v.string? == some text) := by
    simp [keywordVerdict, enumVerdict, htexts]
  rw [hverdict]
  refine decides_some ?_
  simp only [List.any_eq_true, beq_iff_eq, string?_eq_some_iff]

/-- `required` decides of an object that it has the members. -/
theorem required_decides (names : List String) :
    Decides (keywordVerdict judge v root ("required", .array (names.map .string)))
      (v.kind = .object → ∀ name ∈ names, ∃ m, v.get? name = some m) := by
  have htexts := texts?_map_string names
  cases v with
  | object members =>
    have hverdict : keywordVerdict judge (.object members) root
        ("required", .array (names.map .string)) =
          some (names.all fun name => ((Json.object members).get? name).isSome) := by
      simp [keywordVerdict, requiredVerdict, htexts]
    rw [hverdict]
    refine decides_some ?_
    simp only [List.all_eq_true, Option.isSome_iff_exists, kind, true_imp_iff]
  | _ => exact decides_some (by simp [kind])

/-- A member decides what its schema decides, if it is there. -/
theorem property_decides {property : String × Json} {P : Json → Prop}
    (h : ∀ m, v.get? property.1 = some m → Decides (judge property.2 m) (P m)) :
    Decides (propertyVerdict judge v property) (∀ m, v.get? property.1 = some m → P m) := by
  unfold propertyVerdict
  cases hm : v.get? property.1 with
  | none => exact decides_some (by simp)
  | some m => exact (h m hm).congr (by simp)

/-- `properties` decides what its schemas decide of the members, in any order. -/
theorem properties_decides {properties : List (String × Json)} {P : Prop}
    (distinct : properties.Pairwise fun a b => a.1 ≠ b.1)
    (h : Decides (every (properties.map (propertyVerdict judge v))) P) :
    Decides (keywordVerdict judge v root ("properties", .ofMembers properties)) P := by
  obtain ⟨entries, hentries, hmem⟩ := mem_ofMembers_iff distinct
  rw [hentries]
  exact every_map_decides_of_mem_iff h hmem

/-- `oneOf` decides that one of its schemas fits, where they exclude each other. -/
theorem oneOf_decides {α : Type} {items : List α} {schemaOf : α → Json} {P : α → Prop}
    (decided : ∀ a ∈ items, Decides (judge (schemaOf a) v) (P a))
    (exclusive : items.Pairwise fun a b => P a → ¬ P b) :
    Decides (keywordVerdict judge v root ("oneOf", .array (items.map schemaOf)))
      (∃ a ∈ items, P a) := by
  obtain ⟨count, hcount, -, hone⟩ := passes_of_exclusive decided exclusive
  have hpasses : passes ((items.map schemaOf).map fun schema => judge schema v) = some count := by
    rw [List.map_map]
    exact hcount
  have hverdict : keywordVerdict judge v root ("oneOf", .array (items.map schemaOf)) =
      some (count == 1) := by
    simp only [keywordVerdict, oneOfVerdict, hpasses, Option.map_some]
    rfl
  rw [hverdict]
  exact decides_some (by rw [beq_iff_eq, hone])

/-- `not` decides the negation of what its schema decides. -/
theorem not_decides {schema : Json} {P : Prop} (h : Decides (judge schema v) P) :
    Decides (keywordVerdict judge v root ("not", schema)) (¬ P) :=
  h.not

/-- `$ref` decides what the schema that it refers to decides. -/
theorem ref_decides {reference : String} {schema : Json} {P : Prop}
    (hschema : resolve root reference = some schema) (h : Decides (judge schema v) P) :
    Decides (keywordVerdict judge v root ("$ref", .string reference)) P := by
  have hverdict : keywordVerdict judge v root ("$ref", .string reference) = judge schema v := by
    simp [keywordVerdict, refVerdict, hschema]
  rwa [hverdict]

end

/-- A schema decides what its keywords decide together, in any order. -/
theorem judge_ofMembers_decides {root v : Json} {steps : Nat} {keywords : List (String × Json)}
    {P : Prop} (distinct : keywords.Pairwise fun a b => a.1 ≠ b.1)
    (h : Decides (every (keywords.map (keywordVerdict (judge root steps) v root))) P) :
    Decides (judge root (steps + 1) (.ofMembers keywords) v) P := by
  obtain ⟨entries, hentries, hmem⟩ := mem_ofMembers_iff distinct
  rw [hentries]
  exact every_map_decides_of_mem_iff h hmem

/-- A schema of a single keyword decides what the keyword decides. -/
theorem judge_single_decides {root v : Json} {steps : Nat} {keyword : String × Json} {P : Prop}
    (h : Decides (keywordVerdict (judge root steps) v root keyword) P) :
    Decides (judge root (steps + 1) (.ofMembers [keyword]) v) P :=
  judge_ofMembers_decides (List.pairwise_singleton _ _)
    ((every_cons_decides h every_nil_decides).congr (by simp))

end AuditedRules.Json.Schema
