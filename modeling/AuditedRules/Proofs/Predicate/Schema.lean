import AuditedRules.Predicate.Grammar
import AuditedRules.Proofs.Json.Schema
import AuditedRules.Proofs.Predicate.Grammar

/-!
# The published schema and the reader agree

`Grammar.schema` describes predicates to whoever writes them. A JSON value is read under a limit
exactly when it fits the schema and has no more levels of nodes than the limit, and the schema has
one verdict on every value.

The proof goes through the grammar `Encodes`, which the reader accepts exactly. Each of the six
schemas in `oneOf` decides that the value encodes a predicate of one shape, provided that the schema
of nodes decides of the operands that they encode predicates. A value encodes at most one predicate,
so the shapes exclude each other and `oneOf` decides that the value encodes a predicate at all.
Members are smaller than their object, which makes an induction of this, each level of nodes taking
some more steps.
-/

namespace AuditedRules.Predicate

/-! ## Levels of nodes -/

mutual

/-- The number of levels of nodes in a JSON value: one for a constant and a field, otherwise one
more than those of the higher operand, of which a negation has only the left one. -/
def nodeLevels : Json → Nat
  | .object members =>
    if textMember? (.object members) "type" = some "const" ∨
        textMember? (.object members) "type" = some "field" then 1
    else if textMember? (.object members) "type" = some "logical" ∧
        textMember? (.object members) "op" = some "not" then 1 + levelsUnder "left" members
    else 1 + max (levelsUnder "left" members) (levelsUnder "right" members)
  | _ => 1

/-- The number of levels of the member of a name; without such a member there are none. -/
def levelsUnder (name : String) : List (String × Json) → Nat
  | [] => 0
  | (key, value) :: rest => if key = name then nodeLevels value else levelsUnder name rest

end

/-- The levels under a name are those of the member. -/
theorem levelsUnder_of_entryValue? {name : String} {m : Json} {members : List (String × Json)}
    (h : entryValue? name members = some m) : levelsUnder name members = nodeLevels m := by
  induction members with
  | nil => cases h
  | cons head rest ih =>
    obtain ⟨key, value⟩ := head
    rw [entryValue?] at h
    rw [levelsUnder]
    split at h
    · rename_i hkey
      cases h
      rw [if_pos hkey]
    · rename_i hkey
      rw [if_neg hkey, ih h]

section
variable {v l r : Json} {type name : String} (htype : HasText v "type" type)
include htype

/-- A constant and a field are on one level. -/
theorem nodeLevels_leaf (hleaf : type = "const" ∨ type = "field") : nodeLevels v = 1 := by
  obtain ⟨members, rfl⟩ := Json.exists_object_of_get? htype
  rw [← textMember?_eq_some_iff] at htype
  rw [nodeLevels, htype, if_pos (by simpa using hleaf)]

/-- A negation has one level more than its operand. -/
theorem nodeLevels_not (hlogical : type = "logical") (hop : HasText v "op" "not")
    (hl : v.get? "left" = some l) : nodeLevels v = nodeLevels l + 1 := by
  obtain ⟨members, rfl⟩ := Json.exists_object_of_get? htype
  rw [← textMember?_eq_some_iff] at htype hop
  rw [nodeLevels, htype, hop, hlogical, if_neg (by decide), if_pos ⟨rfl, rfl⟩,
    levelsUnder_of_entryValue? hl, Nat.add_comm]

/-- A node with two operands has one level more than the higher of them. -/
theorem nodeLevels_binary (hleaf : ¬ (type = "const" ∨ type = "field")) (hop : HasText v "op" name)
    (hnot : name ≠ "not") (hl : v.get? "left" = some l) (hr : v.get? "right" = some r) :
    nodeLevels v = max (nodeLevels l) (nodeLevels r) + 1 := by
  obtain ⟨members, rfl⟩ := Json.exists_object_of_get? htype
  rw [← textMember?_eq_some_iff] at htype hop
  rw [nodeLevels, htype, hop, if_neg (by simpa using hleaf), if_neg (by simp [hnot]),
    levelsUnder_of_entryValue? hl, levelsUnder_of_entryValue? hr, Nat.add_comm]

end

/-- A value that encodes a predicate has as many levels of nodes as the predicate. -/
theorem Encodes.nodeLevels_eq {p : Predicate} {v : Json} (h : p.Encodes v) :
    nodeLevels v = p.height := by
  induction p generalizing v with
  | const value => exact nodeLevels_leaf h.1 (.inl rfl)
  | field name => exact nodeLevels_leaf h.1 (.inr rfl)
  | arithmetic op left right ihl ihr =>
    obtain ⟨htype, ⟨name, hop, hname⟩, ⟨l, hl, hleft⟩, r, hr, hright⟩ := h
    rw [nodeLevels_binary htype (by decide) hop hname.ne_not hl hr, ihl hleft, ihr hright, height]
  | comparison op left right ihl ihr =>
    obtain ⟨htype, ⟨name, hop, hname⟩, ⟨l, hl, hleft⟩, r, hr, hright⟩ := h
    rw [nodeLevels_binary htype (by decide) hop hname.ne_not hl hr, ihl hleft, ihr hright, height]
  | logical op left right ihl ihr =>
    obtain ⟨htype, ⟨name, hop, hname⟩, ⟨l, hl, hleft⟩, r, hr, hright⟩ := h
    rw [nodeLevels_binary htype (by decide) hop hname.ne_not hl hr, ihl hleft, ihr hright, height]
  | not operand ih =>
    obtain ⟨htype, hop, -, l, hl, hinner⟩ := h
    rw [nodeLevels_not htype rfl hop hl, ih hinner, height]

/-! ## Schemas of single nodes -/

open Json.Schema
open Grammar (schema shape shapes exactly texts binary)

/-- The value encodes a predicate. -/
def IsPredicate (v : Json) : Prop :=
  ∃ p : Predicate, p.Encodes v

/-- A member that the schema of a node requires, and what its own schema decides of it. -/
structure Part (v : Json) (steps : Nat) where
  /-- The name of the member. -/
  name : String
  /-- The schema of the member. -/
  schema : Json
  /-- What the schema says of the member. -/
  Holds : Json → Prop
  /-- The schema decides what `Holds` says of the member. -/
  decided : ∀ m, v.get? name = some m → Decides (judge Grammar.schema steps schema m) (Holds m)

/-- The entry of `properties` for a required member. -/
def Part.property {v : Json} {steps : Nat} (part : Part v steps) : String × Json :=
  (part.name, part.schema)

section
variable {v : Json} {steps : Nat}

/-- In an object that has the required members and whose members, where they are, are as their
schemas say, each required member is there and is so. -/
theorem required_parts_iff (parts : List (Part v steps)) :
    (v.kind = .object ∧ (∀ part ∈ parts, ∀ m, v.get? part.name = some m → part.Holds m) ∧
        (v.kind = .object → ∀ name ∈ parts.map Part.name, ∃ m, v.get? name = some m)) ↔
      v.kind = .object ∧ ∀ part ∈ parts, ∃ m, v.get? part.name = some m ∧ part.Holds m := by
  constructor
  · rintro ⟨hkind, hholds, hpresent⟩
    refine ⟨hkind, fun part hpart => ?_⟩
    obtain ⟨m, hm⟩ := hpresent hkind part.name (List.mem_map_of_mem hpart)
    exact ⟨m, hm, hholds part hpart m hm⟩
  · rintro ⟨hkind, hall⟩
    refine ⟨hkind, fun part hpart m hm => ?_, fun _ name hname => ?_⟩
    · obtain ⟨m', hm', hholds⟩ := hall part hpart
      rw [hm, Option.some.injEq] at hm'
      rwa [hm']
    · obtain ⟨part, hpart, rfl⟩ := List.mem_map.1 hname
      obtain ⟨m, hm, -⟩ := hall part hpart
      exact ⟨m, hm⟩

/-- The schema of a node decides that the value is an object in which each required member is there
and is as its schema says, and what further keywords decide. -/
theorem shape_decides (parts : List (Part v steps)) (others : List (String × Json)) {Q : Prop}
    (distinct : (parts.map Part.name).Pairwise (· ≠ ·))
    (fresh : (["type", "properties", "required"] ++ others.map (·.1)).Pairwise (· ≠ ·))
    (hQ : Decides (every (others.map (keywordVerdict (judge schema steps) v schema))) Q) :
    Decides (judge schema (steps + 1) (.ofMembers (shape (parts.map Part.property) ++ others)) v)
      ((v.kind = .object ∧ ∀ part ∈ parts, ∃ m, v.get? part.name = some m ∧ part.Holds m) ∧ Q) := by
  have hnames : (parts.map Part.property).map (·.1) = parts.map Part.name := List.map_map
  -- The three keywords of a shape.
  have htype : Decides (keywordVerdict (judge schema steps) v schema ("type", .string "object"))
      (v.kind.name = "object") := type_decides "object"
  have hmembers : Decides
      (every ((parts.map Part.property).map (propertyVerdict (judge schema steps) v)))
      (∀ part ∈ parts, ∀ m, v.get? part.name = some m → part.Holds m) := by
    rw [List.map_map]
    exact every_map_decides fun part _ => property_decides part.decided
  have hproperties : Decides (keywordVerdict (judge schema steps) v schema
      ("properties", .ofMembers (parts.map Part.property))) _ :=
    properties_decides (List.pairwise_map.2 (List.pairwise_map.1 distinct)) hmembers
  have hrequired : Decides (keywordVerdict (judge schema steps) v schema
      ("required", texts ((parts.map Part.property).map (·.1)))) _ := required_decides _
  -- All keywords, whose names differ.
  have hkeywords := every_cons_decides htype
    (every_cons_decides hproperties (every_cons_decides hrequired hQ))
  have hdistinct : (shape (parts.map Part.property) ++ others).Pairwise fun a b => a.1 ≠ b.1 :=
    List.pairwise_map.1 (show ((shape (parts.map Part.property) ++ others).map (·.1)).Pairwise
      (· ≠ ·) from fresh)
  have hobject : v.kind.name = "object" ↔ v.kind = .object := by
    cases v <;> simp [Json.kind, Json.Kind.name]
  refine (judge_ofMembers_decides hdistinct hkeywords).congr ?_
  rw [hobject, hnames, ← and_assoc (a := ∀ part ∈ parts, _), ← and_assoc, required_parts_iff]

/-- A member that is one text. -/
def wordPart (v : Json) (steps : Nat) (name word : String) : Part v (steps + 1) where
  name := name
  schema := exactly word
  Holds m := m = .string word
  decided _ _ := judge_single_decides (const_decides word)

/-- The operator of a node with two operands. -/
def opPart (v : Json) (steps : Nat) (ops : List String) : Part v (steps + 1) where
  name := "op"
  schema := .ofMembers [("enum", texts ops)]
  Holds m := ∃ op, op ∈ ops ∧ m = .string op
  decided _ _ := judge_single_decides (enum_decides ops)

/-- The value of a constant. -/
def valuePart (v : Json) (steps : Nat) : Part v (steps + 1) where
  name := "value"
  schema := .ofMembers [("type", texts ["number", "string", "boolean"])]
  Holds m := m.kind.name ∈ ["number", "string", "boolean"]
  decided _ _ := judge_single_decides (types_decides _)

/-- The name of a field. -/
def namePart (v : Json) (steps : Nat) : Part v (steps + 1) where
  name := "name"
  schema := .ofMembers [("type", .string "string")]
  Holds m := m.kind.name = "string"
  decided _ _ := judge_single_decides (type_decides _)

/-- An operand, of which the schema of nodes decides that it encodes a predicate. -/
def operandPart (name : String)
    (h : ∀ m, v.get? name = some m → Decides (judge schema steps Grammar.node m) (IsPredicate m)) :
    Part v steps where
  name := name
  schema := Grammar.node
  Holds := IsPredicate
  decided := h

/-- Only an object has members. -/
theorem kind_of_get? {m : Json} {name : String} (h : v.get? name = some m) :
    v.kind = .object := by
  obtain ⟨members, rfl⟩ := Json.exists_object_of_get? h
  rfl

/-- The kinds of the values that stand for the value of a constant. -/
theorem spellsConstant_iff_kind {m : Json} :
    m.kind.name ∈ ["number", "string", "boolean"] ↔ ∃ value, SpellsConstant m value := by
  constructor
  · intro h
    cases m with
    | bool b => exact ⟨_, .bool b⟩
    | number n => exact ⟨_, .number n⟩
    | string s => exact ⟨_, .string s⟩
    | null => simp [Json.kind, Json.Kind.name] at h
    | array items => simp [Json.kind, Json.Kind.name] at h
    | object members => simp [Json.kind, Json.Kind.name] at h
  · rintro ⟨value, h⟩
    cases h <;> simp [Json.kind, Json.Kind.name]

/-- The kind of a text. -/
theorem kind_eq_string_iff {m : Json} : m.kind.name = "string" ↔ ∃ text, m = .string text := by
  cases m <;> simp [Json.kind, Json.Kind.name]

/-- The schema of constants decides that the value encodes one. -/
theorem const_shape_decides :
    Decides (judge schema (steps + 2) (.ofMembers (shape [("type", exactly "const"),
        ("value", .ofMembers [("type", texts ["number", "string", "boolean"])])])) v)
      (∃ value, Encodes v (.const value)) := by
  refine (shape_decides [wordPart v steps "type" "const", valuePart v steps] []
    (by simp [wordPart, valuePart]) (by simp) every_nil_decides).congr ?_
  simp only [wordPart, valuePart, spellsConstant_iff_kind, List.forall_mem_cons, List.not_mem_nil,
    false_imp_iff, implies_true, and_true, exists_eq_right]
  constructor
  · rintro ⟨-, htype, m, hm, value, hvalue⟩
    exact ⟨value, htype, m, hm, hvalue⟩
  · rintro ⟨value, htype, m, hm, hvalue⟩
    exact ⟨kind_of_get? htype, htype, m, hm, value, hvalue⟩

/-- The schema of fields decides that the value encodes one. -/
theorem field_shape_decides :
    Decides (judge schema (steps + 2) (.ofMembers (shape [("type", exactly "field"),
        ("name", .ofMembers [("type", .string "string")])])) v)
      (∃ name, Encodes v (.field name)) := by
  refine (shape_decides [wordPart v steps "type" "field", namePart v steps] []
    (by simp [wordPart, namePart]) (by simp) every_nil_decides).congr ?_
  simp only [wordPart, namePart, kind_eq_string_iff, List.forall_mem_cons, List.not_mem_nil,
    false_imp_iff, implies_true, and_true, exists_eq_right]
  constructor
  · rintro ⟨-, htype, m, hm, name, rfl⟩
    exact ⟨name, htype, hm⟩
  · rintro ⟨name, htype, hname⟩
    exact ⟨kind_of_get? htype, htype, _, hname, name, rfl⟩

section
variable (hnode : ∀ name m, v.get? name = some m →
  Decides (judge schema (steps + 1) Grammar.node m) (IsPredicate m))
include hnode

/-- The schema of nodes with two operands decides what such nodes have in common. -/
theorem binary_decides (kind : String) (ops : List String) :
    Decides (judge schema (steps + 2) (binary kind ops) v)
      (HasText v "type" kind ∧ (∃ op, op ∈ ops ∧ HasText v "op" op) ∧
        (∃ l, v.get? "left" = some l ∧ IsPredicate l) ∧
        ∃ r, v.get? "right" = some r ∧ IsPredicate r) := by
  refine (shape_decides [wordPart v steps "type" kind, opPart v steps ops,
    operandPart "left" (hnode "left"), operandPart "right" (hnode "right")] []
    (by simp [wordPart, opPart, operandPart]) (by simp) every_nil_decides).congr ?_
  simp only [wordPart, opPart, operandPart, List.forall_mem_cons, List.not_mem_nil,
    false_imp_iff, implies_true, and_true, exists_eq_right]
  constructor
  · rintro ⟨-, htype, ⟨m, hm, op, hop, rfl⟩, hl, hr⟩
    exact ⟨htype, ⟨op, hop, hm⟩, hl, hr⟩
  · rintro ⟨htype, ⟨op, hop, hm⟩, hl, hr⟩
    exact ⟨kind_of_get? htype, htype, ⟨_, hm, op, hop, rfl⟩, hl, hr⟩

/-- The schema of nodes with two operands and an operator of some names decides that the value
encodes such a node, where `build` makes the node. -/
theorem binary_shape_decides {α : Type} (kind : String) (all : List α) {nameOf : α → String}
    {Named : String → α → Prop} (build : α → Predicate → Predicate → Predicate)
    (named : ∀ name, name ∈ all.map nameOf ↔ ∃ op, Named name op)
    (built : ∀ op left right, (build op left right).Encodes v ↔
      HasText v "type" kind ∧ (∃ name, HasText v "op" name ∧ Named name op) ∧
        (∃ l, v.get? "left" = some l ∧ left.Encodes l) ∧
        ∃ r, v.get? "right" = some r ∧ right.Encodes r) :
    Decides (judge schema (steps + 2) (binary kind (all.map nameOf)) v)
      (∃ op left right, (build op left right).Encodes v) := by
  refine (binary_decides hnode kind (all.map nameOf)).congr ?_
  simp only [built, named]
  constructor
  · rintro ⟨htype, ⟨name, ⟨op, hname⟩, hop⟩, ⟨l, hl, left, hleft⟩, r, hr, right, hright⟩
    exact ⟨op, left, right, htype, ⟨name, hop, hname⟩, ⟨l, hl, hleft⟩, r, hr, hright⟩
  · rintro ⟨op, left, right, htype, ⟨name, hop, hname⟩, ⟨l, hl, hleft⟩, r, hr, hright⟩
    exact ⟨htype, ⟨name, ⟨op, hname⟩, hop⟩, ⟨l, hl, left, hleft⟩, r, hr, right, hright⟩

/-- The schema of negations decides that the value encodes one. -/
theorem not_shape_decides :
    Decides (judge schema (steps + 2) (.ofMembers (shape [("type", exactly "logical"),
        ("op", exactly "not"), ("left", Grammar.node)] ++
        [("not", .ofMembers [("required", texts ["right"])])])) v)
      (∃ operand : Predicate, Encodes v (.not operand)) := by
  -- The keyword that forbids a second operand.
  have hright : Decides (every ([("not", .ofMembers [("required", texts ["right"])])].map
      (keywordVerdict (judge schema (steps + 1)) v schema))) _ :=
    every_cons_decides (not_decides (judge_single_decides (required_decides ["right"])))
      every_nil_decides
  refine (shape_decides [wordPart v steps "type" "logical", wordPart v steps "op" "not",
    operandPart "left" (hnode "left")] _ (by simp [wordPart, operandPart]) (by simp)
      hright).congr ?_
  simp only [wordPart, operandPart, List.forall_mem_cons, List.not_mem_nil,
    false_imp_iff, implies_true, and_true, exists_eq_right]
  constructor
  · rintro ⟨⟨hkind, htype, hop, l, hl, p, hp⟩, hright⟩
    refine ⟨p, htype, hop, ?_, l, hl, hp⟩
    cases hr : v.get? "right" with
    | none => rfl
    | some r => exact absurd (fun _ => ⟨r, hr⟩) hright
  · rintro ⟨p, htype, hop, hnone, l, hl, hp⟩
    have hkind := kind_of_get? htype
    refine ⟨⟨hkind, htype, hop, l, hl, p, hp⟩, fun hright => ?_⟩
    obtain ⟨r, hr⟩ := hright hkind
    rw [hnone] at hr
    cases hr

end

end

/-! ## Exactly one shape -/

/-- The six shapes of predicates. -/
inductive Form
  | const
  | field
  | arithmetic
  | comparison
  | logical
  | not
deriving DecidableEq

/-- The shapes in the order in which the grammar lists them. -/
def Form.all : List Form :=
  [.const, .field, .arithmetic, .comparison, .logical, .not]

/-- The list of the shapes has every shape. -/
theorem Form.mem_all (f : Form) : f ∈ all := by
  cases f <;> decide

/-- The schema of a shape. -/
def Form.schema : Form → Json
  | .const => .ofMembers (shape [("type", exactly "const"),
      ("value", .ofMembers [("type", texts ["number", "string", "boolean"])])])
  | .field => .ofMembers (shape [("type", exactly "field"),
      ("name", .ofMembers [("type", .string "string")])])
  | .arithmetic => binary "arithmetic" (ArithmeticOp.all.map (·.name))
  | .comparison => binary "comparison" (ComparisonOp.all.map (·.name))
  | .logical => binary "logical" (LogicalOp.all.map (·.name))
  | .not => .ofMembers (shape [("type", exactly "logical"), ("op", exactly "not"),
      ("left", Grammar.node)] ++ [("not", .ofMembers [("required", texts ["right"])])])

/-- The grammar lists the schemas of the six shapes. -/
theorem shapes_eq : shapes = Form.all.map Form.schema :=
  rfl

/-- The shape of a predicate. -/
def form : Predicate → Form
  | .const _ => .const
  | .field _ => .field
  | .arithmetic .. => .arithmetic
  | .comparison .. => .comparison
  | .logical .. => .logical
  | .not _ => .not

/-- The names of some operators are those by which one of them is found. -/
theorem mem_names_iff {α : Type} {all : List α} {nameOf : α → String} {name : String} :
    name ∈ all.map nameOf ↔ ∃ op, all.find? (fun op => nameOf op == name) = some op := by
  rw [← Option.isSome_iff_exists, List.find?_isSome, List.mem_map]
  simp only [beq_iff_eq]

section
variable {v : Json} {steps : Nat} (hnode : ∀ name m, v.get? name = some m →
  Decides (judge schema (steps + 1) Grammar.node m) (IsPredicate m))
include hnode

/-- The schema of a shape decides that the value encodes a predicate of this shape. -/
theorem form_decides (f : Form) :
    Decides (judge schema (steps + 2) f.schema v) (∃ p : Predicate, p.Encodes v ∧ p.form = f) := by
  -- A predicate has a shape when it is made by the constructor of the shape.
  cases f with
  | const =>
    refine const_shape_decides.congr ⟨fun ⟨_, h⟩ => ⟨_, h, rfl⟩, fun ⟨p, h, hform⟩ => ?_⟩
    cases p <;> cases hform
    exact ⟨_, h⟩
  | field =>
    refine field_shape_decides.congr ⟨fun ⟨_, h⟩ => ⟨_, h, rfl⟩, fun ⟨p, h, hform⟩ => ?_⟩
    cases p <;> cases hform
    exact ⟨_, h⟩
  | arithmetic =>
    have hshape := binary_shape_decides hnode "arithmetic" ArithmeticOp.all Predicate.arithmetic
      (fun name => mem_names_iff.trans (exists_congr fun _ => ArithmeticOp.ofName?_eq_some_iff))
      (fun _ _ _ => Iff.rfl)
    refine hshape.congr ⟨fun ⟨_, _, _, h⟩ => ⟨_, h, rfl⟩, fun ⟨p, h, hform⟩ => ?_⟩
    cases p <;> cases hform
    exact ⟨_, _, _, h⟩
  | comparison =>
    have hshape := binary_shape_decides hnode "comparison" ComparisonOp.all Predicate.comparison
      (fun name => mem_names_iff.trans (exists_congr fun _ => ComparisonOp.ofName?_eq_some_iff))
      (fun _ _ _ => Iff.rfl)
    refine hshape.congr ⟨fun ⟨_, _, _, h⟩ => ⟨_, h, rfl⟩, fun ⟨p, h, hform⟩ => ?_⟩
    cases p <;> cases hform
    exact ⟨_, _, _, h⟩
  | logical =>
    have hshape := binary_shape_decides hnode "logical" LogicalOp.all Predicate.logical
      (fun name => mem_names_iff.trans (exists_congr fun _ => LogicalOp.ofName?_eq_some_iff))
      (fun _ _ _ => Iff.rfl)
    refine hshape.congr ⟨fun ⟨_, _, _, h⟩ => ⟨_, h, rfl⟩, fun ⟨p, h, hform⟩ => ?_⟩
    cases p <;> cases hform
    exact ⟨_, _, _, h⟩
  | not =>
    refine (not_shape_decides hnode).congr ⟨fun ⟨_, h⟩ => ⟨_, h, rfl⟩, fun ⟨p, h, hform⟩ => ?_⟩
    cases p <;> cases hform
    exact ⟨_, h⟩

/-- The schema of nodes decides that the value encodes a predicate: the six shapes exclude each
other. -/
theorem node_shapes_decide :
    Decides (judge schema (steps + 3) (.ofMembers [("oneOf", .array shapes)]) v)
      (IsPredicate v) := by
  -- What a value encodes has one shape.
  have hexclusive : Form.all.Pairwise fun f g =>
      (∃ p : Predicate, p.Encodes v ∧ p.form = f) →
        ¬ ∃ p : Predicate, p.Encodes v ∧ p.form = g := by
    have hdistinct : Form.all.Pairwise (· ≠ ·) := by decide
    refine hdistinct.imp fun hne => ?_
    rintro ⟨p, hp, rfl⟩ ⟨q, hq, rfl⟩
    exact hne (by rw [hp.unique hq])
  have hone : Decides (keywordVerdict (judge schema (steps + 2)) v schema
      ("oneOf", .array (Form.all.map Form.schema))) _ :=
    oneOf_decides (fun f _ => form_decides hnode f) hexclusive
  rw [shapes_eq]
  refine (judge_single_decides hone).congr ?_
  constructor
  · rintro ⟨f, -, p, hp, -⟩
    exact ⟨p, hp⟩
  · rintro ⟨p, hp⟩
    exact ⟨p.form, p.form.mem_all, p, hp, rfl⟩

end

/-! ## The whole schema -/

/-- The reference to the schema of nodes means the choice between the six shapes. -/
theorem resolve_node :
    resolve schema "#/$defs/node" = some (.ofMembers [("oneOf", .array shapes)]) := by
  have hparts : slashParts "#/$defs/node".toList =
      [['#'], "$defs".toList, "node".toList] := by decide
  have hdefs : schema.get? "$defs" =
      some (.ofMembers [("node", .ofMembers [("oneOf", .array shapes)])]) := by
    simp [schema, Grammar.object, Json.ofMembers, Json.get?, entryValue?_setEntry]
  have hnode : (Json.ofMembers [("node", .ofMembers [("oneOf", .array shapes)])]).get? "node" =
      some (.ofMembers [("oneOf", .array shapes)]) := by
    simp [Json.ofMembers, Json.get?, entryValue?_setEntry]
  unfold resolve
  rw [hparts]
  simp [hdefs, hnode]

/-- The reference to the schema of nodes decides that a value encodes a predicate. The members of an
object are smaller than the object, and each level of nodes takes three steps. -/
theorem node_ref_decides (size : Nat) (v : Json) (hsize : sizeOf v < size) :
    Decides (keywordVerdict (judge schema (3 * size)) v schema ("$ref", .string "#/$defs/node"))
      (IsPredicate v) := by
  induction size generalizing v with
  | zero => exact absurd hsize (Nat.not_lt_zero _)
  | succ size ih =>
    have hmembers : ∀ name m, v.get? name = some m →
        Decides (judge schema (3 * size + 1) Grammar.node m) (IsPredicate m) := by
      intro name m hm
      have hlt := Json.sizeOf_get?_lt hm
      exact judge_single_decides (ih m (by omega))
    rw [show 3 * (size + 1) = 3 * size + 3 by omega]
    exact ref_decides resolve_node (node_shapes_decide hmembers)

/-- The schema decides that a value encodes a predicate. -/
theorem schema_decides (v : Json) :
    ∃ steps, Decides (judge schema steps schema v) (IsPredicate v) := by
  refine ⟨3 * (sizeOf v + 1) + 1, judge_ofMembers_decides (by simp) ?_⟩
  have href := node_ref_decides (sizeOf v + 1) v (Nat.lt_succ_self _)
  -- Only the reference asserts something.
  have hkeywords := every_cons_decides (decides_some (by simp : true = true ↔ True))
    (every_cons_decides (decides_some (by simp : true = true ↔ True))
      (every_cons_decides (decides_some (by simp : true = true ↔ True))
        (every_cons_decides href every_nil_decides)))
  exact hkeywords.congr (by simp)

/-- The schema has a verdict on every value: those that encode a predicate fit it, and no others
do. -/
theorem validates_iff_isPredicate (v : Json) :
    (Validates schema v ↔ IsPredicate v) ∧ (Validates schema v ∨ Rejects schema v) := by
  -- The verdict within enough steps is the only one.
  obtain ⟨steps, fits, hfits, hdecided⟩ := schema_decides v
  cases fits with
  | true => exact ⟨⟨fun _ => hdecided.1 rfl, fun _ => ⟨steps, hfits⟩⟩, .inl ⟨steps, hfits⟩⟩
  | false =>
    have hrejects : Rejects schema v := ⟨steps, hfits⟩
    refine ⟨⟨fun h => absurd hrejects (not_rejects_of_validates h), fun h => ?_⟩, .inr hrejects⟩
    cases hdecided.2 h

/-- A value is read under a limit exactly when it fits the schema and has no more levels of nodes
than the limit, and there is exactly one verdict on every value. -/
theorem ofJson_agrees_with_schema (limit : Nat) (v : Json) :
    ((∃ p, ofJson limit v = .ok p) ↔ Validates schema v ∧ nodeLevels v ≤ limit) ∧
      (Validates schema v ↔ ¬ Rejects schema v) := by
  obtain ⟨hvalidates, hverdict⟩ := validates_iff_isPredicate v
  constructor
  · rw [hvalidates]
    constructor
    · rintro ⟨p, hok⟩
      obtain ⟨hp, hdepth⟩ := ofJson_eq_ok_iff.1 hok
      rw [depth_eq_height, ← hp.nodeLevels_eq] at hdepth
      exact ⟨⟨p, hp⟩, hdepth⟩
    · rintro ⟨⟨p, hp⟩, hlevels⟩
      rw [hp.nodeLevels_eq, ← depth_eq_height] at hlevels
      exact ⟨p, ofJson_eq_ok_iff.2 ⟨hp, hlevels⟩⟩
  · exact ⟨not_rejects_of_validates, fun h => hverdict.resolve_right h⟩

end AuditedRules.Predicate
