import AuditedRules.Predicate.Reading
import AuditedRules.Proofs.Predicate.Depth
import AuditedRules.Proofs.Steps

/-!
# The closed grammar of predicates

`Encodes v p` says that the JSON value `v` is written for the predicate `p`. It is defined by
recursion on `p`, shape by shape, and names every operator in full, so it can be read without the
reader. Members that a shape does not mention may be there or not; a negation may not have the
member `right`, not even as null.

Reading under a limit gives `p` exactly when the value encodes `p` and `p` has no more levels than
the limit (`ofJson_eq_ok_iff`), and it fails with a grammar fault in all other cases
(`ofJson_error`).

Each step of the reader has a lemma that says when it succeeds and with what (`operator_eq_ok_iff`,
`operand_eq_ok_iff`, …), and for each shape of `p` a lemma says when a node is read as that shape
(`nodeOfType_eq_const_iff`, …). The theorem is an induction on `p` over these: the levels left to
the reader go down with the tree, so what counts is the height of `p`.
-/

namespace AuditedRules

/-! ## Names of operators -/

/-- The names of the operators that give a number. -/
inductive ArithmeticName : String → ArithmeticOp → Prop
  | add : ArithmeticName "+" .add
  | sub : ArithmeticName "-" .sub
  | mul : ArithmeticName "*" .mul
  | div : ArithmeticName "/" .div

/-- The names of the operators that compare. -/
inductive ComparisonName : String → ComparisonOp → Prop
  | greater : ComparisonName ">" .greater
  | less : ComparisonName "<" .less
  | greaterOrEqual : ComparisonName ">=" .greaterOrEqual
  | lessOrEqual : ComparisonName "<=" .lessOrEqual
  | equal : ComparisonName "eq" .equal
  | notEqual : ComparisonName "ne" .notEqual

/-- The names of the operators on two truth values. -/
inductive LogicalName : String → LogicalOp → Prop
  | and : LogicalName "and" .and
  | or : LogicalName "or" .or

/-- Where every operator has its own name and is the first of that name, looking a name up finds the
operator of that name. -/
theorem find?_eq_some_iff_named {α : Type} {all : List α} {nameOf : α → String}
    {Named : String → α → Prop} (named : ∀ op, Named (nameOf op) op)
    (found : ∀ name op, Named name op → all.find? (fun op => nameOf op == name) = some op)
    {name : String} {op : α} :
    all.find? (fun op => nameOf op == name) = some op ↔ Named name op := by
  constructor
  · intro h
    have hname : nameOf op = name := by simpa using List.find?_some h
    rw [← hname]
    exact named op
  · exact found name op

/-- Each operator on numbers has its name. -/
theorem ArithmeticOp.named (op : ArithmeticOp) : ArithmeticName op.name op := by
  cases op <;> constructor

/-- Each operator that compares has its name. -/
theorem ComparisonOp.named (op : ComparisonOp) : ComparisonName op.name op := by
  cases op <;> constructor

/-- Each operator on two truth values has its name. -/
theorem LogicalOp.named (op : LogicalOp) : LogicalName op.name op := by
  cases op <;> constructor

/-- An operator on numbers is found by its name. -/
theorem ArithmeticOp.ofName?_eq_some_iff {name : String} {op : ArithmeticOp} :
    ofName? name = some op ↔ ArithmeticName name op :=
  find?_eq_some_iff_named named fun _ _ h => by cases h <;> rfl

/-- An operator that compares is found by its name. -/
theorem ComparisonOp.ofName?_eq_some_iff {name : String} {op : ComparisonOp} :
    ofName? name = some op ↔ ComparisonName name op :=
  find?_eq_some_iff_named named fun _ _ h => by cases h <;> rfl

/-- An operator on two truth values is found by its name. -/
theorem LogicalOp.ofName?_eq_some_iff {name : String} {op : LogicalOp} :
    ofName? name = some op ↔ LogicalName name op :=
  find?_eq_some_iff_named named fun _ _ h => by cases h <;> rfl

/-- No operator on two numbers has the name of the negation. -/
theorem ArithmeticName.ne_not {name : String} {op : ArithmeticOp} (h : ArithmeticName name op) :
    name ≠ "not" := by
  cases h <;> decide

/-- No operator that compares has the name of the negation. -/
theorem ComparisonName.ne_not {name : String} {op : ComparisonOp} (h : ComparisonName name op) :
    name ≠ "not" := by
  cases h <;> decide

/-- No operator on two truth values has the name of the negation. -/
theorem LogicalName.ne_not {name : String} {op : LogicalOp} (h : LogicalName name op) :
    name ≠ "not" := by
  cases h <;> decide

/-! ## The grammar -/

/-- The JSON values that stand for the value of a constant: a number, a string or a boolean. -/
inductive SpellsConstant : Json → Value → Prop
  | bool (b : Bool) : SpellsConstant (.bool b) (.bool b)
  | number (n : DocumentNumber) : SpellsConstant (.number n) (.number n.toBinary64)
  | string (s : String) : SpellsConstant (.string s) (.string s)

/-- The value of a constant is read from the JSON values that stand for it. -/
theorem Value.ofJson?_eq_some_iff {json : Json} {value : Value} :
    ofJson? json = some value ↔ SpellsConstant json value := by
  constructor
  · intro h
    cases json <;> simp only [ofJson?, Option.some.injEq, reduceCtorEq] at h <;> subst h <;>
      constructor
  · intro h
    cases h <;> rfl

namespace Predicate

/-- The value is an object with a text under a name. -/
def HasText (v : Json) (name text : String) : Prop :=
  v.get? name = some (.string text)

/-- The JSON values that encode a predicate. Only an object has members, so only objects do. -/
def Encodes (v : Json) : Predicate → Prop
  | .const value =>
    HasText v "type" "const" ∧ ∃ json, v.get? "value" = some json ∧ SpellsConstant json value
  | .field name => HasText v "type" "field" ∧ HasText v "name" name
  | .arithmetic op left right =>
    HasText v "type" "arithmetic" ∧ (∃ name, HasText v "op" name ∧ ArithmeticName name op) ∧
      (∃ l, v.get? "left" = some l ∧ left.Encodes l) ∧
      ∃ r, v.get? "right" = some r ∧ right.Encodes r
  | .comparison op left right =>
    HasText v "type" "comparison" ∧ (∃ name, HasText v "op" name ∧ ComparisonName name op) ∧
      (∃ l, v.get? "left" = some l ∧ left.Encodes l) ∧
      ∃ r, v.get? "right" = some r ∧ right.Encodes r
  | .logical op left right =>
    HasText v "type" "logical" ∧ (∃ name, HasText v "op" name ∧ LogicalName name op) ∧
      (∃ l, v.get? "left" = some l ∧ left.Encodes l) ∧
      ∃ r, v.get? "right" = some r ∧ right.Encodes r
  | .not operand =>
    HasText v "type" "logical" ∧ HasText v "op" "not" ∧ v.get? "right" = none ∧
      ∃ l, v.get? "left" = some l ∧ operand.Encodes l

/-! ## Steps of the reader -/

/-- A text member is found where the object has one. -/
theorem textMember?_eq_some_iff {v : Json} {name text : String} :
    textMember? v name = some text ↔ HasText v name text := by
  unfold textMember? HasText
  cases hm : v.get? name with
  | none => simp
  | some json => cases json <;> simp [Json.string?]

/-- The operator's name is read from the member `op`. -/
theorem operatorName_eq_ok_iff {v : Json} {kind : NodeKind} {name : String} :
    operatorName v kind = .ok name ↔ HasText v "op" name := by
  rw [← textMember?_eq_some_iff]
  unfold operatorName
  cases textMember? v "op" <;> simp

/-- An operator is read when the member `op` names it. -/
theorem operator_eq_ok_iff {α : Type} {v : Json} (kind : NodeKind) {ofName? : String → Option α}
    {op : α} :
    operator v kind ofName? = .ok op ↔ ∃ name, HasText v "op" name ∧ ofName? name = some op := by
  unfold operator
  rw [bind_eq_ok_iff]
  refine exists_congr fun name => and_congr operatorName_eq_ok_iff ?_
  cases ofName? name <;> simp

section
variable {read : Json → Except GrammarFault Predicate} {v : Json} (kind : NodeKind)

/-- An operand is read when its member is there and is read. -/
theorem operand_eq_ok_iff {name : String} {p : Predicate} :
    operand read v kind name = .ok p ↔ ∃ json, v.get? name = some json ∧ read json = .ok p := by
  unfold operand
  cases v.get? name <;> simp

/-- Two operands are read when both members are there and are read. -/
theorem bothOperands_eq_ok_iff {left right : Predicate} :
    bothOperands read v kind = .ok (left, right) ↔
      (∃ l, v.get? "left" = some l ∧ read l = .ok left) ∧
        ∃ r, v.get? "right" = some r ∧ read r = .ok right := by
  unfold bothOperands
  simp only [bind_eq_ok_iff, Except.ok.injEq, Prod.mk.injEq]
  rw [← operand_eq_ok_iff kind, ← operand_eq_ok_iff kind]
  constructor
  · rintro ⟨_, hl, _, hr, rfl, rfl⟩
    exact ⟨hl, hr⟩
  · rintro ⟨hl, hr⟩
    exact ⟨left, hl, right, hr, rfl, rfl⟩

/-! ## The shapes that the reader gives -/

/-- A negation is read from a node with the operator `not` and without a second operand. -/
theorem logicalNode_eq_not_iff {operand : Predicate} :
    logicalNode read v = .ok (.not operand) ↔
      HasText v "op" "not" ∧ v.get? "right" = none ∧
        ∃ l, v.get? "left" = some l ∧ read l = .ok operand := by
  unfold logicalNode
  rw [bind_eq_ok_iff]
  constructor
  · rintro ⟨name, hname, h⟩
    rw [operatorName_eq_ok_iff] at hname
    split at h
    · rename_i hnot
      subst hnot
      split at h
      · cases h
      · rename_i hright
        obtain ⟨inner, hinner, h⟩ := bind_eq_ok_iff.1 h
        cases h
        exact ⟨hname, by simpa using hright, (operand_eq_ok_iff .logical).1 hinner⟩
    · split at h
      · obtain ⟨⟨left, right⟩, -, h⟩ := bind_eq_ok_iff.1 h
        cases h
      · cases h
  · rintro ⟨hname, hright, hleft⟩
    refine ⟨"not", operatorName_eq_ok_iff.2 hname, ?_⟩
    rw [if_pos rfl, hright]
    simpa [bind_eq_ok_iff] using (operand_eq_ok_iff .logical).2 hleft

/-- A node with two operands is read from a node with their operator and both operands. -/
theorem logicalNode_eq_logical_iff {op : LogicalOp} {left right : Predicate} :
    logicalNode read v = .ok (.logical op left right) ↔
      (∃ name, HasText v "op" name ∧ LogicalName name op) ∧
        (∃ l, v.get? "left" = some l ∧ read l = .ok left) ∧
          ∃ r, v.get? "right" = some r ∧ read r = .ok right := by
  unfold logicalNode
  rw [bind_eq_ok_iff]
  constructor
  · rintro ⟨name, hname, h⟩
    rw [operatorName_eq_ok_iff] at hname
    split at h
    · split at h
      · cases h
      · obtain ⟨inner, -, h⟩ := bind_eq_ok_iff.1 h
        cases h
    · split at h
      · rename_i found hfound
        obtain ⟨⟨l, r⟩, hboth, h⟩ := bind_eq_ok_iff.1 h
        cases h
        exact ⟨⟨name, hname, LogicalOp.ofName?_eq_some_iff.1 hfound⟩,
          (bothOperands_eq_ok_iff .logical).1 hboth⟩
      · cases h
  · rintro ⟨⟨name, hname, hop⟩, hboth⟩
    refine ⟨name, operatorName_eq_ok_iff.2 hname, ?_⟩
    rw [if_neg hop.ne_not, LogicalOp.ofName?_eq_some_iff.2 hop]
    exact bind_eq_ok_iff.2 ⟨(left, right), (bothOperands_eq_ok_iff .logical).2 hboth, rfl⟩

/-- The type that a node of each shape has. -/
def typeName : Predicate → String
  | .const _ => "const"
  | .field _ => "field"
  | .arithmetic .. => "arithmetic"
  | .comparison .. => "comparison"
  | .logical .. => "logical"
  | .not _ => "logical"

/-- A node of type `logical` is read as a negation or as a node with two operands. -/
theorem typeName_of_logicalNode {p : Predicate} (h : logicalNode read v = .ok p) :
    p.typeName = "logical" := by
  obtain ⟨name, -, h⟩ := bind_eq_ok_iff.1 h
  -- The name is `not`, or that of another operator.
  split at h
  · split at h
    · cases h
    · obtain ⟨inner, -, h⟩ := bind_eq_ok_iff.1 h
      cases h
      rfl
  · split at h
    · obtain ⟨⟨left, right⟩, -, h⟩ := bind_eq_ok_iff.1 h
      cases h
      rfl
    · cases h

/-- What a node is read as has the type of the node. -/
theorem typeName_of_nodeOfType {type : String} {p : Predicate}
    (h : nodeOfType read v type = .ok p) : p.typeName = type := by
  unfold nodeOfType at h
  -- One type after the other, in the order in which the reader tries them.
  split at h
  · rename_i htype
    split at h
    · cases h
      exact htype.symm
    · cases h
  split at h
  · rename_i htype
    split at h
    · cases h
      exact htype.symm
    · cases h
  split at h
  · rename_i htype
    obtain ⟨op, -, h⟩ := bind_eq_ok_iff.1 h
    obtain ⟨⟨left, right⟩, -, h⟩ := bind_eq_ok_iff.1 h
    cases h
    exact htype.symm
  split at h
  · rename_i htype
    obtain ⟨op, -, h⟩ := bind_eq_ok_iff.1 h
    obtain ⟨⟨left, right⟩, -, h⟩ := bind_eq_ok_iff.1 h
    cases h
    exact htype.symm
  split at h
  · rename_i htype
    rw [htype]
    exact typeName_of_logicalNode h
  · cases h

/-- A node is read as a constant from the value under `value`. -/
theorem nodeOfType_eq_const_iff {value : Value} :
    nodeOfType read v "const" = .ok (.const value) ↔
      ∃ json, v.get? "value" = some json ∧ SpellsConstant json value := by
  simp only [← Value.ofJson?_eq_some_iff, ← Option.bind_eq_some_iff]
  unfold nodeOfType
  rw [if_pos rfl]
  cases (v.get? "value").bind Value.ofJson? <;> simp

/-- A node is read as a field from the text under `name`. -/
theorem nodeOfType_eq_field_iff {name : String} :
    nodeOfType read v "field" = .ok (.field name) ↔ HasText v "name" name := by
  rw [← textMember?_eq_some_iff]
  unfold nodeOfType
  rw [if_neg (by decide), if_pos rfl]
  cases textMember? v "name" <;> simp

/-- A node with an operator and two operands is read when all three are; `node` builds it. -/
theorem binaryNode_eq_ok_iff {α : Type} {operator : Except GrammarFault α}
    {both : Except GrammarFault (Predicate × Predicate)}
    {node : α → Predicate → Predicate → Predicate} {op : α} {left right : Predicate}
    (injective : ∀ {op' left' right'}, node op' left' right' = node op left right →
      op' = op ∧ left' = left ∧ right' = right) :
    (operator >>= fun op => both >>= fun (left, right) => .ok (node op left right)) =
        .ok (node op left right) ↔
      operator = .ok op ∧ both = .ok (left, right) := by
  constructor
  · intro h
    obtain ⟨op', hop, h⟩ := bind_eq_ok_iff.1 h
    obtain ⟨⟨left', right'⟩, hboth, h⟩ := bind_eq_ok_iff.1 h
    obtain ⟨rfl, rfl, rfl⟩ := injective (Except.ok.inj h)
    exact ⟨hop, hboth⟩
  · rintro ⟨hop, hboth⟩
    exact bind_eq_ok_iff.2 ⟨op, hop, bind_eq_ok_iff.2 ⟨(left, right), hboth, rfl⟩⟩

/-- A node is read as arithmetic from its operator and both operands. -/
theorem nodeOfType_eq_arithmetic_iff {op : ArithmeticOp} {left right : Predicate} :
    nodeOfType read v "arithmetic" = .ok (.arithmetic op left right) ↔
      (∃ name, HasText v "op" name ∧ ArithmeticName name op) ∧
        (∃ l, v.get? "left" = some l ∧ read l = .ok left) ∧
          ∃ r, v.get? "right" = some r ∧ read r = .ok right := by
  simp only [← ArithmeticOp.ofName?_eq_some_iff]
  rw [← operator_eq_ok_iff .arithmetic, ← bothOperands_eq_ok_iff .arithmetic]
  unfold nodeOfType
  rw [if_neg (by decide), if_neg (by decide), if_pos rfl]
  exact binaryNode_eq_ok_iff fun h => by cases h; exact ⟨rfl, rfl, rfl⟩

/-- A node is read as a comparison from its operator and both operands. -/
theorem nodeOfType_eq_comparison_iff {op : ComparisonOp} {left right : Predicate} :
    nodeOfType read v "comparison" = .ok (.comparison op left right) ↔
      (∃ name, HasText v "op" name ∧ ComparisonName name op) ∧
        (∃ l, v.get? "left" = some l ∧ read l = .ok left) ∧
          ∃ r, v.get? "right" = some r ∧ read r = .ok right := by
  simp only [← ComparisonOp.ofName?_eq_some_iff]
  rw [← operator_eq_ok_iff .comparison, ← bothOperands_eq_ok_iff .comparison]
  unfold nodeOfType
  rw [if_neg (by decide), if_neg (by decide), if_neg (by decide), if_pos rfl]
  exact binaryNode_eq_ok_iff fun h => by cases h; exact ⟨rfl, rfl, rfl⟩

/-- A node of type `logical` is read by its operator. -/
theorem nodeOfType_logical : nodeOfType read v "logical" = logicalNode read v := by
  unfold nodeOfType
  rw [if_neg (by decide), if_neg (by decide), if_neg (by decide), if_neg (by decide), if_pos rfl]

end

/-! ## Reading a tree -/

/-- With a level left, a node is read as a predicate when it has the type of that predicate and is
read as it under this type, its operands with one level less. -/
theorem ofNode_succ_eq_ok_iff {limit levels : Nat} {v : Json} {p : Predicate} :
    ofNode limit (levels + 1) v = .ok p ↔
      HasText v "type" p.typeName ∧ nodeOfType (ofNode limit levels) v p.typeName = .ok p := by
  rw [← textMember?_eq_some_iff]
  constructor
  · intro h
    unfold ofNode at h
    split at h
    · split at h
      · rename_i type htype
        rw [typeName_of_nodeOfType h]
        exact ⟨htype, h⟩
      · cases h
    · cases h
  · rintro ⟨htype, h⟩
    cases v with
    | object members => simp only [ofNode, htype, h]
    | _ => cases htype

/-- Both operands are there and fit within a number of levels when both are there and the higher one
fits. -/
theorem operands_within_iff {v : Json} {left right : Predicate} {levels : Nat} :
    ((∃ l, v.get? "left" = some l ∧ left.Encodes l ∧ left.height ≤ levels) ∧
        ∃ r, v.get? "right" = some r ∧ right.Encodes r ∧ right.height ≤ levels) ↔
      ((∃ l, v.get? "left" = some l ∧ left.Encodes l) ∧
        ∃ r, v.get? "right" = some r ∧ right.Encodes r) ∧
          max left.height right.height ≤ levels := by
  rw [Nat.max_le]
  constructor
  · rintro ⟨⟨l, hl, hleft, hll⟩, r, hr, hright, hlr⟩
    exact ⟨⟨⟨l, hl, hleft⟩, r, hr, hright⟩, hll, hlr⟩
  · rintro ⟨⟨⟨l, hl, hleft⟩, r, hr, hright⟩, hll, hlr⟩
    exact ⟨⟨l, hl, hleft, hll⟩, r, hr, hright, hlr⟩

/-- A node with some levels left is read as exactly the predicates that it encodes and that have no
more levels. -/
theorem ofNode_eq_ok_iff (limit : Nat) (p : Predicate) (levels : Nat) (v : Json) :
    ofNode limit levels v = .ok p ↔ p.Encodes v ∧ p.height ≤ levels := by
  -- The levels that are left go down with the tree, and without any left nothing is read.
  induction p generalizing levels v with
  | const value =>
    cases levels with
    | zero => simp [ofNode, height]
    | succ levels =>
      rw [ofNode_succ_eq_ok_iff, typeName, nodeOfType_eq_const_iff, Encodes, height]
      simp
  | field name =>
    cases levels with
    | zero => simp [ofNode, height]
    | succ levels =>
      rw [ofNode_succ_eq_ok_iff, typeName, nodeOfType_eq_field_iff, Encodes, height]
      simp
  | arithmetic op left right ihl ihr =>
    cases levels with
    | zero => simp [ofNode, height]
    | succ levels =>
      rw [ofNode_succ_eq_ok_iff, typeName, nodeOfType_eq_arithmetic_iff, Encodes, height,
        Nat.add_le_add_iff_right]
      simp only [ihl, ihr, operands_within_iff, and_assoc]
  | comparison op left right ihl ihr =>
    cases levels with
    | zero => simp [ofNode, height]
    | succ levels =>
      rw [ofNode_succ_eq_ok_iff, typeName, nodeOfType_eq_comparison_iff, Encodes, height,
        Nat.add_le_add_iff_right]
      simp only [ihl, ihr, operands_within_iff, and_assoc]
  | logical op left right ihl ihr =>
    cases levels with
    | zero => simp [ofNode, height]
    | succ levels =>
      rw [ofNode_succ_eq_ok_iff, typeName, nodeOfType_logical, logicalNode_eq_logical_iff, Encodes,
        height, Nat.add_le_add_iff_right]
      simp only [ihl, ihr, operands_within_iff, and_assoc]
  | not operand ih =>
    cases levels with
    | zero => simp [ofNode, height]
    | succ levels =>
      rw [ofNode_succ_eq_ok_iff, typeName, nodeOfType_logical, logicalNode_eq_not_iff, Encodes,
        height, Nat.add_le_add_iff_right]
      simp only [ih, ← and_assoc, exists_and_right]

/-- A JSON value is read as exactly the predicates that it encodes within the limit. -/
theorem ofJson_eq_ok_iff {limit : Nat} {v : Json} {p : Predicate} :
    ofJson limit v = .ok p ↔ p.Encodes v ∧ p.depth ≤ limit := by
  rw [ofJson, mapError_eq_ok_iff, ofNode_eq_ok_iff, depth_eq_height]

/-- A value encodes at most one predicate. -/
theorem Encodes.unique {v : Json} {p q : Predicate} (hp : p.Encodes v) (hq : q.Encodes v) :
    p = q := by
  have hpread := ofJson_eq_ok_iff.2 ⟨hp, Nat.le_max_left p.depth q.depth⟩
  have hqread := ofJson_eq_ok_iff.2 ⟨hq, Nat.le_max_right p.depth q.depth⟩
  rw [hpread] at hqread
  exact Except.ok.inj hqread

/-- A JSON value that is not read is a grammar fault. -/
theorem ofJson_error {limit : Nat} {v : Json} (h : ∀ p, ofJson limit v ≠ .ok p) :
    ∃ fault, ofJson limit v = .error (.grammar fault) := by
  unfold ofJson at h ⊢
  cases hread : ofNode limit limit v with
  | error fault => exact ⟨fault, rfl⟩
  | ok p =>
    rw [hread] at h
    exact absurd rfl (h p)

/-- Reading gives a predicate exactly when the value encodes it within the limit, and fails with a
grammar fault exactly when the value encodes none; so a greater limit changes no answer that is a
predicate. -/
theorem ofJson_accepts_exactly (limit : Nat) (v : Json) :
    (∀ p, ofJson limit v = .ok p ↔ p.Encodes v ∧ p.depth ≤ limit) ∧
      ((∃ fault, ofJson limit v = .error (.grammar fault)) ↔
        ∀ p : Predicate, p.Encodes v → limit < p.depth) ∧
      (∀ p larger, limit ≤ larger → ofJson limit v = .ok p → ofJson larger v = .ok p) := by
  refine ⟨fun p => ofJson_eq_ok_iff, ?_, ?_⟩
  · constructor
    · rintro ⟨fault, hfault⟩ p hp
      rw [← Nat.not_le]
      intro hdepth
      have hok := ofJson_eq_ok_iff.2 ⟨hp, hdepth⟩
      rw [hfault] at hok
      cases hok
    · intro hnone
      refine ofJson_error fun p hok => ?_
      obtain ⟨hp, hdepth⟩ := ofJson_eq_ok_iff.1 hok
      exact Nat.not_lt.2 hdepth (hnone p hp)
  · intro p larger hlarger hok
    obtain ⟨hp, hdepth⟩ := ofJson_eq_ok_iff.1 hok
    exact ofJson_eq_ok_iff.2 ⟨hp, Nat.le_trans hdepth hlarger⟩

/-- A negation with a further member is read within its two levels and within more, but not within
one. -/
theorem ofJson_accepts_negation :
    let v : Json := .object [("left", .object [("type", .string "const"), ("value", .bool true)]),
      ("note", .null), ("op", .string "not"), ("type", .string "logical")]
    let p : Predicate := .not (.const (.bool true))
    ofJson 2 v = .ok p ∧ ofJson 5 v = .ok p ∧ ∃ fault, ofJson 1 v = .error (.grammar fault) := by
  intro v p
  have hp : p.Encodes v := ⟨rfl, rfl, rfl, _, rfl, rfl, _, rfl, .bool true⟩
  have hdepth : p.depth = 2 := depth_eq_height p
  have htwo : ofJson 2 v = .ok p :=
    ((ofJson_accepts_exactly 2 v).1 p).2 ⟨hp, Nat.le_of_eq hdepth⟩
  have hfive := (ofJson_accepts_exactly 2 v).2.2 p 5 (by decide) htwo
  refine ⟨htwo, hfive, (ofJson_accepts_exactly 1 v).2.1.2 fun q hq => ?_⟩
  rw [hq.unique hp, hdepth]
  decide

end Predicate

end AuditedRules
