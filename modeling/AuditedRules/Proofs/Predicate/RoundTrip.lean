import AuditedRules.Predicate.Encoding
import AuditedRules.Proofs.Binary64.SignOfZero
import AuditedRules.Proofs.Json.Numbers
import AuditedRules.Proofs.Predicate.Grammar

/-!
# Reading what was written

The JSON form of a predicate encodes the predicate again, except that a negative zero among the
constants comes back positive: the number is written as the integer `0`, which has no sign. A
constant that is not finite is written as null, which no constant is read from, so a predicate with
such a constant has a JSON form that encodes nothing.

Taking zeros as positive (`canonical`) changes neither the levels of a predicate nor its JSON form.
So the JSON form of what was read is itself read, under the same limit, and as the same predicate up
to the sign of zeros (`ofJson_toJson_eq_ok_iff`, `Encodes.constantsFinite`).
-/

namespace AuditedRules

/-! ## Constants -/

namespace Value

/-- A number is finite; other values always are. -/
def Finite : Value → Prop
  | .number x => x.isFinite
  | _ => True

/-- The value with a zero taken as positive. -/
def canonical : Value → Value
  | .number x => .number x.canonical
  | other => other

/-- A finite value is written as what stands for it with its zero positive. -/
theorem spellsConstant_toJson {value : Value} (h : value.Finite) :
    SpellsConstant value.toJson value.canonical := by
  cases value with
  | bool b => exact .bool b
  | string s => exact .string s
  | number x =>
    unfold toJson canonical
    dsimp only
    cases hx : x.exactInt? with
    | some i =>
      rw [← Binary64.ofInt_eq_canonical hx]
      exact .number (.int i)
    | none =>
      rw [Binary64.canonical_of_exactInt?_eq_none hx]
      have hfinite : x.isFinite = true := h
      dsimp only
      rw [if_pos hfinite]
      exact .number (.float x)

/-- A value whose JSON form stands for some value is finite. -/
theorem finite_of_spellsConstant {value read : Value} (h : SpellsConstant value.toJson read) :
    value.Finite := by
  cases value with
  | bool b => trivial
  | string s => trivial
  | number x =>
    unfold toJson at h
    dsimp only at h
    cases x with
    | finite negative units representable => rfl
    | nan => cases h
    | infinity negative => cases h

/-- A value is written as null exactly when it is a number that is not finite. -/
theorem toJson_eq_null_iff {value : Value} : value.toJson = .null ↔ ¬ value.Finite := by
  cases value with
  | bool b => exact iff_of_false Json.noConfusion (not_not_intro trivial)
  | string s => exact iff_of_false Json.noConfusion (not_not_intro trivial)
  | number x =>
    unfold toJson Finite
    dsimp only
    cases x with
    | finite negative units representable =>
      refine iff_of_false ?_ (not_not_intro rfl)
      split <;> exact Json.noConfusion
    | nan => exact iff_of_true rfl Bool.false_ne_true
    | infinity negative => exact iff_of_true rfl Bool.false_ne_true

/-- Taking a zero as positive does not change the JSON form. -/
theorem toJson_canonical (value : Value) : value.canonical.toJson = value.toJson := by
  cases value with
  | number x =>
    unfold canonical toJson
    dsimp only
    rw [Binary64.exactInt?_canonical]
    cases hx : x.exactInt? with
    | some i => rfl
    | none => rw [Binary64.canonical_of_exactInt?_eq_none hx]
  | _ => rfl

/-- A finite value equals itself with its zero positive. -/
theorem strictEq_canonical {value : Value} (h : value.Finite) :
    value.canonical.strictEq value = true := by
  cases value with
  | number x => exact Binary64.canonical_eq h
  | bool b => exact beq_self_eq_true b
  | string s => exact beq_self_eq_true s

/-- A finite value equals what is the same as it with zeros taken as positive. -/
theorem strictEq_iff_canonical_eq {a b : Value} (h : a.Finite) :
    a.strictEq b = true ↔ a.canonical = b.canonical := by
  cases a with
  | bool value => cases b <;> simp [strictEq, canonical]
  | string text => cases b <;> simp [strictEq, canonical]
  | number x =>
    cases b with
    | number y => simp [strictEq, canonical, Binary64.eq_iff_canonical_eq h]
    | _ => simp [strictEq, canonical]

end Value

namespace Predicate

/-! ## Trees -/

/-- Every number among the constants is finite. -/
def ConstantsFinite : Predicate → Prop
  | .const value => value.Finite
  | .field _ => True
  | .arithmetic _ left right => left.ConstantsFinite ∧ right.ConstantsFinite
  | .comparison _ left right => left.ConstantsFinite ∧ right.ConstantsFinite
  | .logical _ left right => left.ConstantsFinite ∧ right.ConstantsFinite
  | .not operand => operand.ConstantsFinite

/-- The predicate with the zeros among its constants taken as positive. -/
def canonical : Predicate → Predicate
  | .const value => .const value.canonical
  | .field name => .field name
  | .arithmetic op left right => .arithmetic op left.canonical right.canonical
  | .comparison op left right => .comparison op left.canonical right.canonical
  | .logical op left right => .logical op left.canonical right.canonical
  | .not operand => .not operand.canonical

/-- Equality of predicates: the same tree, with constants compared as values. So the two zeros are
equal, and NaN equals nothing. -/
def strictEq : Predicate → Predicate → Bool
  | .const a, .const b => a.strictEq b
  | .field a, .field b => a == b
  | .arithmetic op left right, .arithmetic op' left' right' =>
    op == op' && left.strictEq left' && right.strictEq right'
  | .comparison op left right, .comparison op' left' right' =>
    op == op' && left.strictEq left' && right.strictEq right'
  | .logical op left right, .logical op' left' right' =>
    op == op' && left.strictEq left' && right.strictEq right'
  | .not operand, .not operand' => operand.strictEq operand'
  | _, _ => false

/-- Taking zeros as positive keeps the height. -/
theorem height_canonical (p : Predicate) : p.canonical.height = p.height := by
  induction p with
  | const value => rfl
  | field name => rfl
  | arithmetic op left right ihl ihr => rw [canonical, height, height, ihl, ihr]
  | comparison op left right ihl ihr => rw [canonical, height, height, ihl, ihr]
  | logical op left right ihl ihr => rw [canonical, height, height, ihl, ihr]
  | not operand ih => rw [canonical, height, height, ih]

/-- Taking zeros as positive keeps the depth. -/
theorem depth_canonical (p : Predicate) : p.canonical.depth = p.depth := by
  rw [depth_eq_height, depth_eq_height, height_canonical]

/-- Taking zeros as positive does not change the JSON form. -/
theorem toJson_canonical (p : Predicate) : p.canonical.toJson = p.toJson := by
  induction p with
  | const value => rw [canonical, toJson, toJson, Value.toJson_canonical]
  | field name => rfl
  | arithmetic op left right ihl ihr => rw [canonical, toJson, toJson, ihl, ihr]
  | comparison op left right ihl ihr => rw [canonical, toJson, toJson, ihl, ihr]
  | logical op left right ihl ihr => rw [canonical, toJson, toJson, ihl, ihr]
  | not operand ih => rw [canonical, toJson, toJson, ih]

/-- A predicate with finite constants equals itself with its zeros positive. -/
theorem strictEq_canonical {p : Predicate} (h : p.ConstantsFinite) :
    p.canonical.strictEq p = true := by
  induction p with
  | const value => exact Value.strictEq_canonical h
  | field name => exact beq_self_eq_true name
  | arithmetic op left right ihl ihr =>
    rw [canonical, strictEq, ihl h.1, ihr h.2, beq_self_eq_true]
    rfl
  | comparison op left right ihl ihr =>
    rw [canonical, strictEq, ihl h.1, ihr h.2, beq_self_eq_true]
    rfl
  | logical op left right ihl ihr =>
    rw [canonical, strictEq, ihl h.1, ihr h.2, beq_self_eq_true]
    rfl
  | not operand ih => exact ih h

/-- A predicate with finite constants equals what is the same as it with zeros taken as positive. -/
theorem strictEq_iff_canonical_eq {a b : Predicate} (h : a.ConstantsFinite) :
    a.strictEq b = true ↔ a.canonical = b.canonical := by
  induction a generalizing b with
  | const value =>
    cases b with
    | const other => simp [strictEq, canonical, Value.strictEq_iff_canonical_eq h]
    | _ => simp [strictEq, canonical]
  | field name => cases b <;> simp [strictEq, canonical]
  | arithmetic op left right ihl ihr =>
    cases b with
    | arithmetic op' left' right' => simp [strictEq, canonical, ihl h.1, ihr h.2, and_assoc]
    | _ => simp [strictEq, canonical]
  | comparison op left right ihl ihr =>
    cases b with
    | comparison op' left' right' => simp [strictEq, canonical, ihl h.1, ihr h.2, and_assoc]
    | _ => simp [strictEq, canonical]
  | logical op left right ihl ihr =>
    cases b with
    | logical op' left' right' => simp [strictEq, canonical, ihl h.1, ihr h.2, and_assoc]
    | _ => simp [strictEq, canonical]
  | not operand ih =>
    cases b with
    | not operand' => simp [strictEq, canonical, ih h]
    | _ => simp [strictEq, canonical]

/-! ## The JSON form -/

/-- The JSON form encodes the predicate with its zeros positive. -/
theorem encodes_toJson {p : Predicate} (h : p.ConstantsFinite) : p.canonical.Encodes p.toJson := by
  induction p with
  | const value => exact ⟨rfl, _, rfl, Value.spellsConstant_toJson h⟩
  | field name => exact ⟨rfl, rfl⟩
  | arithmetic op left right ihl ihr =>
    exact ⟨rfl, ⟨_, rfl, op.named⟩, ⟨_, rfl, ihl h.1⟩, _, rfl, ihr h.2⟩
  | comparison op left right ihl ihr =>
    exact ⟨rfl, ⟨_, rfl, op.named⟩, ⟨_, rfl, ihl h.1⟩, _, rfl, ihr h.2⟩
  | logical op left right ihl ihr =>
    exact ⟨rfl, ⟨_, rfl, op.named⟩, ⟨_, rfl, ihl h.1⟩, _, rfl, ihr h.2⟩
  | not operand ih => exact ⟨rfl, rfl, rfl, _, rfl, ih h⟩

/-- What encodes a predicate has its type under `type`. -/
theorem Encodes.hasType {p : Predicate} {v : Json} (h : p.Encodes v) :
    HasText v "type" p.typeName := by
  cases p <;> exact h.1

/-- Each of two operands is a member that encodes a predicate. -/
theorem exists_encodes_of_operands {left right : Predicate} {v m : Json} {name : String}
    (h : (∃ l, v.get? "left" = some l ∧ left.Encodes l) ∧
      ∃ r, v.get? "right" = some r ∧ right.Encodes r)
    (hname : name = "left" ∨ name = "right") (hm : v.get? name = some m) :
    ∃ q : Predicate, q.Encodes m := by
  obtain ⟨⟨l, hl, hleft⟩, r, hr, hright⟩ := h
  rcases hname with rfl | rfl
  · rw [hm, Option.some.injEq] at hl
    rw [hl]
    exact ⟨left, hleft⟩
  · rw [hm, Option.some.injEq] at hr
    rw [hr]
    exact ⟨right, hright⟩

/-- Where an object that is no leaf encodes a predicate, its operands do. -/
theorem Encodes.operand {p : Predicate} {v m : Json} {type name : String} (h : p.Encodes v)
    (htype : HasText v "type" type) (hleaf : type ≠ "const" ∧ type ≠ "field")
    (hname : name = "left" ∨ name = "right") (hm : v.get? name = some m) :
    ∃ q : Predicate, q.Encodes m := by
  have hsame := h.hasType
  unfold HasText at htype hsame
  rw [htype, Option.some.injEq, Json.string.injEq] at hsame
  cases p with
  | const value => exact absurd hsame hleaf.1
  | field name => exact absurd hsame hleaf.2
  | arithmetic op left right => exact exists_encodes_of_operands h.2.2 hname hm
  | comparison op left right => exact exists_encodes_of_operands h.2.2 hname hm
  | logical op left right => exact exists_encodes_of_operands h.2.2 hname hm
  | not operand =>
    obtain ⟨-, -, hright, l, hl, hleft⟩ := h
    rcases hname with rfl | rfl
    · rw [hm, Option.some.injEq] at hl
      rw [hl]
      exact ⟨operand, hleft⟩
    · rw [hright] at hm
      cases hm

/-- Where the form of a node with two operands encodes a predicate, both operands do. -/
theorem operands_of_encodes_binaryJson {p : Predicate} {kind op : String} {l r : Json}
    (h : p.Encodes (binaryJson kind op l r)) (hleaf : kind ≠ "const" ∧ kind ≠ "field") :
    (∃ q : Predicate, q.Encodes l) ∧ ∃ q : Predicate, q.Encodes r :=
  ⟨h.operand rfl hleaf (.inl rfl) rfl, h.operand rfl hleaf (.inr rfl) rfl⟩

/-- A predicate whose JSON form encodes a predicate has finite constants. -/
theorem constantsFinite_of_encodes_toJson {p q : Predicate} (h : q.Encodes p.toJson) :
    p.ConstantsFinite := by
  induction p generalizing q with
  | const value =>
    -- Only a constant has the type `const`.
    have htype : some (Json.string "const") = some (.string q.typeName) := h.hasType
    cases q with
    | const read =>
      obtain ⟨-, json, hjson, hspells⟩ := h
      have hsame : some value.toJson = some json := hjson
      rw [Option.some.injEq] at hsame
      rw [← hsame] at hspells
      exact Value.finite_of_spellsConstant hspells
    | _ => simp [typeName] at htype
  | field name => trivial
  | arithmetic op left right ihl ihr =>
    obtain ⟨⟨_, hl⟩, _, hr⟩ := operands_of_encodes_binaryJson h (by decide)
    exact ⟨ihl hl, ihr hr⟩
  | comparison op left right ihl ihr =>
    obtain ⟨⟨_, hl⟩, _, hr⟩ := operands_of_encodes_binaryJson h (by decide)
    exact ⟨ihl hl, ihr hr⟩
  | logical op left right ihl ihr =>
    obtain ⟨⟨_, hl⟩, _, hr⟩ := operands_of_encodes_binaryJson h (by decide)
    exact ⟨ihl hl, ihr hr⟩
  | not operand ih =>
    obtain ⟨_, hl⟩ := h.operand rfl (by decide) (.inl rfl) rfl
    exact ih hl

/-- The JSON form is read when the constants are finite and the levels are within the limit, and
then as the predicate with its zeros positive. -/
theorem ofJson_toJson_eq_ok_iff {limit : Nat} {p q : Predicate} :
    ofJson limit p.toJson = .ok q ↔ q = p.canonical ∧ p.ConstantsFinite ∧ p.depth ≤ limit := by
  rw [ofJson_eq_ok_iff]
  constructor
  · rintro ⟨hq, hdepth⟩
    have hfinite := constantsFinite_of_encodes_toJson hq
    have hsame : q = p.canonical := hq.unique (encodes_toJson hfinite)
    rw [hsame, depth_canonical] at hdepth
    exact ⟨hsame, hfinite, hdepth⟩
  · rintro ⟨rfl, hfinite, hdepth⟩
    rw [depth_canonical]
    exact ⟨encodes_toJson hfinite, hdepth⟩

/-- What a value with finite numbers encodes has finite constants. -/
theorem Encodes.constantsFinite {p : Predicate} {v : Json} (h : p.Encodes v)
    (hv : v.NumbersFinite) : p.ConstantsFinite := by
  induction p generalizing v with
  | const value =>
    obtain ⟨-, json, hjson, hspells⟩ := h
    have hfinite := hv.of_get? hjson
    cases hspells with
    | number n =>
      cases hfinite with
      | number hn => exact hn
    | bool b => trivial
    | string s => trivial
  | field name => trivial
  | arithmetic op left right ihl ihr =>
    obtain ⟨-, -, ⟨l, hl, hleft⟩, r, hr, hright⟩ := h
    exact ⟨ihl hleft (hv.of_get? hl), ihr hright (hv.of_get? hr)⟩
  | comparison op left right ihl ihr =>
    obtain ⟨-, -, ⟨l, hl, hleft⟩, r, hr, hright⟩ := h
    exact ⟨ihl hleft (hv.of_get? hl), ihr hright (hv.of_get? hr)⟩
  | logical op left right ihl ihr =>
    obtain ⟨-, -, ⟨l, hl, hleft⟩, r, hr, hright⟩ := h
    exact ⟨ihl hleft (hv.of_get? hl), ihr hright (hv.of_get? hr)⟩
  | not operand ih =>
    obtain ⟨-, -, -, l, hl, hinner⟩ := h
    exact ih hinner (hv.of_get? hl)

/-- What is read from text is read from a JSON value with finite numbers. -/
theorem exists_ofJson_of_ofText {limit : Nat} {text : String} {p : Predicate}
    (h : ofText limit text = .ok p) : ∃ v : Json, v.NumbersFinite ∧ ofJson limit v = .ok p := by
  unfold ofText at h
  split at h
  · rename_i v hv
    exact ⟨v, Json.numbersFinite_of_read hv, h⟩
  · cases h
  · cases h

/-- A predicate with finite constants is read from its JSON form under every limit that is no less
than its depth, and equals what is read; the form of any other predicate is a grammar fault. So the
form of a predicate that was read is read under the same limit, and from then on stays the same. The
numbers of a value are finite wherever the value was read from text. -/
theorem ofJson_toJson (limit : Nat) :
    (∀ p : Predicate, p.ConstantsFinite → p.depth ≤ limit →
      ∃ q, ofJson limit p.toJson = .ok q ∧ q.strictEq p) ∧
    (∀ p : Predicate, limit < p.depth ∨ ¬ p.ConstantsFinite →
      ∃ fault, ofJson limit p.toJson = .error (.grammar fault)) ∧
    (∀ v p, v.NumbersFinite → ofJson limit v = .ok p →
      ∃ q, ofJson limit p.toJson = .ok q ∧ q.strictEq p ∧ q.toJson = p.toJson) ∧
    (∀ text p, ofText limit text = .ok p →
      ∃ q, ofJson limit p.toJson = .ok q ∧ q.strictEq p ∧ q.toJson = p.toJson) := by
  -- What is read from finite numbers has finite constants, so it is read again.
  have hagain : ∀ v p, v.NumbersFinite → ofJson limit v = .ok p →
      ∃ q, ofJson limit p.toJson = .ok q ∧ q.strictEq p ∧ q.toJson = p.toJson := by
    intro v p hv hread
    obtain ⟨hencodes, hdepth⟩ := ofJson_eq_ok_iff.1 hread
    have hfinite := hencodes.constantsFinite hv
    exact ⟨_, ofJson_toJson_eq_ok_iff.2 ⟨rfl, hfinite, hdepth⟩, strictEq_canonical hfinite,
      toJson_canonical p⟩
  refine ⟨fun p hfinite hdepth => ?_, fun p hnot => ?_, hagain, fun text p hread => ?_⟩
  · exact ⟨_, ofJson_toJson_eq_ok_iff.2 ⟨rfl, hfinite, hdepth⟩, strictEq_canonical hfinite⟩
  · refine ofJson_error fun q hread => ?_
    obtain ⟨-, hfinite, hdepth⟩ := ofJson_toJson_eq_ok_iff.1 hread
    rcases hnot with hlimit | hnot
    · exact Nat.not_lt.2 hdepth hlimit
    · exact hnot hfinite
  · obtain ⟨v, hv, hread⟩ := exists_ofJson_of_ofText hread
    exact hagain v p hv hread

/-- A comparison with a negative zero is read again within its two levels and not within one, and an
infinite constant is not read again. -/
theorem ofJson_toJson_negative_zero :
    let p : Predicate := .comparison .equal (.field "score") (.const (.number (.zero true)))
    (∃ q, ofJson 2 p.toJson = .ok q ∧ q.strictEq p) ∧
      (∃ fault, ofJson 1 p.toJson = .error (.grammar fault)) ∧
      ∃ fault,
        ofJson 2 (toJson (.const (.number (.infinity false)))) = .error (.grammar fault) := by
  intro p
  have hdepth : p.depth = 2 := depth_eq_height p
  refine ⟨?_, ?_, ?_⟩
  · exact (ofJson_toJson 2).1 p ⟨trivial, rfl⟩ (Nat.le_of_eq hdepth)
  · refine (ofJson_toJson 1).2.1 p (.inl ?_)
    rw [hdepth]
    decide
  · refine (ofJson_toJson 2).2.1 _ (.inr fun hfinite => ?_)
    cases hfinite

end Predicate

end AuditedRules
