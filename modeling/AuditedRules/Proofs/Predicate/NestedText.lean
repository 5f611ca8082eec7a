import AuditedRules.Proofs.Document.Nesting
import AuditedRules.Proofs.Evaluation.ResultText
import AuditedRules.Proofs.Predicate.CompactText
import AuditedRules.Proofs.Predicate.Schema

/-!
# Two limits on levels

A predicate in a JSON text is read under two limits, the one on levels of nodes that the caller sets
and the one of `127` on levels of arrays and objects that all JSON text has. A value is not read as
text any more, so for a value only the first one counts.

The limits count different things. All arrays and objects of the text count for the second one, also
those in members that no node has, so there are as many of their levels as there are of nodes, or
more (`Encodes.height_le_nesting`). Text and value are read alike up to `127` levels of the text
(`ofText_eq_ite`). Beyond that the text is refused, however few nodes it has and whatever the caller
allows, and the message names the caller's limit all the same.
-/

namespace AuditedRules

/-! ## Texts and values -/

/-- The text stands for the value, which is read from it on however many levels that takes. -/
def Denotes (text : String) (v : Json) : Prop :=
  (∃ levels, Decoder.json .json levels (Json.read text).root = .ok v) ∧
    (Json.read text).trailing = false

/-- The number of levels of arrays and objects in a text. -/
def textNesting (text : String) : Nat :=
  (Json.read text).root.nesting

section
variable {text : String} {v : Json}

/-- The value is read from the text, or the text is nested too deep. -/
theorem Denotes.decode (h : Denotes text v) :
    (Json.read text).decode .json Decoder.json =
      if textNesting text ≤ 127 then .ok v else .error .tooDeep := by
  obtain ⟨⟨levels, hread⟩, htrailing⟩ := h
  have hlevels : Format.json.levels = 127 := rfl
  unfold Reading.decode
  rw [htrailing, Decoder.json_eq_ite hread, hlevels, textNesting]
  split <;> rfl

/-- A value has no more levels than the text that stands for it. -/
theorem Denotes.nesting_le (h : Denotes text v) : v.nesting ≤ textNesting text := by
  obtain ⟨⟨levels, hread⟩, -⟩ := h
  have hown := Decoder.json_eq_ite hread (textNesting text)
  rw [textNesting, if_pos (Nat.le_refl _)] at hown
  exact Decoder.nesting_le_of_json hown

/-- The compact text of a value stands for it, if the value can be written. -/
theorem denotes_compact {levels : Nat} (h : v.Writable levels) : Denotes v.compact v := by
  unfold Denotes
  rw [Json.read_compact h.numbersFit]
  exact ⟨⟨levels, Decoder.json_toDocument h⟩, rfl⟩

/-- The compact text of a value has the levels of the value. -/
theorem textNesting_compact (h : v.NumbersFit) : textNesting v.compact = v.nesting := by
  rw [textNesting, Json.read_compact h, Json.nesting_toDocument]

end

namespace Predicate

variable {limit levels bound : Nat} {text : String} {v : Json} {p : Predicate}

/-! ## Levels of nodes -/

/-- A predicate has no more levels than a value that encodes it. -/
theorem Encodes.height_le_nesting (h : p.Encodes v) : p.height ≤ v.nesting := by
  have hone {v m : Json} {name : String} (hm : v.get? name = some m) : 1 ≤ v.nesting :=
    Nat.lt_of_le_of_lt (Nat.zero_le _) (Json.nesting_lt_of_get? hm)
  have hboth {left right : Predicate} {l r v : Json} (hleft : left.height ≤ l.nesting)
      (hl : v.get? "left" = some l) (hright : right.height ≤ r.nesting)
      (hr : v.get? "right" = some r) : max left.height right.height + 1 ≤ v.nesting :=
    Nat.succ_le_of_lt (Nat.max_lt.2 ⟨Nat.lt_of_le_of_lt hleft (Json.nesting_lt_of_get? hl),
      Nat.lt_of_le_of_lt hright (Json.nesting_lt_of_get? hr)⟩)
  induction p generalizing v with
  | const value => exact hone h.1
  | field name => exact hone h.1
  | arithmetic op left right ihl ihr =>
    obtain ⟨-, -, ⟨l, hl, hleft⟩, r, hr, hright⟩ := h
    exact hboth (ihl hleft) hl (ihr hright) hr
  | comparison op left right ihl ihr =>
    obtain ⟨-, -, ⟨l, hl, hleft⟩, r, hr, hright⟩ := h
    exact hboth (ihl hleft) hl (ihr hright) hr
  | logical op left right ihl ihr =>
    obtain ⟨-, -, ⟨l, hl, hleft⟩, r, hr, hright⟩ := h
    exact hboth (ihl hleft) hl (ihr hright) hr
  | not operand ih =>
    obtain ⟨-, -, -, l, hl, hinner⟩ := h
    exact Nat.lt_of_le_of_lt (ih hinner) (Json.nesting_lt_of_get? hl)

/-- The JSON form of a predicate has the levels of the predicate. -/
theorem nesting_toJson (h : p.ConstantsFinite) : p.toJson.nesting = p.height := by
  refine Nat.le_antisymm (writable_toJson h (Nat.le_refl _)).nesting_le ?_
  rw [← height_canonical]
  exact (encodes_toJson h).height_le_nesting

/-- The compact text of a predicate stands for its JSON form and has as many levels. -/
theorem denotes_compact_toJson (h : p.ConstantsFinite) :
    Denotes p.toJson.compact p.toJson ∧ textNesting p.toJson.compact = p.depth := by
  have hwritable := writable_toJson h (Nat.le_refl _)
  refine ⟨denotes_compact hwritable, ?_⟩
  rw [textNesting_compact hwritable.numbersFit, nesting_toJson h, depth_eq_height]

/-- Every value has a level of nodes. -/
theorem nodeLevels_pos (v : Json) : 0 < nodeLevels v := by
  cases v with
  | object members =>
    rw [nodeLevels]
    split
    · exact Nat.one_pos
    · split <;> exact Nat.lt_of_lt_of_le Nat.one_pos (Nat.le_add_right 1 _)
  | _ => exact Nat.one_pos

/-- A value has more levels of nodes than an operand of it. -/
theorem nodeLevels_lt {m : Json} {type name : String} (htype : HasText v "type" type)
    (hleaf : ¬ (type = "const" ∨ type = "field")) (hm : v.get? name = some m)
    (hname : name = "left" ∨ name = "right" ∧ ¬ (type = "logical" ∧ HasText v "op" "not")) :
    nodeLevels m < nodeLevels v := by
  obtain ⟨members, rfl⟩ := Json.exists_object_of_get? hm
  rw [← textMember?_eq_some_iff] at htype
  rw [← textMember?_eq_some_iff] at hname
  have hlevels := levelsUnder_of_entryValue? hm
  rw [nodeLevels, htype, if_neg (by simpa using hleaf)]
  split
  · rename_i hnot
    -- A negation has no operand on the right.
    rcases hname with rfl | ⟨-, hother⟩
    · rw [hlevels]
      omega
    · exact absurd (by simpa using hnot) hother
  · rcases hname with rfl | ⟨rfl, -⟩
    · rw [hlevels]
      omega
    · rw [hlevels]
      omega

/-! ## Refusals of the reader -/

/-- Reading the name of an operator does not count levels. -/
theorem operatorName_ne_tooDeep {kind : NodeKind} :
    operatorName v kind ≠ .error (.tooDeep bound) := by
  intro h
  unfold operatorName at h
  split at h <;> cases h

/-- Reading an operator does not count levels. -/
theorem operator_ne_tooDeep {α : Type} {kind : NodeKind} {ofName? : String → Option α} :
    operator v kind ofName? ≠ .error (.tooDeep bound) := by
  intro h
  rcases bind_eq_error_iff.1 h with h | ⟨name, -, h⟩
  · exact operatorName_ne_tooDeep h
  · split at h <;> cases h

section
variable {read : Json → Except GrammarFault Predicate} {kind : NodeKind}

/-- An operand that is refused for its levels is a member that is refused. -/
theorem exists_of_operand_eq_tooDeep {name : String}
    (h : operand read v kind name = .error (.tooDeep bound)) :
    ∃ m, v.get? name = some m ∧ read m = .error (.tooDeep bound) := by
  unfold operand at h
  split at h
  · rename_i m hm
    exact ⟨m, hm, h⟩
  · cases h

/-- Of two operands one is refused. -/
theorem exists_of_bothOperands_eq_tooDeep
    (h : bothOperands read v kind = .error (.tooDeep bound)) :
    ∃ name m, (name = "left" ∨ name = "right") ∧ v.get? name = some m ∧
      read m = .error (.tooDeep bound) := by
  rcases bind_eq_error_iff.1 h with h | ⟨left, -, h⟩
  · obtain ⟨m, hm, hread⟩ := exists_of_operand_eq_tooDeep h
    exact ⟨"left", m, .inl rfl, hm, hread⟩
  · rcases bind_eq_error_iff.1 h with h | ⟨right, -, h⟩
    · obtain ⟨m, hm, hread⟩ := exists_of_operand_eq_tooDeep h
      exact ⟨"right", m, .inr rfl, hm, hread⟩
    · cases h

/-- A node with two operands that is refused for its levels has an operand that is refused. -/
theorem exists_of_binaryNode_eq_tooDeep {α : Type} {ofName? : String → Option α}
    {node : α → Predicate → Predicate → Predicate}
    (h : (operator v kind ofName? >>= fun op => bothOperands read v kind >>= fun (left, right) =>
      .ok (node op left right)) = .error (.tooDeep bound)) :
    ∃ name m, (name = "left" ∨ name = "right") ∧ v.get? name = some m ∧
      read m = .error (.tooDeep bound) := by
  rcases bind_eq_error_iff.1 h with h | ⟨op, -, h⟩
  · exact absurd h operator_ne_tooDeep
  · rcases bind_eq_error_iff.1 h with h | ⟨operands, -, h⟩
    · exact exists_of_bothOperands_eq_tooDeep h
    · cases h

/-- A node of type `logical` that is refused for its levels has an operand that is refused, which a
negation does not have on the right. -/
theorem exists_of_logicalNode_eq_tooDeep (h : logicalNode read v = .error (.tooDeep bound)) :
    ∃ name m, (name = "left" ∨ name = "right" ∧ ¬ HasText v "op" "not") ∧
      v.get? name = some m ∧ read m = .error (.tooDeep bound) := by
  rcases bind_eq_error_iff.1 h with h | ⟨op, hop, h⟩
  · exact absurd h operatorName_ne_tooDeep
  rw [operatorName_eq_ok_iff] at hop
  split at h
  · split at h
    · cases h
    · rcases bind_eq_error_iff.1 h with h | ⟨inner, -, h⟩
      · obtain ⟨m, hm, hread⟩ := exists_of_operand_eq_tooDeep h
        exact ⟨"left", m, .inl rfl, hm, hread⟩
      · cases h
  · rename_i hnot
    have hother : ¬ HasText v "op" "not" := by
      intro hsame
      unfold HasText at hop hsame
      rw [hop, Option.some.injEq, Json.string.injEq] at hsame
      exact hnot hsame
    split at h
    · rcases bind_eq_error_iff.1 h with h | ⟨operands, -, h⟩
      · obtain ⟨name, m, hname, hm, hread⟩ := exists_of_bothOperands_eq_tooDeep h
        exact ⟨name, m, hname.imp_right fun hname => ⟨hname, hother⟩, hm, hread⟩
      · cases h
    · cases h

/-- A node that is refused for its levels has an operand that is refused, which a negation does not
have on the right. -/
theorem exists_of_nodeOfType_eq_tooDeep {type : String}
    (h : nodeOfType read v type = .error (.tooDeep bound)) :
    ¬ (type = "const" ∨ type = "field") ∧ ∃ name m,
      (name = "left" ∨ name = "right" ∧ ¬ (type = "logical" ∧ HasText v "op" "not")) ∧
        v.get? name = some m ∧ read m = .error (.tooDeep bound) := by
  unfold nodeOfType at h
  split at h
  · split at h <;> cases h
  rename_i hconst
  split at h
  · split at h <;> cases h
  rename_i hfield
  refine ⟨fun htype => htype.elim hconst hfield, ?_⟩
  split at h
  · rename_i htype
    obtain ⟨name, m, hname, hm, hread⟩ := exists_of_binaryNode_eq_tooDeep h
    exact ⟨name, m, hname.imp_right fun hname => ⟨hname, by simp [htype]⟩, hm, hread⟩
  split at h
  · rename_i htype
    obtain ⟨name, m, hname, hm, hread⟩ := exists_of_binaryNode_eq_tooDeep h
    exact ⟨name, m, hname.imp_right fun hname => ⟨hname, by simp [htype]⟩, hm, hread⟩
  split at h
  · obtain ⟨name, m, hname, hm, hread⟩ := exists_of_logicalNode_eq_tooDeep h
    exact ⟨name, m, hname.imp_right fun ⟨hname, hother⟩ => ⟨hname, fun hnot => hother hnot.2⟩, hm,
      hread⟩
  · cases h

end

/-- A value that is refused for its levels has more levels of nodes than are left, and the message
names the limit. -/
theorem lt_nodeLevels_of_tooDeep (h : ofNode limit levels v = .error (.tooDeep bound)) :
    bound = limit ∧ levels < nodeLevels v := by
  induction levels generalizing v with
  | zero =>
    cases h
    exact ⟨rfl, nodeLevels_pos v⟩
  | succ levels ih =>
    unfold ofNode at h
    split at h
    · split at h
      · rename_i type htype
        rw [textMember?_eq_some_iff] at htype
        -- The operand is refused one level further down, where one level fewer is left.
        obtain ⟨hleaf, name, m, hname, hm, hread⟩ := exists_of_nodeOfType_eq_tooDeep h
        obtain ⟨hbound, hlevels⟩ := ih hread
        exact ⟨hbound, Nat.lt_of_le_of_lt hlevels (nodeLevels_lt htype hleaf hm hname)⟩
      · cases h
    · cases h

/-! ## Texts -/

/-- Up to `127` levels of a text the value that it stands for is read, and from there on nothing
is. -/
theorem ofText_eq_ite (h : Denotes text v) (limit : Nat) :
    ofText limit text =
      if textNesting text ≤ 127 then ofJson limit v else .error (.grammar (.tooDeep limit)) := by
  unfold ofText
  rw [h.decode]
  by_cases hnesting : textNesting text ≤ 127
  · rw [if_pos hnesting, if_pos hnesting]
  · rw [if_neg hnesting, if_neg hnesting]

/-- A predicate is read from a text when it is read from the value that the text stands for, and the
text has at most `127` levels. -/
theorem ofText_eq_ok_iff_ofJson (h : Denotes text v) :
    ofText limit text = .ok p ↔ textNesting text ≤ 127 ∧ ofJson limit v = .ok p := by
  rw [ofText_eq_ite h]
  split
  · rename_i hnesting
    exact (and_iff_right hnesting).symm
  · rename_i hnesting
    exact iff_of_false (fun hread => by cases hread) fun hread => hnesting hread.1

/-- A text that is refused for its levels has too many levels of nodes or too many of its own. The
message names the limit on nodes in both cases. -/
theorem lt_levels_of_ofText_eq_tooDeep (h : Denotes text v)
    (hdeep : ofText limit text = .error (.grammar (.tooDeep bound))) :
    bound = limit ∧ (limit < nodeLevels v ∨ 127 < textNesting text) := by
  rw [ofText_eq_ite h] at hdeep
  split at hdeep
  · unfold ofJson at hdeep
    cases hnode : ofNode limit limit v with
    | ok p =>
      rw [hnode] at hdeep
      cases hdeep
    | error fault =>
      rw [hnode] at hdeep
      cases hdeep
      obtain ⟨hbound, hlevels⟩ := lt_nodeLevels_of_tooDeep hnode
      exact ⟨hbound, .inl hlevels⟩
  · rename_i hnesting
    cases hdeep
    exact ⟨rfl, .inr (Nat.not_le.1 hnesting)⟩

/-- A text and the value that it stands for are read as the same predicates if and only if the text
has at most `127` levels or the value is read as no predicate. Up to `127` levels reading the text
is reading the value; beyond them the text is refused with the message on the limit. A predicate of
the value has no more levels than the text, and within the limit it is read from the text if the
text has at most `127`. What is refused with that message has more levels of nodes than the limit,
or stands in a text of more than `127` levels. -/
theorem ofText_agrees_with_ofJson (h : Denotes text v) (limit : Nat) :
    ((∀ p, ofText limit text = .ok p ↔ ofJson limit v = .ok p) ↔
      textNesting text ≤ 127 ∨ ∀ p, ofJson limit v ≠ .ok p) ∧
    (textNesting text ≤ 127 → ofText limit text = ofJson limit v) ∧
    (127 < textNesting text → ofText limit text = .error (.grammar (.tooDeep limit))) ∧
    (∀ p, p.Encodes v → p.depth ≤ textNesting text ∧
      (p.depth ≤ limit → (ofText limit text = .ok p ↔ textNesting text ≤ 127))) ∧
    ∀ bound, ofText limit text = .error (.grammar (.tooDeep bound)) →
      bound = limit ∧ (limit < nodeLevels v ∨ 127 < textNesting text) := by
  have hread (p : Predicate) :
      ofText limit text = .ok p ↔ textNesting text ≤ 127 ∧ ofJson limit v = .ok p :=
    ofText_eq_ok_iff_ofJson h
  refine ⟨⟨fun hsame => ?_, ?_⟩, fun hnesting => ?_, fun hnesting => ?_, fun p hp => ⟨?_, ?_⟩,
    fun bound => lt_levels_of_ofText_eq_tooDeep h⟩
  · -- A predicate of the value is read from the text as well, which shows the levels of the text.
    refine or_iff_not_imp_right.2 fun hsome => ?_
    obtain ⟨p, hp⟩ := Classical.not_forall_not.1 hsome
    exact ((hread p).1 ((hsame p).2 hp)).1
  · rintro (hnesting | hnone) p
    · exact (hread p).trans (and_iff_right hnesting)
    · exact (hread p).trans (iff_of_false (fun hp => hnone p hp.2) (hnone p))
  · rw [ofText_eq_ite h, if_pos hnesting]
  · rw [ofText_eq_ite h, if_neg (Nat.not_le.2 hnesting)]
  · rw [depth_eq_height]
    exact Nat.le_trans hp.height_le_nesting h.nesting_le
  · intro hdepth
    exact (hread p).trans (and_iff_left (ofJson_eq_ok_iff.2 ⟨hp, hdepth⟩))

/-- A negated constant has no numbers. -/
theorem constantsFinite_negations (n : Nat) : (negations n).ConstantsFinite := by
  induction n with
  | zero => trivial
  | succ n ih => exact ih

/-- Taking zeros as positive changes nothing in a negated constant. -/
theorem canonical_negations (n : Nat) : (negations n).canonical = negations n := by
  induction n with
  | zero => rfl
  | succ n ih => rw [negations, canonical, ih]

/-- A constant that is negated `126` times is read from its text as from its JSON form. With one
negation more it is refused, and the text and the form are not read alike. -/
theorem ofText_agrees_with_ofJson_negations :
    let form (n : Nat) : Json := (negations n).toJson
    ofText 200 (form 126).compact = ofJson 200 (form 126) ∧
      ofText 200 (form 127).compact = .error (.grammar (.tooDeep 200)) ∧
      ¬ ∀ p, ofText 200 (form 127).compact = .ok p ↔ ofJson 200 (form 127) = .ok p := by
  intro form
  have htext (n : Nat) :
      Denotes (form n).compact (form n) ∧ textNesting (form n).compact = n + 1 := by
    rw [← depth_negations n]
    exact denotes_compact_toJson (constantsFinite_negations n)
  obtain ⟨-, hwithin, -⟩ := ofText_agrees_with_ofJson (htext 126).1 200
  obtain ⟨hsame, -, hbeyond, -⟩ := ofText_agrees_with_ofJson (htext 127).1 200
  rw [(htext 126).2] at hwithin
  rw [(htext 127).2] at hbeyond hsame
  refine ⟨hwithin (by decide), hbeyond (by decide), fun hall => ?_⟩
  rcases hsame.1 hall with hnesting | hnone
  · exact absurd hnesting (by decide)
  · refine hnone (negations 127) (ofJson_toJson_eq_ok_iff.2 ⟨?_, ?_, ?_⟩)
    · exact (canonical_negations 127).symm
    · exact constantsFinite_negations 127
    · rw [depth_negations]
      decide

/-- An array of an array, and so on, with some arrays around the innermost one. -/
def nestedArrays : Nat → Json
  | 0 => .array []
  | n + 1 => .array [nestedArrays n]

/-- Nested arrays can be written. -/
theorem writable_nestedArrays (n : Nat) : (nestedArrays n).Writable (n + 1) := by
  induction n with
  | zero => exact .array fun _ hitem => absurd hitem List.not_mem_nil
  | succ n ih => exact .array (List.forall_mem_singleton.2 ih)

/-- Each array is a level. -/
theorem nesting_nestedArrays (n : Nat) : (nestedArrays n).nesting = n + 1 := by
  induction n with
  | zero => rfl
  | succ n ih =>
    rw [nestedArrays, Json.nesting, Json.itemsNesting, Json.itemsNesting, ih, Nat.max_zero]

/-- A constant that is negated `127` times has `128` levels. It is read from its JSON form under a
limit of `128` and refused from its text under the same limit. So is a constant next to a member of
nested arrays, which has one level of nodes, under the default limit. -/
theorem ofText_refuses_within_limit :
    let p : Predicate := negations 127
    let constant : Json := .object [("note", nestedArrays 126), ("type", .string "const"),
      ("value", .bool true)]
    (Denotes p.toJson.compact p.toJson ∧ p.depth = 128 ∧ ofJson 128 p.toJson = .ok p ∧
      ofText 128 p.toJson.compact = .error (.grammar (.tooDeep 128))) ∧
    Denotes constant.compact constant ∧ nodeLevels constant = 1 ∧
      ofJson defaultLimit constant = .ok (.const (.bool true)) ∧
      ofText defaultLimit constant.compact = .error (.grammar (.tooDeep defaultLimit)) := by
  intro p constant
  have hdepth : p.depth = 128 := depth_negations 127
  have hfinite : p.ConstantsFinite := constantsFinite_negations 127
  obtain ⟨htext, hnesting⟩ := denotes_compact_toJson hfinite
  have hwritable : constant.Writable 128 := by
    refine .object (ascending_of_names (by decide)) ?_
    rw [List.forall_mem_cons, List.forall_mem_cons, List.forall_mem_singleton]
    exact ⟨writable_nestedArrays 126, .string _, .bool _⟩
  have hconstant : textNesting constant.compact = 128 := by
    rw [textNesting_compact hwritable.numbersFit]
    show Json.nesting (.object _) = 128
    rw [Json.nesting, Json.membersNesting, nesting_nestedArrays]
    rfl
  refine ⟨⟨htext, hdepth, ?_, ?_⟩, denotes_compact hwritable, ?_, rfl, ?_⟩
  · exact ofJson_toJson_eq_ok_iff.2
      ⟨(canonical_negations 127).symm, hfinite, Nat.le_of_eq hdepth⟩
  · rw [ofText_eq_ite htext, hnesting, hdepth, if_neg (by decide)]
  · exact nodeLevels_leaf rfl (.inl rfl)
  · rw [ofText_eq_ite (denotes_compact hwritable), hconstant, if_neg (by decide)]

end Predicate

end AuditedRules
