import AuditedRules.Proofs.Intake.BareReplies

/-!
# Replies that are no JSON

A reply is said to be no JSON when what is left of it without fences is not read. This is so of a
text that is not well-formed, and it is meant for that, but two other texts are not read either:
one in which something stands for no value, such as a number too large for a double, and one of more
than `127` levels of arrays and objects (`ofReply_notJson_exactly`).

The last of these is a predicate with too many levels as often as not. Up to `127` levels of the
reply it is refused with the message on the caller's limit, as its own text is; beyond them the
reply is said to be no JSON, while the text of the predicate is refused with that message at every
depth (`ofReply_confuses_depth`).
-/

namespace AuditedRules

namespace Predicate

variable {limit levels : Nat} {v : Json} {p : Predicate}

/-! ## Too many levels of nodes -/

/-- With a level left, a node is read by its type. -/
theorem ofNode_succ_of_type {type : String} (htype : HasText v "type" type) :
    ofNode limit (levels + 1) v = nodeOfType (ofNode limit levels) v type := by
  obtain ⟨members, rfl⟩ := Json.exists_object_of_get? htype
  rw [← textMember?_eq_some_iff] at htype
  simp only [ofNode, htype]

/-- An operand that is there is read. -/
theorem operand_eq {read : Json → Except GrammarFault Predicate} {name : String} {m : Json}
    (kind : NodeKind) (hm : v.get? name = some m) : operand read v kind name = read m := by
  rw [operand, hm]

/-- Two operands are refused for their levels if the higher one has too many and each is refused for
too many. -/
theorem bothOperands_eq_tooDeep {left right : Predicate} {l r : Json} (kind : NodeKind)
    (hl : v.get? "left" = some l) (hr : v.get? "right" = some r) (hleft : left.Encodes l)
    (hlevels : levels < max left.height right.height)
    (ihl : levels < left.height → ofNode limit levels l = .error (.tooDeep limit))
    (ihr : levels < right.height → ofNode limit levels r = .error (.tooDeep limit)) :
    bothOperands (ofNode limit levels) v kind = .error (.tooDeep limit) := by
  unfold bothOperands
  rw [operand_eq kind hl, operand_eq kind hr]
  -- The left operand comes first; if its levels are enough, it is read.
  by_cases hfits : left.height ≤ levels
  · have hread : ofNode limit levels l = .ok left :=
      (ofNode_eq_ok_iff limit left levels l).2 ⟨hleft, hfits⟩
    have hright : ofNode limit levels r = .error (.tooDeep limit) := ihr (by omega)
    exact bind_eq_error_iff.2 (.inr ⟨left, hread, bind_eq_error_iff.2 (.inl hright)⟩)
  · exact bind_eq_error_iff.2 (.inl (ihl (Nat.not_le.1 hfits)))

/-- A value that encodes a predicate is refused for its levels, and for nothing else, when the
predicate has more levels than are left. -/
theorem ofNode_eq_tooDeep (h : p.Encodes v) (hlevels : levels < p.height) :
    ofNode limit levels v = .error (.tooDeep limit) := by
  induction p generalizing levels v with
  | const value =>
    obtain rfl : levels = 0 := Nat.lt_one_iff.1 hlevels
    rfl
  | field name =>
    obtain rfl : levels = 0 := Nat.lt_one_iff.1 hlevels
    rfl
  | arithmetic op left right ihl ihr =>
    cases levels with
    | zero => rfl
    | succ levels =>
      obtain ⟨htype, ⟨name, hname, hop⟩, ⟨l, hl, hleft⟩, r, hr, hright⟩ := h
      have hoperator : operator v .arithmetic ArithmeticOp.ofName? = .ok op :=
        (operator_eq_ok_iff .arithmetic).2 ⟨name, hname, ArithmeticOp.ofName?_eq_some_iff.2 hop⟩
      -- The type and the operator are read first, so the operands decide.
      have hboth : bothOperands (ofNode limit levels) v .arithmetic = .error (.tooDeep limit) :=
        bothOperands_eq_tooDeep .arithmetic hl hr hleft (Nat.lt_of_succ_lt_succ hlevels)
          (ihl hleft) (ihr hright)
      rw [ofNode_succ_of_type htype]
      unfold nodeOfType
      rw [if_neg (by decide), if_neg (by decide), if_pos rfl]
      exact bind_eq_error_iff.2 (.inr ⟨op, hoperator, bind_eq_error_iff.2 (.inl hboth)⟩)
  | comparison op left right ihl ihr =>
    cases levels with
    | zero => rfl
    | succ levels =>
      obtain ⟨htype, ⟨name, hname, hop⟩, ⟨l, hl, hleft⟩, r, hr, hright⟩ := h
      have hoperator : operator v .comparison ComparisonOp.ofName? = .ok op :=
        (operator_eq_ok_iff .comparison).2 ⟨name, hname, ComparisonOp.ofName?_eq_some_iff.2 hop⟩
      have hboth : bothOperands (ofNode limit levels) v .comparison = .error (.tooDeep limit) :=
        bothOperands_eq_tooDeep .comparison hl hr hleft (Nat.lt_of_succ_lt_succ hlevels)
          (ihl hleft) (ihr hright)
      rw [ofNode_succ_of_type htype]
      unfold nodeOfType
      rw [if_neg (by decide), if_neg (by decide), if_neg (by decide), if_pos rfl]
      exact bind_eq_error_iff.2 (.inr ⟨op, hoperator, bind_eq_error_iff.2 (.inl hboth)⟩)
  | logical op left right ihl ihr =>
    cases levels with
    | zero => rfl
    | succ levels =>
      obtain ⟨htype, ⟨name, hname, hop⟩, ⟨l, hl, hleft⟩, r, hr, hright⟩ := h
      have hboth : bothOperands (ofNode limit levels) v .logical = .error (.tooDeep limit) :=
        bothOperands_eq_tooDeep .logical hl hr hleft (Nat.lt_of_succ_lt_succ hlevels)
          (ihl hleft) (ihr hright)
      rw [ofNode_succ_of_type htype, nodeOfType_logical]
      refine bind_eq_error_iff.2 (.inr ⟨name, operatorName_eq_ok_iff.2 hname, ?_⟩)
      rw [if_neg hop.ne_not, LogicalOp.ofName?_eq_some_iff.2 hop]
      exact bind_eq_error_iff.2 (.inl hboth)
  | not operand ih =>
    cases levels with
    | zero => rfl
    | succ levels =>
      obtain ⟨htype, hname, hright, l, hl, hinner⟩ := h
      have hread : ofNode limit levels l = .error (.tooDeep limit) :=
        ih hinner (Nat.lt_of_succ_lt_succ hlevels)
      rw [ofNode_succ_of_type htype, nodeOfType_logical]
      refine bind_eq_error_iff.2 (.inr ⟨"not", operatorName_eq_ok_iff.2 hname, ?_⟩)
      rw [if_pos rfl, hright, if_neg (by decide), operand_eq .logical hl]
      exact bind_eq_error_iff.2 (.inl hread)

/-- A value that encodes a predicate is refused for its levels under a limit that the predicate
exceeds. -/
theorem ofJson_eq_tooDeep (h : p.Encodes v) (hdepth : limit < p.depth) :
    ofJson limit v = .error (.grammar (.tooDeep limit)) := by
  rw [depth_eq_height] at hdepth
  rw [ofJson, ofNode_eq_tooDeep h hdepth]
  rfl

end Predicate

/-! ## Replies -/

/-- A text that is read as a value stands for it. -/
theorem denotes_of_decode {text : String} {v : Json}
    (h : (Json.read text).decode .json Decoder.json = .ok v) : Denotes text v := by
  obtain ⟨value, hvalue, h⟩ := bind_eq_ok_iff.1 h
  split at h
  · cases h
  · rename_i htrailing
    cases h
    exact ⟨⟨_, hvalue⟩, Bool.eq_false_iff.2 htrailing⟩

namespace CompiledPredicate

variable {limit : Nat} {reply : String} {v : Json}

/-- A reply that stands for nothing is said to be no JSON. -/
theorem ofReply_of_not_denotes (h : ∀ v, ¬ Denotes (stripped reply) v) (limit : Nat) :
    ofReply limit reply = .error (notJsonError reply) := by
  unfold ofReply
  dsimp only
  rw [← stripped]
  split
  · rename_i value hvalue
    exact absurd (denotes_of_decode hvalue) (h value)
  · rfl

/-- A value is not said to be no JSON. -/
theorem ofJson_ne_notJson {preview : String} : ofJson limit v ≠ .error (.notJson preview) := by
  intro h
  unfold ofJson at h
  split at h
  · cases h
  split at h
  · cases h
  split at h <;> cases h

/-- A reply is said to be no JSON if what is left of it without fences is not well-formed, has
something in it that stands for nothing, or has more than `127` levels of arrays and objects, and
for no other reason; the error shows the first characters of what is left. Otherwise a predicate
under `ast` is refused for what its own text is refused for, as long as that text has at most `127`
levels, too. If it has more levels of nodes than the limit, every text of it is refused with the
message on the limit; the reply is refused with this message only up to `127` levels. -/
theorem ofReply_notJson_exactly (reply : String) (limit : Nat) :
    (∀ preview, ofReply limit reply = .error (.notJson preview) ↔
      (¬ Json.WellFormed (stripped reply) ∨ (Json.read (stripped reply)).root.isReadable = false ∨
        127 < textNesting (stripped reply)) ∧
      preview = String.ofList ((stripFences reply.toList).take previewLength)) ∧
    ∀ v ast, Denotes (stripped reply) v →
      (∀ reason, v.get? "error" = some (.string reason) → reason = "") →
      v.get? "ast" = some ast →
      (textNesting (stripped reply) ≤ 127 → ∀ text, Denotes text ast → textNesting text ≤ 127 →
        ∀ e, ofReply limit reply = .error (.invalid e) ↔
          Predicate.ofText limit text = .error e) ∧
      ∀ p : Predicate, p.Encodes ast → limit < p.depth →
        (∀ text, Denotes text ast →
          Predicate.ofText limit text = .error (.grammar (.tooDeep limit))) ∧
        (ofReply limit reply = .error (.invalid (.grammar (.tooDeep limit))) ↔
          textNesting (stripped reply) ≤ 127) := by
  refine ⟨fun preview => ?_, fun v ast h hreason hast => ⟨fun hnesting text htext hlevels e => ?_,
    fun p hp hdepth => ⟨fun text htext => ?_, ?_⟩⟩⟩
  · have herror : notJsonError reply = .notJson preview ↔
        preview = String.ofList ((stripFences reply.toList).take previewLength) := by
      rw [notJsonError, IntakeError.notJson.injEq, eq_comm]
    -- A text that stands for a value is refused for its levels or for nothing.
    by_cases hvalue : ∃ v, Denotes (stripped reply) v
    · obtain ⟨v, h⟩ := hvalue
      obtain ⟨hformed, hreadable⟩ := h.wellFormed
      rw [ofReply_eq_ite h]
      by_cases hnesting : textNesting (stripped reply) ≤ 127
      · rw [if_pos hnesting]
        refine iff_of_false ofJson_ne_notJson fun hrefused => ?_
        rcases hrefused.1 with hnot | hnot | hnot
        · exact hnot hformed
        · rw [hreadable] at hnot
          cases hnot
        · exact Nat.not_lt.2 hnesting hnot
      · rw [if_neg hnesting, Except.error.injEq, herror]
        exact (and_iff_right (.inr (.inr (Nat.not_le.1 hnesting)))).symm
    · rw [ofReply_of_not_denotes (not_exists.1 hvalue), Except.error.injEq, herror]
      refine (and_iff_right ?_).symm
      rw [exists_denotes_iff, not_and_or, Bool.not_eq_true] at hvalue
      exact hvalue.imp_right .inl
  · rw [ofReply_eq_ite h, if_pos hnesting, ofJson_of_ast hreason hast,
      Predicate.ofText_eq_ite htext, if_pos hlevels]
    cases Predicate.ofJson limit ast <;> simp
  · rw [Predicate.ofText_eq_ite htext, Predicate.ofJson_eq_tooDeep hp hdepth, ite_self]
  · rw [ofReply_eq_ite h, ofJson_of_ast hreason hast, Predicate.ofJson_eq_tooDeep hp hdepth]
    by_cases hnesting : textNesting (stripped reply) ≤ 127
    · rw [if_pos hnesting]
      exact iff_of_true rfl hnesting
    · rw [if_neg hnesting]
      exact iff_of_false (fun hsame => by cases hsame) hnesting

section
open Predicate (negations depth_negations constantsFinite_negations)

/-- A reply with a constant that is negated a number of times. -/
def negationsReply (n : Nat) : Json :=
  .object [("ast", (negations n).toJson)]

/-- The text of a negated constant has no backquote. -/
theorem not_mem_write_negations (n : Nat) {rest : List Char} (h : '\x60' ∉ rest) :
    '\x60' ∉ (negations n).toJson.write rest := by
  induction n generalizing rest with
  | zero =>
    have htext : (negations 0).toJson.write rest =
        "\x7b\"type\":\"const\",\"value\":true\x7d".toList ++ rest := rfl
    rw [htext, List.mem_append]
    exact not_or.2 ⟨by decide, h⟩
  | succ n ih =>
    have htext : (negations (n + 1)).toJson.write rest = "\x7b\"left\":".toList ++
        (negations n).toJson.write
          (",\"op\":\"not\",\"type\":\"logical\"\x7d".toList ++ rest) := rfl
    rw [htext, List.mem_append]
    refine not_or.2 ⟨by decide, ih ?_⟩
    rw [List.mem_append]
    exact not_or.2 ⟨by decide, h⟩

/-- The text of a reply with a negated constant stands for the reply, and has a level for each
negation and two more. -/
theorem denotes_negationsReply (n : Nat) :
    Denotes (stripped (negationsReply n).compact) (negationsReply n) ∧
      textNesting (stripped (negationsReply n).compact) = n + 2 := by
  have hwritable : (negationsReply n).Writable ((negations n).height + 1) := by
    have hnames : ["ast"].Pairwise (· < ·) := by decide
    refine .object (ascending_of_names hnames) (List.forall_mem_singleton.2 ?_)
    exact Predicate.writable_toJson (constantsFinite_negations n) (Nat.le_refl _)
  have hnesting : (negationsReply n).nesting = n + 2 := by
    rw [negationsReply, Json.nesting, Json.membersNesting, Json.membersNesting, Nat.max_zero,
      Predicate.nesting_toJson (constantsFinite_negations n), ← Predicate.depth_eq_height,
      depth_negations]
  have hfree : ¬ fence <:+: (negationsReply n).compact.toList := by
    have htext : (negationsReply n).compact.toList =
        "\x7b\"ast\":".toList ++ (negations n).toJson.write ['\x7d'] := String.toList_ofList
    rw [htext]
    intro hfence
    refine absurd (hfence.subset List.mem_cons_self) ?_
    rw [List.mem_append]
    exact not_or.2 ⟨by decide, not_mem_write_negations n (by decide)⟩
  obtain ⟨hdenotes, hlevels⟩ := denotes_stripped (denotes_compact hwritable) hfree
  exact ⟨hdenotes, by rw [hlevels, textNesting_compact hwritable.numbersFit, hnesting]⟩

/-- A negated constant is written for itself. -/
theorem encodes_negations (n : Nat) : (negations n).Encodes (negations n).toJson := by
  have h := Predicate.encodes_toJson (constantsFinite_negations n)
  rw [Predicate.canonical_negations] at h
  exact h

/-- Under the default limit a reply with a constant that is negated `125` times is refused for its
levels. With one negation more it is said to be no JSON. -/
theorem ofReply_notJson_exactly_negations :
    ofReply defaultLimit (negationsReply 125).compact =
      .error (.invalid (.grammar (.tooDeep defaultLimit))) ∧
    ofReply defaultLimit (negationsReply 126).compact =
      .error (.notJson (String.ofList
        ((stripFences (negationsReply 126).compact.toList).take previewLength))) := by
  obtain ⟨hwithin, hlevels⟩ := denotes_negationsReply 125
  obtain ⟨hbeyond, hmore⟩ := denotes_negationsReply 126
  have hdepth : defaultLimit < (negations 125).depth := by
    rw [depth_negations]
    decide
  have hreason : ∀ reason, (negationsReply 125).get? "error" = some (.string reason) →
      reason = "" := fun reason h => by cases h
  have hrefused := (ofReply_notJson_exactly (negationsReply 125).compact defaultLimit).2 _ _ hwithin
    hreason rfl
  constructor
  · exact (hrefused.2 _ (encodes_negations 125) hdepth).2.2 (Nat.le_of_eq hlevels)
  · refine ((ofReply_notJson_exactly _ _).1 _).2 ⟨.inr (.inr ?_), rfl⟩
    rw [hmore]
    decide

/-- A reply with a constant that is negated `126` times is well-formed, and under the default limit
the text of its predicate is refused for its levels. The reply is said to be no JSON. -/
theorem ofReply_confuses_depth :
    let reply := (negationsReply 126).compact
    let ast := (negations 126).toJson
    Json.WellFormed (stripped reply) ∧ Denotes (stripped reply) (negationsReply 126) ∧
      (negationsReply 126).get? "error" = none ∧ (negationsReply 126).get? "ast" = some ast ∧
      (negations 126).Encodes ast ∧ defaultLimit < (negations 126).depth ∧
      Predicate.ofText defaultLimit ast.compact = .error (.grammar (.tooDeep defaultLimit)) ∧
      ofReply defaultLimit reply = .error (notJsonError reply) := by
  intro reply ast
  obtain ⟨hdenotes, hnesting⟩ := denotes_negationsReply 126
  have hdepth : defaultLimit < (negations 126).depth := by
    rw [depth_negations]
    decide
  obtain ⟨htext, -⟩ := Predicate.denotes_compact_toJson (constantsFinite_negations 126)
  refine ⟨hdenotes.wellFormed.1, hdenotes, rfl, rfl, encodes_negations 126, hdepth, ?_, ?_⟩
  · rw [Predicate.ofText_eq_ite htext,
      Predicate.ofJson_eq_tooDeep (encodes_negations 126) hdepth, ite_self]
  · rw [ofReply_eq_ite hdenotes, hnesting, if_neg (by decide)]

end

end CompiledPredicate

end AuditedRules
