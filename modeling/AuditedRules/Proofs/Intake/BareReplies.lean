import AuditedRules.Proofs.Intake.DroppedFences

/-!
# Bare replies

A reply that is JSON text already, without anything around it, is cleaned like every other. Without
a fence in it nothing but white space around the text is taken off, and the reply gives what its
value gives. A fence between the quotes of a string is dropped all the same, with the letters and
the line break behind it. The text that is left is JSON text of the same structure, so the reply is
still read, and it gives what the value with shorter strings gives: another predicate, and no error
says so (`ofReply_loses_fence`).
-/

namespace AuditedRules

section
variable {reply : String} {v : Json}

/-- What is left of a reply, which is read as JSON. -/
def stripped (reply : String) : String :=
  String.ofList (stripFences reply.toList)

/-- A reply without a fence is stripped to a text that stands for the same value and has as many
levels. -/
theorem denotes_stripped (h : Denotes reply v) (hfree : ¬ fence <:+: reply.toList) :
    Denotes (stripped reply) v ∧ textNesting (stripped reply) = textNesting reply := by
  obtain ⟨written, hwritten⟩ := h.exists_writes
  have htrim : Json.Writes (stripped reply).toList written := by
    rw [stripped, String.toList_ofList, stripFences_eq_trim_iff.2 hfree]
    exact Json.Cut.trim hwritten
  have hread : Json.read (stripped reply) = Json.read reply := by
    rw [htrim.read, hwritten.read]
  constructor
  · unfold Denotes
    rw [hread]
    exact h
  · rw [textNesting, hread, textNesting]

end

namespace CompiledPredicate

variable {limit : Nat} {reply : String} {v : Json}

/-- The error of a reply that is not read, with the first characters of what is left of it. -/
def notJsonError (reply : String) : IntakeError :=
  .notJson (String.ofList ((stripFences reply.toList).take previewLength))

/-- Up to `127` levels of what is left of a reply the value that it stands for is used. -/
theorem ofReply_eq_ite (h : Denotes (stripped reply) v) (limit : Nat) :
    ofReply limit reply = if textNesting (stripped reply) ≤ 127 then ofJson limit v
      else .error (notJsonError reply) := by
  unfold ofReply
  dsimp only
  rw [← stripped, h.decode]
  by_cases hlevels : textNesting (stripped reply) ≤ 127
  · rw [if_pos hlevels, if_pos hlevels]
  · rw [if_neg hlevels, if_neg hlevels, notJsonError]

section
variable {ast : Json} (hreason : ∀ reason, v.get? "error" = some (.string reason) → reason = "")
  (hast : v.get? "ast" = some ast)
include hreason hast

/-- Without a reason against it, a reply with a member `ast` is read as this member is. -/
theorem ofJson_of_ast (limit : Nat) :
    ofJson limit v = match Predicate.ofJson limit ast with
      | .error e => .error (.invalid e)
      | .ok p => .ok ⟨p, ((v.get? "summary").bind Json.string?).getD ""⟩ := by
  have hnone : refusal? v = none := by
    unfold refusal?
    cases herror : v.get? "error" with
    | none => rfl
    | some value =>
      cases value with
      | string reason =>
        rw [hreason reason herror]
        rfl
      | _ => rfl
  cases hread : Predicate.ofJson limit ast with
  | error e => simp only [ofJson, hnone, hast, hread]
  | ok p => simp only [ofJson, hnone, hast, hread]

/-- If a predicate is read from the member, the reply gives it with its own summary. -/
theorem ofJson_eq_ok {p : Predicate} (hread : Predicate.ofJson limit ast = .ok p) :
    ∃ summary, ofJson limit v = .ok ⟨p, summary⟩ ∧
      (∀ s, v.get? "summary" = some (.string s) → summary = s) ∧
      ((∀ s, v.get? "summary" ≠ some (.string s)) → summary = "") := by
  refine ⟨((v.get? "summary").bind Json.string?).getD "", ?_, fun s hs => ?_, fun hother => ?_⟩
  · rw [ofJson_of_ast hreason hast, hread]
  · rw [hs]
    rfl
  · cases hsummary : v.get? "summary" with
    | none => rfl
    | some value =>
      cases value with
      | string s => exact absurd hsummary (hother s)
      | _ => rfl

end

/-- A reply that is JSON text itself is only trimmed if and only if it has no fence. Then it gives
what its value gives: without a reason against it, the predicate that is read from the member `ast`,
with the reply's own summary or an empty one. In every case it is read as the value that is written
in it, with fences lost from names and strings. -/
theorem ofReply_bare (h : Denotes reply v) (hnesting : textNesting reply ≤ 127) (limit : Nat) :
    (stripFences reply.toList = Text.trim reply.toList ↔ ¬ fence <:+: reply.toList) ∧
    (¬ fence <:+: reply.toList →
      ofReply limit reply = ofJson limit v ∧
      ∀ ast p, (∀ reason, v.get? "error" = some (.string reason) → reason = "") →
        v.get? "ast" = some ast → Predicate.ofJson limit ast = .ok p →
          ∃ summary, ofReply limit reply = .ok ⟨p, summary⟩ ∧
            (∀ s, v.get? "summary" = some (.string s) → summary = s) ∧
            ((∀ s, v.get? "summary" ≠ some (.string s)) → summary = "")) ∧
    ∃ written kept used : Json,
      Json.read reply = ⟨written.toDocument, false⟩ ∧ written.LosesFences kept ∧
      Json.read (stripped reply) = ⟨kept.toDocument, false⟩ ∧
      Denotes (stripped reply) used ∧ ofReply limit reply = ofJson limit used := by
  obtain ⟨written, hwritten⟩ := h.exists_writes
  refine ⟨stripFences_eq_trim_iff, fun hfree => ?_, ?_⟩
  · -- What is left stands for the same value.
    obtain ⟨hleft, hlevels⟩ := denotes_stripped h hfree
    have hsame : ofReply limit reply = ofJson limit v := by
      rw [ofReply_eq_ite hleft, hlevels, if_pos hnesting]
    refine ⟨hsame, fun ast p hreason hast hp => ?_⟩
    rw [hsame]
    exact ofJson_eq_ok hreason hast hp
  · obtain ⟨kept, hloses, hkept⟩ := hwritten.exists_stripFences
    have hleft : Json.Writes (stripped reply).toList kept := by
      rw [stripped, String.toList_ofList]
      exact hkept
    obtain ⟨used, hused⟩ := hleft.exists_denotes
    -- The levels of what is left are those of a value with no more levels than the reply.
    have hlevels : textNesting (stripped reply) ≤ 127 := by
      rw [textNesting, hwritten.read, Json.nesting_toDocument] at hnesting
      rw [textNesting, hleft.read, Json.nesting_toDocument]
      exact hloses.nesting_le hnesting
    refine ⟨written, kept, used, hwritten.read, hloses, hleft.read, hused, ?_⟩
    rw [ofReply_eq_ite hused, if_pos hlevels]

/-- A reply with the text of a constant. -/
def constantReply (text : String) : Json :=
  .object [("ast", .object [("type", .string "const"), ("value", .string text)])]

/-- The reply with a text as its constant can be written, on two levels. -/
theorem writable_constantReply (text : String) : (constantReply text).Writable 2 := by
  have hreply : ["ast"].Pairwise (· < ·) := by decide
  have hnode : ["type", "value"].Pairwise (· < ·) := by decide
  refine .object (ascending_of_names hreply) (List.forall_mem_singleton.2 ?_)
  refine .object (ascending_of_names hnode) (List.forall_mem_cons.2 ⟨.string _, ?_⟩)
  exact List.forall_mem_singleton.2 (.string _)

/-- The text of the reply with a text as its constant stands for the reply, on few enough levels. -/
theorem denotes_constantReply (text : String) :
    Denotes (constantReply text).compact (constantReply text) ∧
      textNesting (constantReply text).compact ≤ 127 := by
  refine ⟨denotes_compact (writable_constantReply text), ?_⟩
  rw [textNesting_compact (writable_constantReply text).numbersFit]
  exact Nat.le_trans (writable_constantReply text).nesting_le (by decide)

/-- A reply with two backquotes in a row, and no third one, gives its constant. -/
theorem ofReply_bare_quoted :
    let reply := (constantReply "\x60\x60a\x60\x60").compact
    ¬ fence <:+: reply.toList ∧
      ofReply 1 reply = .ok ⟨.const (.string "\x60\x60a\x60\x60"), ""⟩ := by
  intro reply
  obtain ⟨hdenotes, hnesting⟩ := denotes_constantReply "\x60\x60a\x60\x60"
  obtain ⟨-, hread, -⟩ := ofReply_bare hdenotes hnesting 1
  have hfree : ¬ fence <:+: reply.toList := by
    have htext : reply.toList = (constantReply "\x60\x60a\x60\x60").write [] :=
      String.toList_ofList
    rw [htext]
    decide
  have hreason : ∀ reason, (constantReply "\x60\x60a\x60\x60").get? "error" =
      some (.string reason) → reason = "" := fun reason hreason => by cases hreason
  obtain ⟨summary, hok, -, hnone⟩ := (hread hfree).2 _ _ hreason rfl rfl
  have hsummary : summary = "" := hnone fun s hs => by cases hs
  rw [hsummary] at hok
  exact ⟨hfree, hok⟩

/-- A reply with a constant of three backquotes between two letters gives the first letter alone.
The reply is JSON text on two levels without a reason against it, and from its member `ast` the
whole constant is read. -/
theorem ofReply_loses_fence :
    let v := constantReply "a\x60\x60\x60b"
    let ast : Json := .object [("type", .string "const"), ("value", .string "a\x60\x60\x60b")]
    (Denotes v.compact v ∧ textNesting v.compact ≤ 127) ∧
      v.get? "error" = none ∧ v.get? "ast" = some ast ∧
      Predicate.ofJson 64 ast = .ok (.const (.string "a\x60\x60\x60b")) ∧
      ofReply 64 v.compact = .ok ⟨.const (.string "a"), ""⟩ := by
  intro v ast
  have hstripped : stripped v.compact = (constantReply "a").compact := by
    have htext : v.compact.toList = v.write [] := String.toList_ofList
    rw [stripped, htext]
    exact congrArg String.ofList (by decide)
  obtain ⟨hdenotes, hnesting⟩ := denotes_constantReply "a"
  refine ⟨denotes_constantReply _, rfl, rfl, rfl, ?_⟩
  rw [ofReply_eq_ite (v := constantReply "a") (by rw [hstripped]; exact hdenotes), hstripped,
    if_pos hnesting]
  rfl

end CompiledPredicate

end AuditedRules
