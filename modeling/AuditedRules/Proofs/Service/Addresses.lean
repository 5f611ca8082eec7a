import AuditedRules.Proofs.Json.WrittenTokens
import AuditedRules.Proofs.Text.Bytes
import AuditedRules.Service.Route

/-!
# The addresses of rules

Every rule with an identifier can be asked for. Its identifier is written with a percent sign and
two digits for each byte (`encodeId`), which is read as the identifier again (`decodeId_encodeId`)
and has none of the characters that divide an address. So the path made with it is that of the rule
(`ofPath?_rule`, `ofPath?_evaluateRule`). There are other ways to write an identifier; this one does
for all of them.
-/

namespace AuditedRules.Route

/-! ## Identifiers -/

/-- A byte as a percent sign and two digits. -/
def encodeByte (b : UInt8) : List Char :=
  ['%', Json.hexDigit (b.toNat / 16), Json.hexDigit (b.toNat % 16)]

/-- An identifier with all of its bytes written as numbers. -/
def encodeId (id : String) : List Char :=
  (Text.bytes id).flatMap encodeByte

/-- Bytes that are written as numbers are read again. -/
theorem decodedBytes_flatMap_encodeByte (bytes : List UInt8) :
    decodedBytes (bytes.flatMap encodeByte) = bytes := by
  induction bytes with
  | nil => rfl
  | cons b bytes ih =>
    have hhigh : b.toNat / 16 < 16 := by
      have hb := b.toNat_lt
      omega
    have hlow : b.toNat % 16 < 16 := Nat.mod_lt _ (by decide)
    have hb : UInt8.ofNat (16 * (b.toNat / 16) + b.toNat % 16) = b := by
      rw [Nat.div_add_mod, UInt8.ofNat_toNat]
    rw [List.flatMap_cons, encodeByte, List.cons_append, List.cons_append, List.cons_append,
      List.nil_append, decodedBytes, Json.hexValue?_hexDigit _ hhigh,
      Json.hexValue?_hexDigit _ hlow]
    dsimp only
    rw [hb, ih]

/-- An identifier is read again. -/
theorem decodeId_encodeId (id : String) : decodeId (encodeId id) = some id := by
  have hbytes : (⟨(Text.bytes id).toArray⟩ : ByteArray) = id.toByteArray := rfl
  rw [decodeId, encodeId, decodedBytes_flatMap_encodeByte, hbytes]
  exact dif_pos id.isValidUTF8

/-- An identifier that is not empty is written as a text that is not empty. -/
theorem encodeId_ne_nil {id : String} (h : id ≠ "") : encodeId id ≠ [] := by
  intro hnil
  have hread := decodeId_encodeId id
  rw [hnil] at hread
  have hempty : decodeId [] = some "" := by
    have hnone : (⟨#[]⟩ : ByteArray) = "".toByteArray := rfl
    rw [decodeId, decodedBytes, List.toArray, hnone]
    exact dif_pos "".isValidUTF8
  rw [hempty] at hread
  exact h (Option.some.inj hread).symm

/-- The characters of a written identifier are percent signs and digits. -/
theorem mem_encodeId {id : String} {c : Char} (h : c ∈ encodeId id) :
    c = '%' ∨ ∃ n < 16, c = Json.hexDigit n := by
  obtain ⟨b, -, hc⟩ := List.mem_flatMap.1 h
  have hb := b.toNat_lt
  simp only [encodeByte, List.mem_cons, List.not_mem_nil, or_false] at hc
  rcases hc with rfl | rfl | rfl
  · exact .inl rfl
  · exact .inr ⟨_, by omega, rfl⟩
  · exact .inr ⟨_, Nat.mod_lt _ (by decide), rfl⟩

/-- A written identifier has no character that divides an address. -/
theorem encodeId_dividers {id : String} {c : Char} (h : c ∈ encodeId id) :
    c ≠ '/' ∧ c ≠ '?' ∧ c ≠ '#' := by
  have hdigits : ∀ n < 16, Json.hexDigit n ≠ '/' ∧ Json.hexDigit n ≠ '?' ∧
      Json.hexDigit n ≠ '#' := by decide
  rcases mem_encodeId h with rfl | ⟨n, hn, rfl⟩
  · decide
  · exact hdigits n hn

/-! ## Paths -/

/-- What was put in front of a text is taken off. -/
theorem after?_append (start rest : List Char) : after? start (start ++ rest) = some rest := by
  induction start with
  | nil => rfl
  | cons c start ih => rw [List.cons_append, after?, if_pos (beq_self_eq_true c), ih]

/-- A path below that of the rules is none of those without a part that varies. -/
theorem find?_fixed_append (rest : List Char) :
    fixed.find? (fun entry => entry.1.toList == "/api/rules/".toList ++ rest) = none := by
  have hstarts : ∀ entry ∈ fixed, after? "/api/rules/".toList entry.1.toList = none := by decide
  refine List.find?_eq_none.2 fun entry hentry heq => ?_
  have hpath : entry.1.toList = "/api/rules/".toList ++ rest := eq_of_beq heq
  have hnone := hstarts entry hentry
  rw [hpath, after?_append] at hnone
  cases hnone

/-- A segment ends with the text or at a slash. -/
theorem takeSegment_encodeId (id : String) {rest : List Char}
    (hrest : ∀ c, rest.head? = some c → c = '/') :
    takeSegment (encodeId id ++ rest) = (encodeId id, rest) := by
  have hsegment : ∀ c ∈ encodeId id, (c != '/') = true := fun c hc =>
    bne_iff_ne.2 (encodeId_dividers hc).1
  have hends : rest.takeWhile (· != '/') = [] ∧ rest.dropWhile (· != '/') = rest := by
    cases rest with
    | nil => exact ⟨rfl, rfl⟩
    | cons c rest =>
      obtain rfl := hrest c rfl
      exact ⟨rfl, rfl⟩
  unfold takeSegment
  rw [List.takeWhile_append_of_pos hsegment, List.dropWhile_append_of_pos hsegment, hends.1,
    hends.2, List.append_nil]

/-- The path of a rule, with what follows the identifier. -/
def rulePath (id : String) (rest : List Char) : List Char :=
  "/api/rules/".toList ++ (encodeId id ++ rest)

/-- The path of a rule is understood by what follows the identifier. -/
theorem ofPath?_rulePath {id : String} (h : id ≠ "") {rest : List Char}
    (hrest : ∀ c, rest.head? = some c → c = '/') :
    ofPath? (rulePath id rest) =
      if rest.isEmpty then some (.rule (encodeId id))
      else if rest == "/evaluate".toList then some (.evaluateRule (encodeId id))
      else none := by
  have hsegment : (encodeId id).isEmpty = false := List.isEmpty_eq_false_iff.2 (encodeId_ne_nil h)
  unfold ofPath? rulePath
  rw [find?_fixed_append, after?_append]
  dsimp only
  rw [takeSegment_encodeId id hrest]
  dsimp only
  rw [hsegment, if_neg Bool.false_ne_true]

/-- The path of a rule is understood as that. -/
theorem ofPath?_rule {id : String} (h : id ≠ "") :
    ofPath? (rulePath id []) = some (.rule (encodeId id)) :=
  ofPath?_rulePath h fun _ hc => nomatch hc

/-- The path for evaluating a rule is understood as that. -/
theorem ofPath?_evaluateRule {id : String} (h : id ≠ "") :
    ofPath? (rulePath id "/evaluate".toList) = some (.evaluateRule (encodeId id)) :=
  ofPath?_rulePath h fun _ hc => (Option.some.inj hc).symm

/-- An address without query and fragment is a path. -/
theorem pathOf_rulePath (id : String) {rest : List Char}
    (h : rest.all (fun c => c != '?' && c != '#') = true) :
    pathOf (rulePath id rest) = rulePath id rest := by
  have hstart : "/api/rules/".toList.all (fun c => c != '?' && c != '#') = true := by decide
  have hid : (encodeId id).all (fun c => c != '?' && c != '#') = true := by
    refine List.all_eq_true.2 fun c hc => ?_
    obtain ⟨-, hquery, hfragment⟩ := encodeId_dividers hc
    rw [bne_iff_ne.2 hquery, bne_iff_ne.2 hfragment]
    rfl
  have hall : (rulePath id rest).all (fun c => c != '?' && c != '#') = true := by
    unfold rulePath
    rw [List.all_append, List.all_append, hstart, hid, h, Bool.and_self, Bool.and_self]
  have htaken : (rulePath id rest ++ []).takeWhile (fun c => c != '?' && c != '#') =
      rulePath id rest ++ [].takeWhile _ :=
    List.takeWhile_append_of_pos (List.all_eq_true.1 hall)
  rwa [List.append_nil, List.takeWhile_nil, List.append_nil] at htaken

end AuditedRules.Route
