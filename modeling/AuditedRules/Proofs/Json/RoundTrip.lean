import AuditedRules.Proofs.Json.Order
import AuditedRules.Proofs.Json.WrittenTokens

/-!
# Reading the text that was written

The tokens of a value are put together into the document of the value (`readValue_tokensOnto`): the
bound of the reader exceeds twice the number of tokens, and each level of the descent takes at least
one token. So whatever is decoded from the compact text of a value is decoded from its document
(`decode_compact_of_kept`), if its numbers are read as what they are; with the nearest doubles all
numbers of documents are (`decode_compact`). Decoding that document as a JSON value goes down the
same levels, takes every scalar for itself and puts the members of an object into ascending order,
in whatever order they are (`json_of_reorders`). Those of a value that can be written have that
order already; such a value is read from its text (`decode_read_compact`).
-/

namespace AuditedRules

namespace Json

/-! ## Documents of values -/

mutual

/-- The document that says what a value is. -/
def toDocument : Json → Document
  | .null => .null
  | .bool b => .bool b
  | .number n => .number n
  | .string s => .string s
  | .array items => .sequence (itemDocuments items) true
  | .object members => .mapping (memberDocuments members) true

/-- The documents of items. -/
def itemDocuments : List Json → List Document
  | [] => []
  | item :: items => toDocument item :: itemDocuments items

/-- The documents of members, with those of their names. -/
def memberDocuments : List (String × Json) → List (Document × Document)
  | [] => []
  | (name, value) :: members => (.string name, toDocument value) :: memberDocuments members

end

/-! ## Reading -/

mutual

/-- A value has a token. -/
theorem length_lt_tokensOnto : ∀ (v : Json) (tokens : List Token),
    tokens.length < (v.tokensOnto tokens).length
  | .null, _ => Nat.lt_succ_self _
  | .bool _, _ => Nat.lt_succ_self _
  | .number _, _ => Nat.lt_succ_self _
  | .string _, _ => Nat.lt_succ_self _
  | .array [], _ => Nat.lt_add_of_pos_right (by decide : 0 < 2)
  | .array (item :: items), tokens => by
    have hitem := length_lt_tokensOnto item (itemTokens items tokens)
    have hitems := length_lt_itemTokens items tokens
    rw [tokensOnto, List.length_cons]
    omega
  | .object [], _ => Nat.lt_add_of_pos_right (by decide : 0 < 2)
  | .object ((name, value) :: members), tokens => by
    have hvalue := length_lt_tokensOnto value (memberTokens members tokens)
    have hmembers := length_lt_memberTokens members tokens
    rw [tokensOnto, List.length_cons, List.length_cons, List.length_cons]
    omega

/-- Further items have a token. -/
theorem length_lt_itemTokens : ∀ (items : List Json) (tokens : List Token),
    tokens.length < (itemTokens items tokens).length
  | [], _ => Nat.lt_succ_self _
  | item :: items, tokens => by
    have hitem := length_lt_tokensOnto item (itemTokens items tokens)
    have hitems := length_lt_itemTokens items tokens
    rw [itemTokens, List.length_cons]
    omega

/-- Further members have a token. -/
theorem length_lt_memberTokens : ∀ (members : List (String × Json)) (tokens : List Token),
    tokens.length < (memberTokens members tokens).length
  | [], _ => Nat.lt_succ_self _
  | (name, value) :: members, tokens => by
    have hvalue := length_lt_tokensOnto value (memberTokens members tokens)
    have hmembers := length_lt_memberTokens members tokens
    rw [memberTokens, List.length_cons, List.length_cons, List.length_cons]
    omega

end

/-- A value does not start with a closing bracket. -/
theorem tokensOnto_ne_closeArray (v : Json) (tokens more : List Token) :
    v.tokensOnto tokens ≠ .closeArray :: more := by
  unfold tokensOnto
  split <;> simp

/-- An array that is not closed at once is read by its items. -/
theorem readValue_openArray {bound : Nat} {tokens rest : List Token} {items : List Document}
    {closed : Bool} (h : ∀ more, tokens ≠ .closeArray :: more)
    (hitems : readItems bound tokens = (items, closed, rest)) :
    readValue (bound + 1) (.openArray :: tokens) = (.sequence items closed, rest) := by
  unfold readValue
  split <;> simp_all

/-- An object with a member is read by its members. -/
theorem readValue_openObject {bound : Nat} {name : String} {tokens rest : List Token}
    {members : List (Document × Document)} {closed : Bool}
    (hmembers : readMembers bound (.string (some name) :: tokens) = (members, closed, rest)) :
    readValue (bound + 1) (.openObject :: .string (some name) :: tokens) =
      (.mapping members closed, rest) := by
  show (Document.mapping (readMembers bound (.string (some name) :: tokens)).1
    (readMembers bound (.string (some name) :: tokens)).2.1,
    (readMembers bound (.string (some name) :: tokens)).2.2) = _
  rw [hmembers]

/-- The last item is followed by the closing bracket. -/
theorem readItems_last {bound : Nat} {tokens rest : List Token} {item : Document}
    (h : readValue bound tokens = (item, .closeArray :: rest)) :
    readItems (bound + 1) tokens = ([item], true, rest) := by
  unfold readItems
  rw [h]

/-- An item before another is followed by a comma. -/
theorem readItems_comma {bound : Nat} {tokens more rest : List Token} {item : Document}
    {items : List Document} {closed : Bool} (h : readValue bound tokens = (item, .comma :: more))
    (hmore : readItems bound more = (items, closed, rest)) :
    readItems (bound + 1) tokens = (item :: items, closed, rest) := by
  unfold readItems
  rw [h]
  dsimp only
  rw [hmore]

/-- The name of a member is read for itself. -/
theorem readValue_name (bound : Nat) (name : String) (tokens : List Token) :
    readValue (bound + 1) (.string (some name) :: tokens) = (.string name, tokens) := rfl

/-- The last member is followed by the closing brace. -/
theorem readMembers_last {bound : Nat} {name : String} {tokens rest : List Token}
    {value : Document} (h : readValue (bound + 1) tokens = (value, .closeObject :: rest)) :
    readMembers (bound + 2) (.string (some name) :: .colon :: tokens) =
      ([(.string name, value)], true, rest) := by
  unfold readMembers
  rw [readValue_name]
  dsimp only
  rw [h]

/-- A member before another is followed by a comma. -/
theorem readMembers_comma {bound : Nat} {name : String} {tokens more rest : List Token}
    {value : Document} {members : List (Document × Document)} {closed : Bool}
    (h : readValue (bound + 1) tokens = (value, .comma :: more))
    (hmore : readMembers (bound + 1) more = (members, closed, rest)) :
    readMembers (bound + 2) (.string (some name) :: .colon :: tokens) =
      ((.string name, value) :: members, closed, rest) := by
  unfold readMembers
  rw [readValue_name]
  dsimp only
  rw [h]
  dsimp only
  rw [hmore]

mutual

/-- The tokens of a value are read as its document. -/
theorem readValue_tokensOnto : ∀ (v : Json) {bound : Nat} {tokens : List Token},
    2 * (v.tokensOnto tokens).length < bound →
      readValue bound (v.tokensOnto tokens) = (v.toDocument, tokens)
  | _, 0, _, h => absurd h (Nat.not_lt_zero _)
  | .null, _ + 1, _, _ => rfl
  | .bool _, _ + 1, _, _ => rfl
  | .number _, _ + 1, _, _ => rfl
  | .string _, _ + 1, _, _ => rfl
  | .array [], _ + 1, _, _ => rfl
  | .array (item :: items), bound + 1, tokens, h => by
    rw [tokensOnto, List.length_cons] at h
    rw [tokensOnto]
    exact readValue_openArray (tokensOnto_ne_closeArray item _)
      (readItems_tokensOnto item items (by omega))
  | .object [], _ + 1, _, _ => rfl
  | .object ((name, value) :: members), bound + 1, tokens, h => by
    rw [tokensOnto, List.length_cons] at h
    rw [tokensOnto]
    exact readValue_openObject (readMembers_tokensOnto name value members (by omega))

/-- The tokens of items are read as their documents, up to the end of the array. -/
theorem readItems_tokensOnto : ∀ (item : Json) (items : List Json) {bound : Nat}
    {tokens : List Token}, 2 * (item.tokensOnto (itemTokens items tokens)).length + 1 < bound →
      readItems bound (item.tokensOnto (itemTokens items tokens)) =
        (itemDocuments (item :: items), true, tokens)
  | _, _, 0, _, h => absurd h (Nat.not_lt_zero _)
  | item, [], bound + 1, tokens, h =>
    readItems_last (readValue_tokensOnto item (by omega))
  | item, next :: items, bound + 1, tokens, h => by
    have hitem := length_lt_tokensOnto item (itemTokens (next :: items) tokens)
    have hnext : (itemTokens (next :: items) tokens).length =
        (next.tokensOnto (itemTokens items tokens)).length + 1 := by
      rw [itemTokens, List.length_cons]
    exact readItems_comma (readValue_tokensOnto item (by omega))
      (readItems_tokensOnto next items (by omega))

/-- The tokens of members are read as their documents, up to the end of the object. -/
theorem readMembers_tokensOnto : ∀ (name : String) (value : Json) (members : List (String × Json))
    {bound : Nat} {tokens : List Token},
    2 * (Token.string (some name) :: .colon ::
      value.tokensOnto (memberTokens members tokens)).length + 1 < bound →
      readMembers bound (.string (some name) :: .colon ::
        value.tokensOnto (memberTokens members tokens)) =
        (memberDocuments ((name, value) :: members), true, tokens)
  | _, _, _, 0, _, h => absurd h (Nat.not_lt_zero _)
  | _, _, _, 1, _, h => absurd h (by simp)
  | name, value, [], bound + 2, tokens, h => by
    rw [List.length_cons, List.length_cons] at h
    exact readMembers_last (readValue_tokensOnto value (by omega))
  | name, value, (next, further) :: members, bound + 2, tokens, h => by
    rw [List.length_cons, List.length_cons] at h
    have hvalue := length_lt_tokensOnto value (memberTokens ((next, further) :: members) tokens)
    have hnext : (memberTokens ((next, further) :: members) tokens).length =
        (Token.string (some next) :: .colon ::
          further.tokensOnto (memberTokens members tokens)).length + 1 := by
      rw [memberTokens, List.length_cons]
    exact readMembers_comma (readValue_tokensOnto value (by omega))
      (readMembers_tokensOnto next further members (by omega))

end

/-- The document of items has one for each of them. -/
theorem itemDocuments_eq_map (items : List Json) : itemDocuments items = items.map toDocument := by
  induction items with
  | nil => rfl
  | cons item items ih => rw [itemDocuments, ih, List.map_cons]

/-- The documents of members are those of their names and of their values. -/
theorem memberDocuments_eq_map (members : List (String × Json)) :
    memberDocuments members = members.map fun m => (.string m.1, m.2.toDocument) := by
  induction members with
  | nil => rfl
  | cons member members ih => rw [memberDocuments, ih, List.map_cons]

end Json

/-! ## Levels -/

/-- A value that can be written has no more levels than it may have. -/
theorem Json.Writable.nesting_le {levels : Nat} {v : Json} (h : v.Writable levels) :
    v.nesting ≤ levels := by
  induction h with
  | null => exact Nat.zero_le _
  | bool b => exact Nat.zero_le _
  | number fits => exact Nat.zero_le _
  | string s => exact Nat.zero_le _
  | array _ ih => exact Json.nesting_array_le_iff.2 ih
  | object _ _ ih => exact Json.nesting_object_le_iff.2 ih

/-! ## Decoding -/

namespace Decoder

variable {α : Type}

/-- Items that are each decoded are decoded as the list of what they give. -/
theorem items_eq_ok {item : Document → Except Fault α} {documents : List Document}
    {values : List α} (h : List.Forall₂ (fun document v => item document = .ok v) documents values)
    (index : Nat) : items item index documents = .ok values := by
  induction h generalizing index with
  | nil => rfl
  | cons hfirst _ ih =>
    rw [items, hfirst, ih]
    rfl

/-- Members whose values are each decoded are decoded with their names. -/
theorem members_eq_ok {format : Format} {value : Document → Except Fault α}
    {documents : List (Document × Document)} {entries : List (String × α)}
    (h : List.Forall₂ (fun d m => d.1 = .string m.1 ∧ value d.2 = .ok m.2) documents entries) :
    members format value documents = .ok entries := by
  induction h with
  | nil => rfl
  | @cons d m documents entries hfirst _ ih =>
    obtain ⟨key, document⟩ := d
    obtain ⟨rfl, hvalue⟩ := hfirst
    have hname : memberName format "a string key" (.string m.1) = .ok m.1 := rfl
    rw [members, hname, hvalue, ih]
    rfl

/-- A leaf is decoded as the scalar that it is, on any number of levels. -/
theorem json_of_scalar? (format : Format) (levels : Nat) {document : Document} {value : Scalar}
    (h : document.scalar? = some value) : json format levels document = scalarJson value := by
  have hleaf : leafJson document = scalarJson value := by rw [leafJson, h]
  rw [← hleaf]
  cases document with
  | sequence items closed => cases h
  | mapping members closed => cases h
  | _ => cases levels <;> rfl

/-- A JSON value that can be written is decoded with its members in ascending order, whatever their
order in the document is. -/
theorem json_of_reorders {levels : Nat} {v written : Json} (h : written.Writable levels)
    (hv : v.Reorders written) : json .json levels v.toDocument = .ok written := by
  -- The induction is on what was written; only its objects leave a choice for the value read.
  induction h generalizing v with
  | null =>
    cases hv
    exact json_of_scalar? .json _ (show Document.null.scalar? = some .null from rfl)
  | bool b =>
    cases hv
    exact json_of_scalar? .json _ (show (Document.bool b).scalar? = some (.bool b) from rfl)
  | string s =>
    cases hv
    exact json_of_scalar? .json _ (show (Document.string s).scalar? = some (.string s) from rfl)
  | @number levels n fits =>
    cases hv
    cases n with
    | int i =>
      have hscalar : (Document.number (.int i)).scalar? = some (.integer i) := rfl
      exact json_of_scalar? .json _ hscalar
    | float x =>
      have hscalar : (Document.number (.float x)).scalar? = some (.float x) := rfl
      have hfinite : x.isFinite = true := fits
      refine (json_of_scalar? .json _ hscalar).trans ?_
      rw [scalarJson, if_pos hfinite]
  | @array levels items _ ih =>
    cases hv with
    | @array placed _ hitems =>
      have hread : List.Forall₂ (fun d item => json .json levels d = .ok item)
          (placed.map Json.toDocument) items :=
        List.forall₂_map_left_iff.2 (forall₂_of_mem hitems fun _ _ item hmem => ih item hmem)
      rw [Json.toDocument, Json.itemDocuments_eq_map, json, items_eq_ok hread]
      rfl
  | @object levels members ascending _ ih =>
    cases hv with
    | @object listed placed _ hperm hvalues =>
      -- The members are decoded where they are, which leaves those of the value in another order.
      obtain ⟨decoded, hdecoded, hmembers⟩ := List.perm_comp_forall₂ hperm hvalues
      have hread : List.Forall₂ (fun (d : Document × Document) (m : String × Json) =>
          d.1 = .string m.1 ∧ json .json levels d.2 = .ok m.2)
          (listed.map fun m => (.string m.1, m.2.toDocument)) decoded := by
        refine List.forall₂_map_left_iff.2 (forall₂_of_mem hdecoded fun _ _ m hmem hm => ?_)
        cases hm with
        | mk hvalue => exact ⟨rfl, ih _ (hmembers.mem_iff.1 hmem) hvalue⟩
      rw [Json.toDocument, Json.memberDocuments_eq_map, json, members_eq_ok hread]
      exact congrArg Except.ok (Json.ofMembers_of_perm hmembers ascending)

/-- The document of a value that can be written is decoded as the value. -/
theorem json_toDocument {levels : Nat} {v : Json} (h : v.Writable levels) :
    json .json levels v.toDocument = .ok v :=
  json_of_reorders h (.refl v)

end Decoder

/-- The compact text of a value whose numbers are kept is read as the document of the value. -/
theorem Json.read_compact_of_kept {reading : NumberReading} {v : Json}
    (h : v.NumbersKept reading) : Json.read v.compact reading = ⟨v.toDocument, false⟩ := by
  have htokens : tokens v.compact.toList reading = v.tokensOnto [] := by
    unfold tokens compact
    rw [String.toList_ofList]
    exact lexed_write h endsNumber_nil .nil _ (Nat.lt_succ_self _)
  unfold read
  rw [htokens]
  dsimp only
  rw [readValue_tokensOnto v (by omega)]
  rfl

/-- The compact text of a value whose numbers are kept is decoded like the document of the value. -/
theorem Json.decode_compact_of_kept {α : Type} (decoder : Decoder α) {reading : NumberReading}
    {v : Json} (h : v.NumbersKept reading) :
    (Json.read v.compact reading).decode .json decoder =
      decoder .json Format.json.levels v.toDocument := by
  unfold Reading.decode
  rw [read_compact_of_kept h]
  cases decoder .json Format.json.levels v.toDocument <;> rfl

/-- With the nearest doubles the compact text of a value whose numbers fit is read as the document
of the value. -/
theorem Json.read_compact {v : Json} (h : v.NumbersFit) :
    Json.read v.compact = ⟨v.toDocument, false⟩ :=
  read_compact_of_kept h.numbersKept

/-- With the nearest doubles the compact text of a value whose numbers fit is decoded like the
document of the value. -/
theorem Json.decode_compact {α : Type} (decoder : Decoder α) {v : Json} (h : v.NumbersFit) :
    (Json.read v.compact).decode .json decoder =
      decoder .json Format.json.levels v.toDocument :=
  decode_compact_of_kept decoder h.numbersKept

/-- The compact text of a value that can be written is read as the value. -/
theorem Json.decode_read_compact {v : Json} (h : v.Writable Format.json.levels) :
    (Json.read v.compact).decode .json Decoder.json = .ok v := by
  rw [decode_compact Decoder.json h.numbersFit, Decoder.json_toDocument h]

end AuditedRules
