/-!
# Texts in the order of their bytes

Texts are compared by their characters. Their UTF-8 bytes are in the same order
(`bytes_lt_bytes_iff`), because the encoding was made so: of two different characters the greater
one has the greater byte where their encodings first differ, and neither encoding is the start of
the other, so that what follows does not matter (`utf8EncodeChar_lt`).
-/

namespace AuditedRules.Text

/-- The bytes of a text. -/
def bytes (s : String) : List UInt8 :=
  s.toUTF8.data.toList

/-- The bytes of a text are those of its characters. -/
theorem bytes_eq (s : String) : bytes s = s.toList.flatMap String.utf8EncodeChar := by
  have hencoded := String.toByteArray_ofList (l := s.toList)
  rw [String.ofList_toList] at hencoded
  show s.toByteArray.data.toList = _
  rw [hencoded]
  simp [List.utf8Encode]

/-- Lists of bytes are compared by the numbers of their first bytes. -/
theorem cons_lt_cons_ofNat_iff {x y : Nat} (hx : x < 256) (hy : y < 256) {l m : List UInt8} :
    UInt8.ofNat x :: l < UInt8.ofNat y :: m ↔ x < y ∨ x = y ∧ l < m := by
  rw [List.cons_lt_cons_iff, UInt8.lt_iff_toNat_lt, ← UInt8.toNat_inj,
    UInt8.toNat_ofNat_of_lt' hx, UInt8.toNat_ofNat_of_lt' hy]

/-- The bytes of a lesser character come before those of a greater one, whatever follows them. -/
theorem utf8EncodeChar_lt {c d : Char} (h : c < d) (s t : List UInt8) :
    String.utf8EncodeChar c ++ s < String.utf8EncodeChar d ++ t := by
  have hlt : c.val.toNat < d.val.toNat := h
  have hbound : d.val.toNat < 0x110000 := by
    have hvalid := d.valid
    rcases hvalid with hlow | hhigh <;> omega
  unfold String.utf8EncodeChar
  dsimp only
  generalize c.val.toNat = m at *
  generalize d.val.toNat = n at *
  -- Each byte carries six places more than the one before it, so the places are taken in sixes.
  have hplaces : ∀ k, k / 4096 = k / 64 / 64 ∧ k / 262144 = k / 64 / 64 / 64 := by omega
  have hm := hplaces m
  have hn := hplaces n
  rw [hm.1, hm.2, hn.1, hn.2]
  clear hplaces hm hn
  repeat' split
  all_goals
    simp (disch := omega) only [List.cons_append, List.nil_append, cons_lt_cons_ofNat_iff]
    omega

/-- What two lists start with in common does not matter for their order. -/
theorem append_lt_append_iff (front : List UInt8) {s t : List UInt8} :
    front ++ s < front ++ t ↔ s < t := by
  induction front with
  | nil => rfl
  | cons x front ih =>
    rw [List.cons_append, List.cons_append, List.cons_lt_cons_iff, ih]
    simp

/-- The bytes of a lesser list of characters come before those of a greater one. -/
theorem flatMap_utf8EncodeChar_lt {s t : List Char} (h : s < t) :
    s.flatMap String.utf8EncodeChar < t.flatMap String.utf8EncodeChar := by
  induction s generalizing t with
  | nil =>
    cases t with
    | nil => exact absurd h (List.not_lt_nil _)
    | cons d t =>
      rw [List.flatMap_nil, List.flatMap_cons]
      cases hd : String.utf8EncodeChar d with
      | nil => exact absurd hd String.utf8EncodeChar_ne_nil
      | cons x front => exact List.nil_lt_cons x _
  | cons c s ih =>
    cases t with
    | nil => exact absurd h (List.not_lt_nil _)
    | cons d t =>
      rw [List.flatMap_cons, List.flatMap_cons]
      rcases List.cons_lt_cons_iff.1 h with hlt | ⟨rfl, hlt⟩
      · exact utf8EncodeChar_lt hlt _ _
      · exact (append_lt_append_iff _).2 (ih hlt)

/-- Texts are in the order of their bytes. -/
theorem bytes_lt_bytes_iff {s t : String} : bytes s < bytes t ↔ s < t := by
  rw [bytes_eq, bytes_eq, String.lt_iff]
  constructor
  · intro h
    -- In the other two cases the bytes would be equal, or the other way round.
    rcases Std.lt_trichotomy s.toList t.toList with hlt | heq | hgt
    · exact hlt
    · rw [heq] at h
      exact absurd h (List.lt_irrefl _)
    · exact absurd (flatMap_utf8EncodeChar_lt hgt) (List.lt_asymm h)
  · exact flatMap_utf8EncodeChar_lt

end AuditedRules.Text
