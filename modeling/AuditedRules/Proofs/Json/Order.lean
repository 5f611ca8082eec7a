import AuditedRules.Json.Basic
import Mathlib.Data.List.Forall2
import Mathlib.Data.List.Perm.Basic

/-!
# The order of members, and levels

A JSON value that is at hand, and not a text, keeps the members of its objects in an order of its
own. `Json.Reorders` says that a value is another one but for that order, in any of its objects.

`Json.nesting` is the number of levels of arrays and objects in a value. It is used by way of the
levels that an array or object may have: one more than what is in it (`nesting_array_le_iff`,
`nesting_object_le_iff`).
-/

namespace AuditedRules

/-- How the items of two lists are related may be replaced by what follows from it for items of
these lists. -/
theorem forall₂_of_mem {α β : Type} {r s : α → β → Prop} {front : List α} {back : List β}
    (h : List.Forall₂ r front back) (hs : ∀ a ∈ front, ∀ b ∈ back, r a b → s a b) :
    List.Forall₂ s front back := by
  obtain ⟨hlength, hzip⟩ := List.forall₂_iff_zip.1 h
  refine List.forall₂_iff_zip.2 ⟨hlength, fun {a b} hab => ?_⟩
  obtain ⟨ha, hb⟩ := List.of_mem_zip hab
  exact hs a ha b hb (hzip hab)

namespace Json

/-! ## The order of members -/

mutual

/-- The first value is the second one, but for the order of the members of its objects. -/
inductive Reorders : Json → Json → Prop
  | null : Reorders .null .null
  | bool (b : Bool) : Reorders (.bool b) (.bool b)
  | number (n : DocumentNumber) : Reorders (.number n) (.number n)
  | string (s : String) : Reorders (.string s) (.string s)
  | array {items items' : List Json} (values : List.Forall₂ Reorders items items') :
    Reorders (.array items) (.array items')
  | object {members placed members' : List (String × Json)} (perm : members.Perm placed)
      (values : List.Forall₂ MemberReorders placed members') :
    Reorders (.object members) (.object members')

/-- The members have the same name, and the first value is the second one but for the order of
members inside of it. -/
inductive MemberReorders : String × Json → String × Json → Prop
  | mk {name : String} {v v' : Json} (value : Reorders v v') : MemberReorders (name, v) (name, v')

end

/-- The order of members may be left as it is. -/
theorem Reorders.refl : ∀ v : Json, v.Reorders v
  | .null => .null
  | .bool b => .bool b
  | .number n => .number n
  | .string s => .string s
  | .array items => .array (List.forall₂_same.2 fun item _ => refl item)
  | .object members =>
    .object (.refl members) (List.forall₂_same.2 fun (name, value) _ => .mk (refl value))
termination_by v => sizeOf v
decreasing_by
  · rename_i hitem
    have hsize := List.sizeOf_lt_of_mem hitem
    simp only [Json.array.sizeOf_spec]
    omega
  · rename_i hmember
    have hsize := List.sizeOf_lt_of_mem hmember
    simp only [Prod.mk.sizeOf_spec] at hsize
    simp only [Json.object.sizeOf_spec]
    omega

/-! ## Levels -/

mutual

/-- The number of levels of arrays and objects in a value. -/
def nesting : Json → Nat
  | .array items => itemsNesting items + 1
  | .object members => membersNesting members + 1
  | .null => 0
  | .bool _ => 0
  | .number _ => 0
  | .string _ => 0

/-- The greatest number of levels in one of the items. -/
def itemsNesting : List Json → Nat
  | [] => 0
  | item :: items => max (nesting item) (itemsNesting items)

/-- The greatest number of levels in the value of one of the members. -/
def membersNesting : List (String × Json) → Nat
  | [] => 0
  | (_, value) :: members => max (nesting value) (membersNesting members)

end

/-- An array has one level more than its items. -/
theorem nesting_array_le_iff {items : List Json} {levels : Nat} :
    (array items).nesting ≤ levels + 1 ↔ ∀ item ∈ items, item.nesting ≤ levels := by
  rw [nesting, Nat.add_le_add_iff_right]
  induction items with
  | nil => simp [itemsNesting]
  | cons item items ih => rw [itemsNesting, Nat.max_le, List.forall_mem_cons, ih]

/-- An object has one level more than the values of its members. -/
theorem nesting_object_le_iff {members : List (String × Json)} {levels : Nat} :
    (object members).nesting ≤ levels + 1 ↔ ∀ m ∈ members, m.2.nesting ≤ levels := by
  rw [nesting, Nat.add_le_add_iff_right]
  induction members with
  | nil => simp [membersNesting]
  | cons m members ih => rw [membersNesting, Nat.max_le, List.forall_mem_cons, ih]

end Json

end AuditedRules
