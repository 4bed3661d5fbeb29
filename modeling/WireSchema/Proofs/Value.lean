import Mathlib.Data.List.Forall2
import Mathlib.Data.Option.Basic
import WireSchema.Proofs.Fields

/-!
# Values — Depth, equality up to order, and parts

What lies in a value is less deep than the value. Two values are the same if they differ in nothing
but the order of members of maps (`Value.Same`); all that a union or an array looks up among its
siblings is the same in the same fields. A value is a part of another that says all that it says
(`Value.PartOf`); what can be looked up in a part of some fields is the same in the fields.
-/

namespace WireSchema

namespace Value

/-! ### Depth -/

theorem depth_le_of_mem_items {v : Value} {items : List Value} (h : v ∈ items) :
    v.depth ≤ depthOfItems items := by
  induction items with
  | nil => cases h
  | cons w items ih =>
      rw [depthOfItems]
      rcases List.mem_cons.mp h with rfl | h
      · exact Nat.le_max_left _ _
      · exact Nat.le_trans (ih h) (Nat.le_max_right _ _)

theorem depth_le_of_mem_members {name : Text} {v : Value} {members : Fields}
    (h : (name, v) ∈ members) : v.depth ≤ depthOfMembers members := by
  induction members with
  | nil => cases h
  | cons head members ih =>
      obtain ⟨n, w⟩ := head
      rw [depthOfMembers]
      rcases List.mem_cons.mp h with he | h
      · cases he
        exact Nat.le_max_left _ _
      · exact Nat.le_trans (ih h) (Nat.le_max_right _ _)

/-- An item is less deep than its list. -/
theorem depth_lt_list {v : Value} {items : List Value} (h : v ∈ items) :
    v.depth < (list items).depth := by
  rw [depth]
  exact Nat.lt_succ_of_le (depth_le_of_mem_items h)

/-- A member is less deep than its map. -/
theorem depth_lt_map {name : Text} {v : Value} {members : Fields}
    (h : Fields.get? members name = some v) : v.depth < (map members).depth := by
  rw [depth]
  exact Nat.lt_succ_of_le (depth_le_of_mem_members (Fields.mem_of_get? h))

theorem depth_member_lt (members : Fields) (field : Text) :
    ((map members).member field).depth < (map members).depth := by
  rw [member, Value.members]
  cases hg : Fields.get? members field with
  | none => exact Nat.succ_pos _
  | some v => exact depth_lt_map hg

theorem depth_le_of_items {v w : Value} (h : w ∈ v.items) : w.depth ≤ v.depth := by
  cases v with
  | list items => exact Nat.le_of_lt (depth_lt_list h)
  | _ => cases h

/-- What is missing has no depth, so the first of items is as deep as they are at most. -/
theorem depth_headD_le {items : List Value} {depth : Nat} (h : ∀ v ∈ items, v.depth ≤ depth) :
    (items.headD null).depth ≤ depth := by
  cases items with
  | nil => exact Nat.zero_le _
  | cons v items => exact h v List.mem_cons_self

theorem depth_getD_le {members : Fields} {name : Text} {depth : Nat}
    (h : ∀ v, Fields.get? members name = some v → v.depth ≤ depth) :
    ((Fields.get? members name).getD null).depth ≤ depth := by
  cases hg : Fields.get? members name with
  | none => exact Nat.zero_le _
  | some v => exact h v hg

/-! ### Equality up to order -/

/-- Equality of values, mappings compared without the order of their members. -/
inductive Same : Value → Value → Prop
  | null : Same null null
  | bool (b : Bool) : Same (bool b) (bool b)
  | int (i : Int) : Same (int i) (int i)
  | float (x : Binary64) : Same (float x) (float x)
  | text (s : Text) : Same (text s) (text s)
  | list {xs ys : List Value} (h : List.Forall₂ Same xs ys) : Same (list xs) (list ys)
  | map {ms ns : Fields}
      (h : ∀ name, Option.Rel Same (Fields.get? ms name) (Fields.get? ns name)) :
      Same (map ms) (map ns)

end Value

/-- The length that a field says is the count that it holds. -/
theorem ArrayLength.resolve_dynamic_eq_ok_iff {siblings : Fields} {field : Text} {count : Nat} :
    (dynamic field).resolve siblings = .ok count ↔ siblings.count? field = some count := by
  rw [resolve]
  cases siblings.count? field <;> simp

/-- Fields that hold the same values under the same names. -/
def Fields.Same (ms ns : Fields) : Prop :=
  ∀ name, Option.Rel Value.Same (Fields.get? ms name) (Fields.get? ns name)

namespace Fields

variable {ms ns : Fields}

theorem Same.nil : Same [] [] := fun _ => .none

theorem Same.put (h : Same ms ns) (name : Text) {v w : Value} (hv : v.Same w) :
    Same (put ms name v) (put ns name w) := by
  intro other
  by_cases he : other = name
  · rw [he, get?_put_self, get?_put_self]
    exact .some hv
  · rw [get?_put_of_ne he, get?_put_of_ne he]
    exact h other

/-- A label is found alike in fields that are the same. -/
theorem Same.label?_eq (h : Same ms ns) (field : Text) : ms.label? field = ns.label? field := by
  have hf := h field
  unfold label?
  generalize get? ms field = a at hf
  generalize get? ns field = b at hf
  cases hf with
  | none => rfl
  | some hv => cases hv <;> rfl

/-- A count is found alike in fields that are the same. -/
theorem Same.count?_eq (h : Same ms ns) (field : Text) : ms.count? field = ns.count? field := by
  have hf := h field
  unfold count?
  generalize get? ms field = a at hf
  generalize get? ns field = b at hf
  cases hf with
  | none => rfl
  | some hv => cases hv <;> rfl

theorem Same.resolve_eq (h : Same ms ns) (length : ArrayLength) :
    length.resolve ms = length.resolve ns := by
  cases length with
  | static count => rfl
  | dynamic field => rw [ArrayLength.resolve, ArrayLength.resolve, h.count?_eq field]

end Fields

namespace Value

/-! ### Parts -/

/-- What the one value says, the other says too: null says nothing, a scalar itself, a map what its
members say, and a list what its items say and that there are no fewer of them. -/
inductive PartOf : Value → Value → Prop
  | null {v : Value} : PartOf null v
  | bool (b : Bool) : PartOf (bool b) (bool b)
  | int (i : Int) : PartOf (int i) (int i)
  | float (x : Binary64) : PartOf (float x) (float x)
  | text (s : Text) : PartOf (text s) (text s)
  | list {xs ys : List Value} (length : xs.length ≤ ys.length)
      (items : ∀ i, PartOf (xs.getD i null) (ys.getD i null)) : PartOf (list xs) (list ys)
  | map {ms ns : Fields}
      (members : ∀ name,
        PartOf ((Fields.get? ms name).getD null) ((Fields.get? ns name).getD null)) :
      PartOf (map ms) (map ns)

end Value

/-- What the one fields say, the others say too. -/
def Fields.PartOf (ms ns : Fields) : Prop :=
  ∀ name, ((Fields.get? ms name).getD .null).PartOf ((Fields.get? ns name).getD .null)

namespace Value

/-- A value says all that it says. -/
theorem PartOf.refl (v : Value) : v.PartOf v := by
  generalize hn : v.depth = n
  induction n using Nat.strongRecOn generalizing v with
  | _ n ih =>
      subst hn
      cases v with
      | null => exact .null
      | bool b => exact .bool b
      | int i => exact .int i
      | float x => exact .float x
      | text s => exact .text s
      | list items =>
          refine .list (Nat.le_refl _) fun i => ?_
          rw [List.getD_eq_getElem?_getD]
          cases hi : items[i]? with
          | none => exact .null
          | some v => exact ih _ (depth_lt_list (List.mem_of_getElem? hi)) v rfl
      | map members =>
          refine .map fun name => ?_
          cases hg : Fields.get? members name with
          | none => exact .null
          | some v => exact ih _ (depth_lt_map hg) v rfl

/-- A map is a part of another if each of its members is a part of what the other has for it. -/
theorem partOf_map_of_members {ms ns : Fields}
    (h : ∀ member ∈ ms, member.2.PartOf ((Fields.get? ns member.1).getD null)) :
    (map ms).PartOf (map ns) := by
  refine .map fun name => ?_
  cases hg : Fields.get? ms name with
  | none => exact .null
  | some v => exact h (name, v) (Fields.mem_of_get? hg)

theorem PartOf.trans {p q v : Value} (hpq : p.PartOf q) (hqv : q.PartOf v) : p.PartOf v := by
  induction hpq generalizing v with
  | null => exact .null
  | bool | int | float | text => exact hqv
  | list length _ ih =>
      cases hqv with
      | list length' items => exact .list (Nat.le_trans length length') fun i => ih i (items i)
  | map _ ih =>
      cases hqv with
      | map members => exact .map fun name => ih name (members name)

/-- Only null is nothing. -/
theorem eq_null_of_isNull {v : Value} (h : v.isNull = true) : v = null := by
  cases v with
  | null => rfl
  | _ => cases h

/-- There is no part of nothing but nothing. -/
theorem PartOf.eq_null {p : Value} (h : p.PartOf .null) : p = .null := by
  cases h
  rfl

/-- Parts have parts for members. -/
theorem PartOf.members_partOf {p v : Value} (h : p.PartOf v) :
    Fields.PartOf p.members v.members := by
  cases h with
  | map members => exact members
  | _ => exact fun _ => .null

/-- Parts have parts for items. -/
theorem PartOf.items_partOf {p v : Value} (h : p.PartOf v) (i : Nat) :
    (p.items.getD i .null).PartOf (v.items.getD i .null) := by
  cases h with
  | list _ items => exact items i
  | _ => exact .null

end Value

namespace Fields

variable {ms ns : Fields}

/-- A label that a part of some fields holds, the fields hold. -/
theorem PartOf.label?_eq (h : PartOf ms ns) {field label : Text}
    (hl : ms.label? field = some label) : ns.label? field = some label := by
  have hf := h field
  unfold label? at hl ⊢
  generalize get? ms field = a at hf hl
  generalize get? ns field = b at hf
  cases a with
  | none => cases hl
  | some v =>
      cases v with
      | text s =>
          cases b with
          | none => cases hf
          | some w =>
              cases hf
              exact hl
      | _ => cases hl

/-- A count that a part of some fields holds, the fields hold. -/
theorem PartOf.count?_eq (h : PartOf ms ns) {field : Text} {count : Nat}
    (hc : ms.count? field = some count) : ns.count? field = some count := by
  have hf := h field
  unfold count? at hc ⊢
  generalize get? ms field = a at hf hc
  generalize get? ns field = b at hf
  cases a with
  | none => cases hc
  | some v =>
      cases v with
      | int i =>
          cases b with
          | none => cases hf
          | some w =>
              cases hf
              exact hc
      | _ => cases hc

/-- A length that is resolved by a part of some fields is resolved alike by the fields. -/
theorem PartOf.resolve_eq (h : PartOf ms ns) {length : ArrayLength} {count : Nat}
    (hc : length.resolve ms = .ok count) : length.resolve ns = .ok count := by
  cases length with
  | static n => exact hc
  | dynamic field =>
      rw [ArrayLength.resolve_dynamic_eq_ok_iff] at hc ⊢
      exact h.count?_eq hc

end Fields

end WireSchema
