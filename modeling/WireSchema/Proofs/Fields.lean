import WireSchema.Codec.Siblings
import WireSchema.Schema.FieldType

/-!
# Fields — Look-ups

What `Fields.get?` finds after `Fields.put`, and the principle by which a statement about field
types is proved: case by case, with the statement at hand for the types inside.
-/

namespace WireSchema

namespace Fields

variable {α : Type} {fields : List (Text × α)} {name other : Text} {a b : α}

@[simp] theorem get?_nil : get? ([] : List (Text × α)) name = none := rfl

theorem get?_cons : get? ((other, b) :: fields) name =
    if name = other then some b else get? fields name := by
  unfold get?
  rw [List.lookup_cons]
  by_cases h : name = other
  · rw [if_pos h, h, beq_self_eq_true]
  · rw [if_neg h, beq_false_of_ne h]

/-- A field is found where it was put. -/
@[simp] theorem get?_put_self : get? (put fields name a) name = some a := by
  induction fields with
  | nil => simp [put, get?_cons]
  | cons head rest ih =>
      obtain ⟨n, c⟩ := head
      by_cases h : n = name
      · simp [put, get?_cons, h]
      · rw [put, if_neg h, get?_cons, if_neg fun e => h e.symm, ih]

/-- Putting a field leaves the others as they are. -/
theorem get?_put_of_ne (h : other ≠ name) : get? (put fields name a) other = get? fields other := by
  induction fields with
  | nil => simp [put, get?_cons, h]
  | cons head rest ih =>
      obtain ⟨n, c⟩ := head
      by_cases hn : n = name
      · rw [put, if_pos hn, get?_cons, get?_cons, if_neg fun e => h (e.trans hn),
          if_neg fun e => h (e.trans hn)]
      · rw [put, if_neg hn, get?_cons, get?_cons, ih]

/-- Once a field is put, what is found is that field, or what was found before. -/
theorem get?_put_cases (h : get? (put fields name a) other = some b) :
    (other = name ∧ a = b) ∨ (other ≠ name ∧ get? fields other = some b) := by
  by_cases he : other = name
  · rw [he, get?_put_self] at h
    exact .inl ⟨he, Option.some.inj h⟩
  · rw [get?_put_of_ne he] at h
    exact .inr ⟨he, h⟩

/-- A new name is put at the end. -/
theorem put_of_notMem (h : name ∉ fields.map (·.1)) :
    put fields name a = fields ++ [(name, a)] := by
  induction fields with
  | nil => rfl
  | cons head rest ih =>
      obtain ⟨n, c⟩ := head
      rw [List.map_cons, List.mem_cons, not_or] at h
      rw [put, if_neg (Ne.symm h.1), ih h.2, List.cons_append]

/-- A field that is found is one of the list. -/
theorem mem_of_get? (h : get? fields name = some a) : (name, a) ∈ fields := by
  induction fields with
  | nil => cases h
  | cons head rest ih =>
      obtain ⟨n, c⟩ := head
      rw [get?_cons] at h
      split at h
      · next e => cases h; exact e ▸ List.mem_cons_self
      · exact List.mem_cons_of_mem _ (ih h)

/-- A field is missing exactly if no field has its name. -/
theorem get?_eq_none_iff : get? fields name = none ↔ name ∉ fields.map (·.1) := by
  induction fields with
  | nil => simp
  | cons head rest ih =>
      obtain ⟨n, c⟩ := head
      rw [get?_cons, List.map_cons, List.mem_cons, not_or]
      by_cases h : name = n
      · simp [h]
      · simp [h, ih]

theorem isSome_get?_iff : (get? fields name).isSome ↔ name ∈ fields.map (·.1) := by
  rw [Option.isSome_iff_ne_none, ne_eq, get?_eq_none_iff, Decidable.not_not]

/-- Going through fields to the first of a name looks the name up. -/
theorem first_eq {β : Type} {f : List (Text × α) → β} {absent : β} {one : α → β}
    (hnil : f [] = absent)
    (hcons : ∀ other a rest, f ((other, a) :: rest) = if other = name then one a else f rest)
    (fields : List (Text × α)) : f fields = ((get? fields name).map one).getD absent := by
  induction fields with
  | nil => exact hnil
  | cons head rest ih =>
      obtain ⟨n, a⟩ := head
      rw [hcons, get?_cons]
      by_cases h : n = name
      · rw [if_pos h, if_pos h.symm, Option.map_some, Option.getD_some]
      · rw [if_neg h, if_neg (Ne.symm h), ih]

end Fields

namespace FieldType

/-- A statement about all field types, case by case: of an array by the type of its elements, of a
union by the types of its cases. -/
@[induction_eliminator]
theorem induct {motive : FieldType → Prop}
    (int : ∀ signed width default?, motive (.int signed width default?))
    (float : ∀ width default?, motive (.float width default?))
    (text : ∀ charset default?, motive (.text charset default?))
    (enum : ∀ name signed width default?, motive (.enum name signed width default?))
    (struct : ∀ name, motive (.struct name))
    (array : ∀ element length, motive element → motive (.array element length))
    (union : ∀ discriminant enumName cases, (∀ label t, (label, t) ∈ cases → motive t) →
      motive (.union discriminant enumName cases)) : ∀ t, motive t :=
  @FieldType.rec motive (fun cases => ∀ label t, (label, t) ∈ cases → motive t)
    (fun p => motive p.2) int float text enum struct array union
    (fun _ _ h => nomatch h)
    (fun _ _ ih₁ ih₂ label t h => by
      rcases List.mem_cons.mp h with rfl | h
      · exact ih₁
      · exact ih₂ label t h)
    (fun _ _ ih => ih)

end FieldType

end WireSchema
