import WireSchema.Codec.Siblings
import WireSchema.Proofs.Consistency.Sound

/-!
# Consistency — Siblings that agree, and siblings that are there

A union and an array look up one field each, and in a consistent schema that is an enum or an
integer that comes before. So two ways of holding the fields of a struct may differ in all else: it
is enough that they agree on the earlier integers and enums (`Siblings.Agree`). And where every
earlier field is held, an integer as an integer and an enum as one of its labels (`Siblings.Held`),
what a union or an array looks up is there; only an empty label is none.
-/

namespace WireSchema

/-- Whether a union or an array can look up a field of a type. -/
def FieldType.Selects : FieldType → Prop
  | .int .. | .enum .. => True
  | _ => False

/-- The same value in every earlier field that can be looked up. -/
def Siblings.Agree (earlier : Consistency.Earlier) (siblings others : Fields) : Prop :=
  ∀ name t, Fields.get? earlier name = some t → t.Selects →
    Fields.get? siblings name = Fields.get? others name

namespace Siblings.Agree

open Consistency

variable {earlier : Earlier} {siblings others : Fields}

theorem nil : Agree [] siblings others := fun _ _ h => nomatch h

/-- A label is found alike under the name of an enum's field. -/
theorem label?_eq (h : Agree earlier siblings others) {field enumName : Text}
    (he : isEnum earlier field enumName = true) : siblings.label? field = others.label? field := by
  obtain ⟨signed, width, default?, hg⟩ := get?_of_isEnum he
  rw [Fields.label?, Fields.label?, h field _ hg trivial]

/-- A count is found alike under the name of an integer's field. -/
theorem count?_eq (h : Agree earlier siblings others) {field : Text}
    (hi : isInteger earlier field = true) : siblings.count? field = others.count? field := by
  obtain ⟨signed, width, default?, hg⟩ := get?_of_isInteger hi
  rw [Fields.count?, Fields.count?, h field _ hg trivial]

/-- A length is resolved alike, if it is that of an integer's field. -/
theorem resolve_eq (h : Agree earlier siblings others) {length : ArrayLength}
    (hl : ∀ field, length = .dynamic field → isInteger earlier field = true) :
    length.resolve siblings = length.resolve others := by
  cases length with
  | static count => rfl
  | dynamic field => rw [ArrayLength.resolve, ArrayLength.resolve, h.count?_eq (hl field rfl)]

/-- A field joins the earlier ones: what the one side holds for it is put into the other, if it can
be looked up at all. -/
theorem put (h : Agree earlier siblings others) {name : Text} {t : FieldType} {v : Value}
    (hv : t.Selects → Fields.get? siblings name = some v) :
    Agree (Fields.put earlier name t) siblings (Fields.put others name v) := by
  intro other u hu hs
  rcases Fields.get?_put_cases hu with ⟨rfl, rfl⟩ | ⟨he, hu⟩
  · rw [Fields.get?_put_self]
    exact hv hs
  · rw [Fields.get?_put_of_ne he]
    exact h other u hu hs

/-- A field joins on both sides, with the same value if it can be looked up at all. -/
theorem put_both (h : Agree earlier siblings others) {name : Text} {t : FieldType} {v w : Value}
    (hv : t.Selects → v = w) :
    Agree (Fields.put earlier name t) (Fields.put siblings name v) (Fields.put others name w) := by
  intro other u hu hs
  rcases Fields.get?_put_cases hu with ⟨rfl, rfl⟩ | ⟨he, hu⟩
  · rw [Fields.get?_put_self, Fields.get?_put_self, hv hs]
  · rw [Fields.get?_put_of_ne he, Fields.get?_put_of_ne he]
    exact h other u hu hs

end Siblings.Agree

/-- Siblings among which a type looks up the same: they are the same, or agree in what comes before
it. -/
def Siblings.SameFor (schema : Schema) (siblings others : Fields) (t : FieldType) : Prop :=
  siblings = others ∨ ∃ earlier, schema.Sound earlier t ∧ Siblings.Agree earlier siblings others

namespace Siblings.SameFor

variable {schema : Schema} {siblings others : Fields}

theorem refl (siblings : Fields) (t : FieldType) : SameFor schema siblings siblings t := Or.inl rfl

/-- Siblings that agree on earlier fields are the same for a type that is sound behind them. -/
theorem of_sound {earlier : Consistency.Earlier} {t : FieldType} (sound : schema.Sound earlier t)
    (agree : Agree earlier siblings others) : SameFor schema siblings others t :=
  Or.inr ⟨earlier, sound, agree⟩

section

variable {item : FieldType} {length : ArrayLength}

/-- An array has the same length beside the same siblings. -/
theorem resolve_eq (h : SameFor schema siblings others (.array item length)) :
    length.resolve siblings = length.resolve others := by
  rcases h with rfl | ⟨earlier, sound, agree⟩
  · rfl
  · cases sound with
    | array counted => exact agree.resolve_eq counted

/-- Siblings that are the same for an array are so for its elements. -/
theorem element (h : SameFor schema siblings others (.array item length)) :
    SameFor schema siblings others item := by
  rcases h with rfl | ⟨earlier, sound, agree⟩
  · exact .refl _ _
  · cases sound with
    | array _ inner => exact .of_sound inner agree

end

section

variable {discriminant enumName : Text} {cases : List (Text × FieldType)}

/-- A union has the same label beside the same siblings. -/
theorem label?_eq (h : SameFor schema siblings others (.union discriminant enumName cases)) :
    siblings.label? discriminant = others.label? discriminant := by
  rcases h with rfl | ⟨earlier, sound, agree⟩
  · rfl
  · cases sound with
    | union _ discriminated => exact agree.label?_eq discriminated

/-- Siblings that are the same for a union are so for its cases. -/
theorem case (h : SameFor schema siblings others (.union discriminant enumName cases))
    {label : Text} {t : FieldType} (hm : (label, t) ∈ cases) :
    SameFor schema siblings others t := by
  rcases h with rfl | ⟨earlier, sound, agree⟩
  · exact .refl _ _
  · cases sound with
    | union _ _ _ inner => exact .of_sound (inner label t hm) agree

end

end Siblings.SameFor

/-! ### Siblings that are there -/

/-- A value of a field that can be looked up: an integer, or a label of the enum. -/
def FieldType.Offers (schema : Schema) : FieldType → Value → Prop
  | .int .., v => ∃ i, v = .int i
  | .enum name .., v => ∃ e label, schema.enum? name = some e ∧ label ∈ e.labels ∧ v = .text label
  | _, _ => True

/-- Every earlier field is there, and can be looked up. -/
def Siblings.Held (schema : Schema) (earlier : Consistency.Earlier) (siblings : Fields) : Prop :=
  ∀ field t, Fields.get? earlier field = some t →
    ∃ v, Fields.get? siblings field = some v ∧ t.Offers schema v

/-- No enum has the empty text for a label. -/
def Schema.LabelsNonempty (schema : Schema) : Prop := ∀ e ∈ schema.enums, ("" : Text) ∉ e.labels

instance (schema : Schema) : Decidable schema.LabelsNonempty :=
  inferInstanceAs (Decidable (∀ e ∈ schema.enums, ("" : Text) ∉ e.labels))

namespace Siblings.Held

open Consistency

variable {schema : Schema} {earlier : Earlier} {siblings : Fields}

theorem nil : Held schema [] siblings := fun _ _ h => nomatch h

/-- A field that is held may be put behind others that are. -/
theorem put (h : Held schema earlier siblings) {name : Text} {t : FieldType} {v : Value}
    (hv : t.Offers schema v) :
    Held schema (Fields.put earlier name t) (Fields.put siblings name v) := by
  intro other u hu
  rcases Fields.get?_put_cases hu with ⟨rfl, rfl⟩ | ⟨he, hu⟩
  · exact ⟨v, Fields.get?_put_self, hv⟩
  · rw [Fields.get?_put_of_ne he]
    exact h other u hu

/-- The discriminant of a union is a label of its enum. -/
theorem exists_label? (h : Held schema earlier siblings) (hlabels : schema.LabelsNonempty)
    {field enumName : Text} {e : EnumDef} (he : schema.enum? enumName = some e)
    (hd : isEnum earlier field enumName = true) :
    ∃ label ∈ e.labels, siblings.label? field = some label := by
  obtain ⟨signed, width, default?, hg⟩ := get?_of_isEnum hd
  obtain ⟨v, hv, e', label, he', hm, rfl⟩ := h field _ hg
  cases he.symm.trans he'
  have hne : label.isEmpty = false := by
    refine Bool.of_not_eq_true fun hempty => hlabels e (Schema.enum?_mem he) ?_
    have hnone : label = "" := List.isEmpty_iff.mp hempty
    rwa [hnone] at hm
  refine ⟨label, hm, ?_⟩
  rw [Fields.label?, hv]
  simp only [hne, Bool.false_eq_true, if_false]

/-- The label of a union has a case. -/
theorem exists_case (h : Held schema earlier siblings) (hlabels : schema.LabelsNonempty)
    {discriminant enumName : Text} {cases : List (Text × FieldType)}
    (sound : schema.Sound earlier (.union discriminant enumName cases)) :
    ∃ label t, siblings.label? discriminant = some label ∧ Fields.get? cases label = some t := by
  cases sound with
  | union declared discriminated complete =>
      obtain ⟨label, hm, hl⟩ := h.exists_label? hlabels declared discriminated
      obtain ⟨t, ht⟩ := Option.isSome_iff_exists.mp (complete label hm)
      exact ⟨label, t, hl, ht⟩

/-- The length of an array is a number. -/
theorem exists_resolve (h : Held schema earlier siblings) {length : ArrayLength}
    (hl : ∀ field, length = .dynamic field → isInteger earlier field = true) :
    ∃ count, length.resolve siblings = .ok count := by
  cases length with
  | static count => exact ⟨count, rfl⟩
  | dynamic field =>
      obtain ⟨signed, width, default?, hg⟩ := get?_of_isInteger (hl field rfl)
      obtain ⟨v, hv, i, rfl⟩ := h field _ hg
      refine ⟨i.toNat, ?_⟩
      rw [ArrayLength.resolve, Fields.count?, hv]

end Siblings.Held

end WireSchema
