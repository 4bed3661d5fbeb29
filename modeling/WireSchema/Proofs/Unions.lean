import WireSchema.Proofs.Codec.Canonical
import WireSchema.Proofs.Codec.Defaults
import WireSchema.Proofs.Codec.Extent
import WireSchema.Proofs.Codec.Reading

/-!
# Unions

**Unions.** The encoder, the decoder, the conformance of values, the defaults and the sizes each
look the discriminant of a union up among the siblings. In a consistent schema they agree: where the
discriminant is a label of the enum, wherever in a struct the union lies, all of them take the union
for the case of the label (`Schema.TakenAs`).

An empty label is the exception. It can be declared, written and read like any other, but none of
them sees it as a discriminant (`Schema.Unseen`): the encoder and the decoder fail, no value
conforms, the default is that of the first label, and the size is that of the first label or of all.
-/

namespace WireSchema

/-- The type `u` lies in a type: it is the type itself, or lies in the elements of an array or in a
case of a union. -/
inductive FieldType.Within (u : FieldType) : FieldType → Prop
  | here : Within u u
  | element {element length} (inside : Within u element) : Within u (.array element length)
  | case {discriminant enumName cases label t} (case : (label, t) ∈ cases) (inside : Within u t) :
      Within u (.union discriminant enumName cases)

namespace Schema

section

variable (schema : Schema) (siblings : Fields)

/-- Among these siblings every part of the program takes the type `u` for the type `t`, however it
opens structs. -/
structure TakenAs (u t : FieldType) : Prop where
  encode : ∀ strict struct path v, Encode.ofType schema strict struct siblings u path v =
    Encode.ofType schema strict struct siblings t path v
  decode : ∀ struct path c,
    Decode.ofType schema struct siblings u path c = Decode.ofType schema struct siblings t path c
  conform : ∀ struct v,
    Conform.ofType schema struct siblings u v = Conform.ofType schema struct siblings t v
  default : ∀ struct,
    Default.ofType schema struct siblings u = Default.ofType schema struct siblings t
  size : ∀ mode struct v,
    Size.ofType schema mode struct siblings u v = Size.ofType schema mode struct siblings t v

/-- Among these siblings no part of the program sees the discriminant of a union. What the encoder
and the decoder make of that is a failure; what the others fall back to is the case `first`, or all
cases. -/
structure Unseen (discriminant enumName : Text) (cases : List (Text × FieldType))
    (first : FieldType) : Prop where
  encode : ∀ strict struct path v,
    Encode.ofType schema strict struct siblings (.union discriminant enumName cases) path v =
      .fail (.unwrittenDiscriminant discriminant) path
  decode : ∀ struct path c,
    Decode.ofType schema struct siblings (.union discriminant enumName cases) path c =
      .fail (.unreadDiscriminant discriminant) path
  conform : ∀ struct v,
    Conform.ofType schema struct siblings (.union discriminant enumName cases) v = .ok false
  default : ∀ struct,
    Default.ofType schema struct siblings (.union discriminant enumName cases) =
      Default.ofType schema struct siblings first
  size_default : ∀ struct v,
    Size.ofType schema .default struct siblings (.union discriminant enumName cases) v =
      Size.ofType schema .default struct siblings first .null
  size_max : ∀ struct v,
    Size.ofType schema .max struct siblings (.union discriminant enumName cases) v =
      Size.ofCases schema .max struct siblings .max none cases
  size_min : ∀ struct v,
    Size.ofType schema .min struct siblings (.union discriminant enumName cases) v =
      Size.ofCases schema .min struct siblings .min none cases

end

variable {schema : Schema} {siblings : Fields} {discriminant enumName label : Text}
  {cases : List (Text × FieldType)} {t : FieldType} {e : EnumDef}

/-- What lies in a sound type is sound, behind the same fields. -/
theorem Sound.within {earlier : Consistency.Earlier} {u : FieldType} (hu : u.Within t)
    (sound : schema.Sound earlier t) : schema.Sound earlier u := by
  induction hu with
  | here => exact sound
  | element _ ih =>
      cases sound with
      | array _ inner => exact ih inner
  | case hm _ ih =>
      cases sound with
      | union _ _ _ inner => exact ih (inner _ _ hm)

/-- Every label of a union's enum has a case. -/
theorem Consistent.exists_case (hc : schema.Consistent) {s : StructDef} {field : Text}
    (hs : s ∈ schema.structs) (hf : (field, t) ∈ s.fields)
    (hu : (FieldType.union discriminant enumName cases).Within t)
    (he : schema.enum? enumName = some e) (hl : label ∈ e.labels) :
    ∃ u, Fields.get? cases label = some u := by
  obtain ⟨earlier, hsound⟩ := (hc.fields_sound (struct?_of_mem hs)).exists_sound hf
  cases hsound.within hu with
  | union declared _ complete =>
      cases he.symm.trans declared
      exact Option.isSome_iff_exists.mp (complete label hl)

/-- A label that is seen is followed. -/
theorem takenAs_of_label? (chosen : siblings.label? discriminant = some label)
    (case : Fields.get? cases label = some t) :
    schema.TakenAs siblings (.union discriminant enumName cases) t where
  encode strict struct path v := by
    rw [Encode.ofType, chosen]
    dsimp only
    rw [Encode.ofCase_eq, case]
    rfl
  decode struct path c := by
    rw [Decode.ofType, chosen]
    dsimp only
    rw [Decode.ofCase_eq, case]
    rfl
  conform struct v := by
    rw [Conform.ofType, chosen]
    dsimp only
    rw [Conform.ofCase_eq, case]
    rfl
  default struct := by
    rw [Default.ofType, chosen]
    dsimp only
    rw [Default.ofCase_eq, case]
    rfl
  size mode struct v := by
    simp only [Size.ofType, chosen]
    rw [Size.ofCase_eq, case]
    rfl

/-- Without a label that is seen, the first one counts, or all do. -/
theorem unseen_of_label? (hidden : siblings.label? discriminant = none)
    (he : schema.enum? enumName = some e) (hfirst : e.firstLabel? = some label)
    (case : Fields.get? cases label = some t) :
    schema.Unseen siblings discriminant enumName cases t where
  encode strict struct path v := by rw [Encode.ofType, hidden]
  decode struct path c := by rw [Decode.ofType, hidden]
  conform struct v := by rw [Conform.ofType, hidden]
  default struct := by
    rw [Default.ofType, hidden]
    simp only [he, hfirst]
    rw [Default.ofCase_eq, case]
    rfl
  size_default struct v := by
    simp only [Size.ofType, hidden, he, hfirst]
    rw [Size.ofCase_eq, case]
    rfl
  size_max struct v := by simp only [Size.ofType, hidden]
  size_min struct v := by simp only [Size.ofType, hidden]

/-- **Unions.** Wherever a union lies in a struct of a consistent schema, and whatever else is among
its siblings: every label of its enum has a case, and where the discriminant holds the label, all
parts of the program take the union for that case, unless the label is empty. An empty label none of
them sees. -/
theorem union_takenAs_case {s : StructDef} {field : Text} (hschema : schema.inconsistencies = [])
    (hs : s ∈ schema.structs) (hf : (field, t) ∈ s.fields)
    (hu : (FieldType.union discriminant enumName cases).Within t)
    (he : schema.enum? enumName = some e) (hl : label ∈ e.labels)
    (hg : Fields.get? siblings discriminant = some (.text label)) :
    ∃ case, Fields.get? cases label = some case ∧
      (label ≠ "" → schema.TakenAs siblings (.union discriminant enumName cases) case) ∧
      (label = "" → ∃ first initial, e.firstLabel? = some first ∧
        Fields.get? cases first = some initial ∧
        schema.Unseen siblings discriminant enumName cases initial) := by
  have hc := Consistent.of_inconsistencies hschema
  have hcase : ∀ {other}, other ∈ e.labels → ∃ u, Fields.get? cases other = some u :=
    hc.exists_case hs hf hu he
  obtain ⟨case, hlabel⟩ := hcase hl
  refine ⟨case, hlabel, fun hne => takenAs_of_label? ?_ hlabel, fun hempty => ?_⟩
  · rw [Fields.label?, hg]
    exact if_neg fun hn => hne (List.isEmpty_iff.mp hn)
  · obtain ⟨first, hfirst⟩ := Option.isSome_iff_exists.mp
      (List.isSome_head?.mpr (hc.labels_ne_nil he))
    obtain ⟨initial, hinitial⟩ := hcase (List.mem_of_head? hfirst)
    have hidden : siblings.label? discriminant = none := by
      rw [Fields.label?, hg, hempty]
      rfl
    exact ⟨first, initial, hfirst, hinitial, unseen_of_label? hidden he hfirst hinitial⟩

/-! ### An empty label -/

/-- What a cell of a sheet holds: a number, or under the empty label a text. -/
def cellBody : List (Text × FieldType) :=
  [("number", .int false byte none), ("", .text .utf8 none)]

/-- A cell: what it holds, twice, behind what that is. -/
def cell : StructDef :=
  ⟨"Cell",
    [("kind", .enum "Kind" false byte none),
      ("bodies", .array (.union "kind" "Kind" cellBody) (.static 2))]⟩

/-- Cells of a sheet. -/
def sheet : Schema where
  structs := [cell]
  enums := [⟨"Kind", [("number", 0), ("", 1)]⟩]
  names_nodup := by decide

theorem sheet_inconsistencies : sheet.inconsistencies = [] := by decide +kernel

/-- Nothing sees the empty label of a cell, though it has a case. -/
theorem sheet_union_takenAs_case :
    sheet.inconsistencies = [] ∧ cell ∈ sheet.structs ∧
      (("bodies" : Text), .array (.union "kind" "Kind" cellBody) (.static 2)) ∈ cell.fields ∧
      (FieldType.union "kind" "Kind" cellBody).Within
        (.array (.union "kind" "Kind" cellBody) (.static 2)) ∧
      sheet.enum? "Kind" = some ⟨"Kind", [("number", 0), ("", 1)]⟩ ∧
      ("" : Text) ∈ EnumDef.labels ⟨"Kind", [("number", 0), ("", 1)]⟩ ∧
      Fields.get? [("kind", Value.text "")] "kind" = some (.text "") ∧
      ∃ case, Fields.get? cellBody "" = some case ∧
        (("" : Text) ≠ "" →
          sheet.TakenAs [("kind", .text "")] (.union "kind" "Kind" cellBody) case) ∧
        (("" : Text) = "" → ∃ first initial,
          EnumDef.firstLabel? ⟨"Kind", [("number", 0), ("", 1)]⟩ = some first ∧
          Fields.get? cellBody first = some initial ∧
          sheet.Unseen [("kind", .text "")] "kind" "Kind" cellBody initial) := by
  have hs : cell ∈ sheet.structs := List.mem_singleton.mpr rfl
  have hf : (("bodies" : Text), .array (.union "kind" "Kind" cellBody) (.static 2)) ∈ cell.fields :=
    List.mem_cons_of_mem _ (List.mem_singleton.mpr rfl)
  have hl : ("" : Text) ∈ EnumDef.labels ⟨"Kind", [("number", 0), ("", 1)]⟩ := by decide
  exact ⟨sheet_inconsistencies, hs, hf, .element .here, rfl, hl, rfl,
    union_takenAs_case sheet_inconsistencies hs hf (.element .here) rfl hl rfl⟩

/-- A cell under the empty label can be neither written nor read. -/
example :
    (sheet.encode (.map [("kind", .text ""), ("bodies", .list [.text "a", .text "b"])])
        "Cell").outcome =
      .error (.fault (.unwrittenDiscriminant "kind")
        (some ⟨"Cell", [.field "bodies", .index 0]⟩)) ∧
      (sheet.decode #[1, 97, 0, 98, 0] "Cell").outcome =
        .error (.fault (.unreadDiscriminant "kind")
          (some ⟨"Cell", [.field "bodies", .index 0]⟩)) :=
  ⟨rfl, rfl⟩

end Schema

end WireSchema
