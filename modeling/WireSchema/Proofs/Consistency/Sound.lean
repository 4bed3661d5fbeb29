import Mathlib.Data.List.Nodup
import WireSchema.Consistency.Basic
import WireSchema.Proofs.Fields

/-!
# Consistency — What it promises

A schema without inconsistencies has sound fields: `Schema.Sound` says of a type that every name in
it is declared, every code fits, and every discriminant and length is a suitable field before it.
`Schema.Consistent` gathers what the check promises of a whole schema; every statement about
consistent schemas reads it from there, and none looks into the check itself.
-/

namespace WireSchema

namespace Schema

/-- A type that has nothing wrong with it behind the fields `earlier`. -/
inductive Sound (schema : Schema) (earlier : Consistency.Earlier) : FieldType → Prop
  | int {signed width default?} : Sound schema earlier (.int signed width default?)
  | float {width default?} : Sound schema earlier (.float width default?)
  | text {charset default?} : Sound schema earlier (.text charset default?)
  | enum {name signed width default?} {e : EnumDef} (declared : schema.enum? name = some e)
      (codes_fit : ∀ entry ∈ e.entries, Bits.fits signed width.bits entry.2 = true)
      (default_known : ∀ label, default? = some label → (e.codeOf? label).isSome = true) :
      Sound schema earlier (.enum name signed width default?)
  | struct {name} {s : StructDef} (declared : schema.struct? name = some s) :
      Sound schema earlier (.struct name)
  | array {element length}
      (counted : ∀ field, length = .dynamic field → Consistency.isInteger earlier field = true)
      (inner : Sound schema earlier element) : Sound schema earlier (.array element length)
  | union {discriminant enumName cases} {e : EnumDef} (declared : schema.enum? enumName = some e)
      (discriminated : Consistency.isEnum earlier discriminant enumName = true)
      (complete : ∀ label ∈ e.labels, (Fields.get? cases label).isSome = true)
      (inner : ∀ label t, (label, t) ∈ cases → Sound schema earlier t) :
      Sound schema earlier (.union discriminant enumName cases)

/-- Fields with names of their own, each sound behind those before it. -/
def SoundFields (schema : Schema) : List (Text × FieldType) → Consistency.Earlier → Prop
  | [], _ => True
  | (name, t) :: fields, earlier =>
      Fields.get? earlier name = none ∧ schema.Sound earlier t ∧
        SoundFields schema fields (Fields.put earlier name t)

/-- What the check promises of a schema. -/
structure Consistent (schema : Schema) : Prop where
  labels_nodup : ∀ {name e}, schema.enum? name = some e → e.labels.Nodup
  codes_nodup : ∀ {name e}, schema.enum? name = some e → (e.entries.map (·.2)).Nodup
  labels_ne_nil : ∀ {name e}, schema.enum? name = some e → e.labels ≠ []
  fields_sound : ∀ {name s}, schema.struct? name = some s → schema.SoundFields s.fields []
  no_cycles : Recursion.cycles schema = []

theorem enum?_mem {schema : Schema} {name : Text} {e : EnumDef}
    (h : schema.enum? name = some e) : e ∈ schema.enums :=
  List.mem_of_find?_eq_some h

theorem struct?_mem {schema : Schema} {name : Text} {s : StructDef}
    (h : schema.struct? name = some s) : s ∈ schema.structs :=
  List.mem_of_find?_eq_some h

theorem struct?_name {schema : Schema} {name : Text} {s : StructDef}
    (h : schema.struct? name = some s) : s.name = name := by
  rw [struct?] at h
  exact beq_iff_eq.mp (List.find?_some (p := fun s : StructDef => s.name == name) h)

/-- A name of a declared struct is that of one. -/
theorem exists_struct? {schema : Schema} {name : Text} (h : name ∈ schema.structs.map (·.name)) :
    ∃ s, schema.struct? name = some s := by
  obtain ⟨s, hs, rfl⟩ := List.mem_map.mp h
  exact Option.isSome_iff_exists.mp (List.find?_isSome.mpr ⟨s, hs, beq_self_eq_true _⟩)

/-- Structs have names of their own, so each is found by its name. -/
theorem struct?_of_mem {schema : Schema} {s : StructDef} (h : s ∈ schema.structs) :
    schema.struct? s.name = some s := by
  obtain ⟨t, ht⟩ := exists_struct? (List.mem_map_of_mem h)
  have hn := (List.nodup_append.mp schema.names_nodup).2.1
  rw [ht, List.inj_on_of_nodup_map hn (struct?_mem ht) h (struct?_name ht)]

end Schema

namespace Consistency

variable {schema : Schema}

/-! ### Enums -/

/-- An enum without problems has each label once and each code once, and none of those before. -/
theorem nodup_of_ofEntries {enumName : Text} {entries : List (Text × Int)} :
    ∀ {before : List (Text × Int)}, ofEntries enumName before entries = [] →
      (entries.map (·.1)).Nodup ∧ (entries.map (·.2)).Nodup ∧
        ∀ entry ∈ entries, entry.1 ∉ before.map (·.1) ∧ entry.2 ∉ before.map (·.2) := by
  induction entries with
  | nil => exact fun _ => ⟨List.nodup_nil, List.nodup_nil, fun _ h => nomatch h⟩
  | cons entry entries ih =>
      intro before h
      obtain ⟨label, code⟩ := entry
      rw [ofEntries, List.append_eq_nil_iff, List.append_eq_nil_iff] at h
      obtain ⟨⟨hlabel, hcode⟩, hrest⟩ := h
      obtain ⟨hl, hc, hbefore⟩ := ih hrest
      have hlabel' : label ∉ before.map (·.1) := fun hm => by rw [if_pos hm] at hlabel; cases hlabel
      have hcode' : code ∉ before.map (·.2) := fun hm => by rw [if_pos hm] at hcode; cases hcode
      refine ⟨List.nodup_cons.mpr ⟨fun hm => ?_, hl⟩, List.nodup_cons.mpr ⟨fun hm => ?_, hc⟩, ?_⟩
      · obtain ⟨other, ho, he⟩ := List.mem_map.mp hm
        exact (hbefore other ho).1 (he ▸ List.mem_cons_self)
      · obtain ⟨other, ho, he⟩ := List.mem_map.mp hm
        exact (hbefore other ho).2 (he ▸ List.mem_cons_self)
      · intro other ho
        rcases List.mem_cons.mp ho with rfl | ho
        · exact ⟨hlabel', hcode'⟩
        · obtain ⟨h₁, h₂⟩ := hbefore other ho
          exact ⟨fun hm => h₁ (List.mem_cons_of_mem _ hm), fun hm => h₂ (List.mem_cons_of_mem _ hm)⟩

/-! ### Types -/

/-- The cases of a union without problems are sound, if types without problems are. -/
theorem sound_of_ofCases {earlier : Earlier} {e : EnumDef} {cases : List (Text × FieldType)}
    {place : Place} (h : ofCases schema earlier e cases place = [])
    (ih : ∀ label t, (label, t) ∈ cases → ∀ place, ofType schema earlier t place = [] →
      schema.Sound earlier t) :
    ∀ label t, (label, t) ∈ cases → schema.Sound earlier t := by
  induction cases with
  | nil => exact fun _ _ hm => nomatch hm
  | cons head cases ihc =>
      obtain ⟨l, u⟩ := head
      rw [ofCases, List.append_eq_nil_iff, List.append_eq_nil_iff] at h
      intro label t hm
      rcases List.mem_cons.mp hm with he | hm
      · cases he
        exact ih l u List.mem_cons_self _ h.1.2
      · exact ihc h.2 (fun label t hm => ih label t (List.mem_cons_of_mem _ hm)) label t hm

/-- A type without problems is sound. -/
theorem sound_of_ofType {earlier : Earlier} (t : FieldType) :
    ∀ place, ofType schema earlier t place = [] → schema.Sound earlier t := by
  induction t with
  | int => exact fun _ _ => .int
  | float => exact fun _ _ => .float
  | text => exact fun _ _ => .text
  | enum name signed width default? =>
      intro place h
      rw [ofType] at h
      split at h
      · cases h
      · next e he =>
          rw [List.append_eq_nil_iff, List.map_eq_nil_iff, List.filter_eq_nil_iff] at h
          refine .enum he (fun entry hm => ?_) fun label hl => ?_
          · exact Bool.of_not_eq_false fun hf => h.1 entry hm (by simp only [hf, Bool.not_false])
          · subst hl
            refine Decidable.byContradiction fun hn => ?_
            have hd := h.2
            simp only [if_neg hn] at hd
            cases hd
  | struct name =>
      intro place h
      rw [ofType] at h
      split at h
      · next hs =>
          obtain ⟨s, hs⟩ := Option.isSome_iff_exists.mp hs
          exact .struct hs
      · cases h
  | array element length ih =>
      intro place h
      cases length with
      | static count =>
          rw [ofType, List.append_eq_nil_iff] at h
          exact .array (fun field hl => nomatch hl) (ih _ h.2)
      | dynamic field =>
          rw [ofType, List.append_eq_nil_iff] at h
          refine .array (fun other hl => ?_) (ih _ h.2)
          cases hl
          refine Decidable.byContradiction fun hn => ?_
          have hd := h.1
          rw [if_neg hn] at hd
          cases hd
  | union discriminant enumName cases ih =>
      intro place h
      rw [ofType] at h
      split at h
      · cases h
      · next e he =>
          rw [List.append_eq_nil_iff, List.append_eq_nil_iff] at h
          obtain ⟨⟨hd, hc⟩, hm⟩ := h
          refine .union he ?_ (fun label hl => ?_) (sound_of_ofCases hc ih)
          · refine Decidable.byContradiction fun hn => ?_
            rw [if_neg hn] at hd
            cases hd
          · refine Decidable.byContradiction fun hn => ?_
            rw [Option.not_isSome_iff_eq_none, Fields.get?] at hn
            -- a label without a case would be listed
            have : label ∈ e.labels.filter fun label => (cases.lookup label).isNone :=
              List.mem_filter.mpr ⟨hl, by rw [hn]; rfl⟩
            rw [if_neg fun he => by rw [List.isEmpty_iff.mp he] at this; cases this] at hm
            cases hm

/-- Fields without problems are sound, each behind those before it. -/
theorem soundFields_of_ofFields {structName : Text} {fields : List (Text × FieldType)} :
    ∀ {earlier : Earlier}, ofFields schema structName fields earlier = [] →
      schema.SoundFields fields earlier := by
  induction fields with
  | nil => exact fun _ => trivial
  | cons head fields ih =>
      intro earlier h
      obtain ⟨name, t⟩ := head
      rw [ofFields, List.append_eq_nil_iff, List.append_eq_nil_iff] at h
      obtain ⟨⟨hname, ht⟩, hrest⟩ := h
      refine ⟨Option.not_isSome_iff_eq_none.mp fun hs => ?_, sound_of_ofType t _ ht, ih hrest⟩
      rw [if_pos hs] at hname
      cases hname

end Consistency

namespace Schema

variable {schema : Schema}

/-- **Consistency.** A schema in which nothing is found wrong keeps what the check promises. -/
theorem Consistent.of_inconsistencies (h : schema.inconsistencies = []) : schema.Consistent := by
  rw [inconsistencies, List.append_eq_nil_iff, List.append_eq_nil_iff, List.flatMap_eq_nil_iff,
    List.flatMap_eq_nil_iff, List.map_eq_nil_iff] at h
  obtain ⟨⟨henums, hstructs⟩, hcycles⟩ := h
  have henum : ∀ {name e}, schema.enum? name = some e →
      Consistency.ofEntries e.name [] e.entries = [] ∧ e.entries.isEmpty = false := by
    intro name e he
    have := henums e (enum?_mem he)
    rw [Consistency.ofEnum, List.append_eq_nil_iff] at this
    refine ⟨this.1, Bool.of_not_eq_true fun hn => ?_⟩
    have := this.2
    rw [if_pos hn] at this
    cases this
  refine ⟨fun he => (Consistency.nodup_of_ofEntries (henum he).1).1,
    fun he => (Consistency.nodup_of_ofEntries (henum he).1).2.1, fun {name e} he hn => ?_,
    fun hs => Consistency.soundFields_of_ofFields (hstructs _ (struct?_mem hs)), hcycles⟩
  have := (henum he).2
  rw [List.map_eq_nil_iff.mp hn] at this
  cases this

/-! ### Earlier fields -/

/-- The names of sound fields do not repeat, and none of them comes before. -/
theorem SoundFields.names {fields : List (Text × FieldType)} :
    ∀ {earlier : Consistency.Earlier}, schema.SoundFields fields earlier →
      (fields.map (·.1)).Nodup ∧ ∀ name ∈ fields.map (·.1), Fields.get? earlier name = none := by
  induction fields with
  | nil => exact fun _ => ⟨List.nodup_nil, fun _ h => nomatch h⟩
  | cons head fields ih =>
      intro earlier h
      obtain ⟨name, t⟩ := head
      obtain ⟨hname, -, hrest⟩ := h
      obtain ⟨hnodup, hnone⟩ := ih hrest
      have hne : name ∉ fields.map (·.1) := fun hm => by
        have := hnone name hm
        rw [Fields.get?_put_self] at this
        cases this
      refine ⟨List.nodup_cons.mpr ⟨hne, hnodup⟩, fun other hm => ?_⟩
      rcases List.mem_cons.mp hm with rfl | hm
      · exact hname
      · rw [← Fields.get?_put_of_ne (fun e : other = name => hne (e ▸ hm))]
        exact hnone other hm

/-- Each of sound fields is sound behind some of them. -/
theorem SoundFields.exists_sound {field : Text} {t : FieldType}
    {fields : List (Text × FieldType)} : ∀ {earlier : Consistency.Earlier},
      schema.SoundFields fields earlier → (field, t) ∈ fields →
        ∃ before, schema.Sound before t := by
  induction fields with
  | nil => exact fun _ hm => nomatch hm
  | cons head fields ih =>
      obtain ⟨name, u⟩ := head
      rintro earlier ⟨-, hsound, hrest⟩ hm
      rcases List.mem_cons.mp hm with he | hm
      · cases he
        exact ⟨earlier, hsound⟩
      · exact ih hrest hm

/-- A type that has a place in a consistent schema. -/
def Placed (schema : Schema) (t : FieldType) : Prop :=
  schema.Consistent ∧ ∃ earlier, schema.Sound earlier t

namespace Placed

/-- The type of a field is placed. -/
theorem of_field {struct field : Text} {s : StructDef} {t : FieldType} (hc : schema.Consistent)
    (declared : schema.struct? struct = some s) (hm : (field, t) ∈ s.fields) : schema.Placed t :=
  ⟨hc, (hc.fields_sound declared).exists_sound hm⟩

/-- The type of elements is placed where the array is. -/
theorem element {element : FieldType} {length : ArrayLength}
    (h : schema.Placed (.array element length)) : schema.Placed element := by
  obtain ⟨hc, earlier, sound⟩ := h
  cases sound with
  | array _ inner => exact ⟨hc, earlier, inner⟩

/-- The type of a case is placed where the union is. -/
theorem case {discriminant enumName label : Text} {cases : List (Text × FieldType)}
    {t : FieldType} (h : schema.Placed (.union discriminant enumName cases))
    (hm : (label, t) ∈ cases) : schema.Placed t := by
  obtain ⟨hc, earlier, sound⟩ := h
  cases sound with
  | union _ _ _ inner => exact ⟨hc, earlier, inner label t hm⟩

end Placed

theorem Consistent.names_nodup (h : schema.Consistent) :
    ∀ s ∈ schema.structs, s.fieldNames.Nodup :=
  fun _ hm => (h.fields_sound (struct?_of_mem hm)).names.1

end Schema

namespace Consistency

variable {earlier : Earlier} {field enumName : Text}

/-- A field that is known for an integer is one. -/
theorem get?_of_isInteger (h : isInteger earlier field = true) :
    ∃ signed width default?, Fields.get? earlier field = some (.int signed width default?) := by
  unfold isInteger at h
  split at h
  · next signed width default? he => exact ⟨signed, width, default?, he⟩
  · cases h

/-- A field that is known for an enum is one of this enum. -/
theorem get?_of_isEnum (h : isEnum earlier field enumName = true) :
    ∃ signed width default?,
      Fields.get? earlier field = some (.enum enumName signed width default?) := by
  unfold isEnum at h
  split at h
  · next name signed width default? he =>
      cases beq_iff_eq.mp h
      exact ⟨signed, width, default?, he⟩
  · cases h

end Consistency

namespace EnumDef

variable {e : EnumDef} {label : Text} {code : Int}

/-! ### Labels and codes -/

/-- The code of a label is that of an entry. -/
theorem codeOf?_mem (h : e.codeOf? label = some code) : (label, code) ∈ e.entries :=
  Fields.mem_of_get? h

theorem isSome_codeOf?_iff : (e.codeOf? label).isSome ↔ label ∈ e.labels :=
  Fields.isSome_get?_iff

/-- With labels that do not repeat every entry says the code of its label. -/
theorem codeOf?_of_mem (hn : e.labels.Nodup) (h : (label, code) ∈ e.entries) :
    e.codeOf? label = some code := by
  obtain ⟨other, ho⟩ := Option.isSome_iff_exists.mp
    (isSome_codeOf?_iff.mpr (List.mem_map_of_mem (f := (·.1)) h))
  have := List.inj_on_of_nodup_map hn (codeOf?_mem ho) h rfl
  cases this
  exact ho

theorem labelOf?_mem (h : e.labelOf? code = some label) : (label, code) ∈ e.entries := by
  obtain ⟨entry, hf, rfl⟩ := Option.map_eq_some_iff.mp h
  have hc := List.find?_some (p := fun entry : Text × Int => entry.2 == code) hf
  exact beq_iff_eq.mp hc ▸ List.mem_of_find?_eq_some hf

/-- Where codes do not repeat, the label found for the code of a label is that label. -/
theorem labelOf?_of_codeOf? (hn : (e.entries.map (·.2)).Nodup) (h : e.codeOf? label = some code) :
    e.labelOf? code = some label := by
  have hm := codeOf?_mem h
  obtain ⟨entry, hf⟩ : ∃ entry, e.entries.find? (fun entry => entry.2 == code) = some entry :=
    Option.isSome_iff_exists.mp (List.find?_isSome.mpr ⟨_, hm, beq_self_eq_true _⟩)
  have hl : e.labelOf? code = some entry.1 :=
    congrArg (Option.map fun entry : Text × Int => entry.1) hf
  have he := List.inj_on_of_nodup_map hn (labelOf?_mem hl) hm rfl
  exact hl.trans (congrArg (fun entry => some entry.1) he)

/-- Where labels do not repeat, the code of the label found for a code is that code. -/
theorem codeOf?_of_labelOf? (hn : e.labels.Nodup) (h : e.labelOf? code = some label) :
    e.codeOf? label = some code :=
  codeOf?_of_mem hn (labelOf?_mem h)

end EnumDef

namespace Schema

/-! ### Examples -/

/-- Eight bits. -/
def byte : BitWidth := ⟨8, by decide, by decide⟩

/-- One bit. -/
def bit : BitWidth := ⟨1, by decide, by decide⟩

/-- A chain of nodes, each with as many samples as it says and, unless it is the last, a next node.
-/
def chain : Schema where
  structs :=
    [⟨"Node",
      [("length", .int false ⟨8, by decide, by decide⟩ none),
        ("kind", .enum "Kind" false ⟨2, by decide, by decide⟩ none),
        ("samples", .array (.int true ⟨5, by decide, by decide⟩ none) (.dynamic "length")),
        ("body", .union "kind" "Kind" [("leaf", .text .utf8 none), ("node", .struct "Node")])]⟩]
  enums := [⟨"Kind", [("leaf", 0), ("node", 1)]⟩]
  names_nodup := by decide

theorem chain_inconsistencies : chain.inconsistencies = [] := by decide +kernel

/-- Items behind their count. -/
def counted : Schema where
  structs :=
    [⟨"Counted",
      [("count", .int false ⟨8, by decide, by decide⟩ none),
        ("items", .array (.int false ⟨8, by decide, by decide⟩ none) (.dynamic "count"))]⟩]
  enums := []
  names_nodup := by decide

end Schema

end WireSchema
