import WireSchema.Proofs.Codec.Completion
import WireSchema.Proofs.Codec.WriteUnbounded

/-!
# Codec — Writing defaults

In a consistent schema without empty labels whatever can be built is written without gaps
(`Default.exists_writes_struct`): what a default looks up among the defaults before it is there,
just as it is when the default is written.

A struct of which nothing is given is written field by field, each filled with a default that is
built on its own (`Encode.seeded`). It is written only if all of them can be built
(`Encode.exists_seeded_of_writes`), and then as the struct that they make up, without a notice
(`Encode.accepts_nothing`). That struct is its default (`Default.defaultValue_struct_iff`).
-/

namespace WireSchema

variable {schema : Schema}

/-! ### Defaults are written without gaps -/

namespace Default

section

variable {struct : Text → Outcome Value}

/-- The default of a sound type is written without gaps, if those of structs are. -/
theorem exists_writes_ofType (hlabels : schema.LabelsNonempty)
    (hstruct : ∀ name v, struct name = .ok v →
      ∀ siblings, ∃ bs, Writes schema false siblings (.struct name) v bs)
    {earlier : Consistency.Earlier} {siblings : Fields} {t : FieldType}
    (sound : schema.Sound earlier t) (held : Siblings.Held schema earlier siblings) :
    ∀ {v : Value}, ofType schema struct siblings t = .ok v →
      ∃ bs, Writes schema false siblings t v bs := by
  induction sound with
  | int =>
      intro v h
      cases h
      exact ⟨_, .int⟩
  | @float width default? =>
      intro v h
      cases h
      cases width with
      | f32 => exact ⟨_, .single rfl⟩
      | f64 => exact ⟨_, .double rfl⟩
  | text =>
      intro v h
      cases h
      exact ⟨_, .text⟩
  | @enum name signed width default? e declared codes_fit default_known =>
      intro v h
      have sound : schema.Sound earlier (.enum name signed width default?) :=
        .enum declared codes_fit default_known
      -- the default of an enum is a label of it, so it has a code
      obtain ⟨e, label, declared', hm, rfl⟩ := offers sound h
      obtain ⟨code, hcode⟩ := Option.isSome_iff_exists.mp (EnumDef.isSome_codeOf?_iff.mpr hm)
      exact ⟨_, .enum declared' hcode⟩
  | struct => exact fun h => hstruct _ _ h siblings
  | @array element length counted inner ih =>
      intro v h
      obtain ⟨count, hcount⟩ := held.exists_resolve counted
      cases count with
      | zero =>
          simp only [ofType, hcount] at h
          cases h
          exact ⟨_, .array hcount (fun _ => rfl) .nil⟩
      | succ count =>
          simp only [ofType, hcount] at h
          split at h
          · next w hw =>
              cases h
              have hitems : ∀ v ∈ List.replicate (count + 1) w,
                  ∃ bs, Writes schema false siblings element v bs :=
                fun v hv => List.eq_of_mem_replicate hv ▸ ih hw
              obtain ⟨bs, hws⟩ := Conform.exists_writesElements hitems
              rw [List.length_replicate] at hws
              exact ⟨bs, .array hcount (fun _ => List.length_replicate) hws⟩
          · cases h
  | union declared discriminated complete inner ih =>
      intro v h
      obtain ⟨label, t, hl, ht⟩ :=
        held.exists_case hlabels (.union declared discriminated complete inner)
      simp only [ofType, hl, ofCase_eq, ht] at h
      obtain ⟨bs, hw⟩ := ih _ _ (Fields.mem_of_get? ht) h
      exact ⟨bs, .union hl ht hw⟩

theorem exists_writes_ofFields (hlabels : schema.LabelsNonempty)
    (hstruct : ∀ name v, struct name = .ok v →
      ∀ siblings, ∃ bs, Writes schema false siblings (.struct name) v bs)
    {fields : List (Text × FieldType)} :
    ∀ {earlier : Consistency.Earlier} {built all : Fields}, schema.SoundFields fields earlier →
      Siblings.Held schema earlier built → ofFields (ofType schema struct) fields built = .ok all →
      ∃ bs, WritesFields schema false all fields built bs := by
  induction fields with
  | nil => exact fun _ _ _ => ⟨[], .nil⟩
  | cons head rest ih =>
      obtain ⟨name, t⟩ := head
      intro earlier built all sound held h
      have hname := (List.nodup_cons.mp sound.names.1).1
      obtain ⟨-, hsound, hrest⟩ := sound
      rw [ofFields] at h
      split at h
      · next v hv =>
          obtain ⟨bs, hw⟩ := exists_writes_ofType hlabels hstruct hsound held hv
          obtain ⟨cs, hws⟩ := ih hrest (held.put (offers hsound hv)) h
          have hg : Fields.get? all name = some v :=
            (get?_of_ofFields hname h).trans Fields.get?_put_self
          refine ⟨bs ++ cs, .cons ?_ hw hws⟩
          rw [hg]
          exact .given hw.ne_null
      · cases h

end

/-- **What is built is written.** -/
theorem exists_writes_struct (hc : schema.Consistent) (hlabels : schema.LabelsNonempty)
    {depth : Nat} : ∀ {building : List Text} (name : Text) (v : Value),
      ofStruct schema depth building name = .ok v →
      ∀ siblings, ∃ bs, Writes schema false siblings (.struct name) v bs := by
  induction depth with
  | zero =>
      intro building name v h
      obtain ⟨_, _, _, _, _, h₀, _⟩ := ofStruct_eq_ok h
      cases h₀
  | succ depth ih =>
      intro building name v h siblings
      obtain ⟨s, inner, all, hs, -, hi, hf, rfl⟩ := ofStruct_eq_ok h
      cases hi
      obtain ⟨bs, hw⟩ := exists_writes_ofFields hlabels ih (hc.fields_sound hs) .nil hf
      exact ⟨bs, .struct hs (fun _ _ hm => mem_of_ofFields hf hm) hw⟩

end Default

/-! ### Where nothing is given -/

namespace Encode

/-- The fields of a struct, each built among those before it. -/
abbrev seeded (schema : Schema) : List (Text × FieldType) → Fields → Outcome Fields :=
  Default.ofFields fun built t => schema.defaultValue t built

/-- Of a struct of which nothing is given every field has been built. -/
theorem exists_seeded_of_writes {fields : List (Text × FieldType)} :
    ∀ {written : Fields} {bs : Bits}, WritesFields schema true [] fields written bs →
      ∃ all, seeded schema fields written = .ok all := by
  induction fields with
  | nil => exact fun _ => ⟨_, rfl⟩
  | cons head rest ih =>
      obtain ⟨name, t⟩ := head
      intro written bs h
      cases h with
      | cons stands first more =>
          cases stands with
          | given hn => cases hn
          | filled _ _ hd =>
              obtain ⟨all, hall⟩ := ih more
              exact ⟨all, by rw [seeded, Default.ofFields, hd]; exact hall⟩

/-- Fields that have all been built are written as they are, though none is given. -/
theorem accepts_of_seeded {strict : Bool} {depth : Nat} {path : Path}
    {fields : List (Text × FieldType)} :
    ∀ {written all : Fields} {bs : Bits}, (fields.map (·.1)).Nodup →
      seeded schema fields written = .ok all → WritesFields schema false all fields written bs →
      (∀ name v, Fields.get? all name = some v → v.depth ≤ depth) →
      Accepts (Encode.fields schema (ofType schema strict (ofStruct schema strict depth)) [] path
        fields written) bs := by
  induction fields with
  | nil =>
      intro written all bs _ _ hw _
      cases hw
      exact ⟨_, rfl, rfl, .empty⟩
  | cons head rest ih =>
      obtain ⟨name, t⟩ := head
      intro written all bs hn h hw hdepth
      obtain ⟨hname, hn⟩ := List.nodup_cons.mp hn
      rw [seeded, Default.ofFields] at h
      split at h
      · next v hv =>
          have hg : Fields.get? all name = some v :=
            (Default.get?_of_ofFields hname h).trans Fields.get?_put_self
          cases hw with
          | @cons _ _ _ _ _ w _ _ stands first more =>
              rw [hg, Option.getD_some] at stands
              obtain rfl := stands.eq_of_ne_null stands.ne_null_of_exact
              obtain ⟨script, he, hsn, hsp⟩ := @accepts_of_writes _ _ _ _ _ first strict depth
                (path.child name) (hdepth name _ hg)
              rw [Encode.fields]
              simp only [Fields.get?_nil, Option.getD_none, Value.isNull, if_true, hv]
              rw [he]
              exact .after hsn hsp (ih hn h more hdepth)
      · cases h

/-- A struct of which nothing is given is written as its fields, if they have all been built. -/
theorem accepts_nothing (hnames : ∀ s ∈ schema.structs, s.fieldNames.Nodup) {strict : Bool}
    {root : Text} {s : StructDef} {all : Fields} {bs : Bits} (hs : schema.struct? root = some s)
    (h : seeded schema s.fields [] = .ok all) (hw : WritesFields schema false all s.fields [] bs) :
    Accepts (script schema strict root (.map [])) bs := by
  -- the bound on the nesting of nothing does for what stands for it too
  have hroom : (Value.map []).depth + schema.structs.length ≤
      (Value.map all).depth + schema.structs.length + 1 := by
    show 0 + 1 + schema.structs.length ≤ _
    omega
  rw [script_eq_writer hnames, ← ofStruct_eq_writer hnames hroom, ofStruct, hs]
  refine accepts_of_seeded (hnames s (Schema.struct?_mem hs)) h hw fun name v hv => ?_
  have := Value.depth_lt_map hv
  omega

/-- **Nothing is written as the default is.** -/
theorem accepts_nothing_of_default (hc : schema.Consistent) (hlabels : schema.LabelsNonempty)
    {root : Text} {d : Value} (h : schema.defaultValue (.struct root) = .ok d) :
    ∃ bs, Writes schema false [] (.struct root) d bs ∧
      ∀ strict, Accepts (script schema strict root (.map [])) bs := by
  obtain ⟨bs, hw⟩ := Default.exists_writes_struct hc hlabels root d h []
  cases hw with
  | struct declared exact fields =>
      have hseeded := (Default.defaultValue_struct_iff declared).mp h
      exact ⟨bs, .struct declared exact fields,
        fun strict => accepts_nothing hc.names_nodup declared hseeded fields⟩

/-- Of a struct that is written though nothing of it is given there is a default. -/
theorem exists_default_of_writes {root : Text} {bs : Bits}
    (h : Writes schema true [] (.struct root) (.map []) bs) :
    ∃ d, schema.defaultValue (.struct root) = .ok d := by
  cases h with
  | struct declared _ fields =>
      obtain ⟨all, hall⟩ := exists_seeded_of_writes fields
      exact ⟨.map all, (Default.defaultValue_struct_iff declared).mpr hall⟩

/-- Scripts of the same bits are carried out alike, if the same is noticed on the way. -/
theorem finish_congr {one two : Script} {bs : Bits} (hone : one.Packs bs) (htwo : two.Packs bs)
    (hn : one.notices = two.notices) (options : Options) (root : Text) :
    finish options root one = finish options root two := by
  rw [finish, finish, Packer.writeAll_eq _ hone, Packer.writeAll_eq _ htwo, hn]

end Encode

end WireSchema
