import WireSchema.Proofs.Consistency.Sound
import WireSchema.Proofs.Schema.Regular
import WireSchema.Schema.Load

/-!
# A dumped schema loads back

**Dumping** (`Schema.load_toPayload`). What a schema that was loaded is written as is loaded as the
same schema: as a tree to the bit, and as JSON text with one word for all defaults that are no
number (`Schema.quieted`). The texts of the two are the same.

A schema has a text unless an integer in it has no numeral (`Numeral.Short`), and the text is
refused if there is a surrogate in it. Such an integer and such a text stand in the payload as they
are, and so only in one that is a tree (`Vocabulary.ofPayload`).

Whatever reads the payload, all that is needed of it is that it lets be what needs no conversion and
reads JSON text as what it says (`Reading.Faithful`). How deep lists and maps may lie inside one
another is left out of it.
-/

namespace WireSchema

/-! ### Readings -/

/-- What is known of a reading: what is of the kind asked for is read as it is, and of what is not,
only short integers are. JSON text is read as what it says, if no number in it has too many digits;
a text with a surrogate in it is not read. -/
structure Reading.Faithful (reading : Reading) : Prop extends reading.Plain where
  spells : reading.Spells
  document {s : String} {v : Value} (h : Json.read s textRules = .ok v) :
    reading.document s = .ok v
  surrogate {t : Text} (h : ¬ t.Plain) : ∃ kind, reading.document t = .error kind
  within {t : Text} {v : Value} (h : reading.document t = .ok v) : v.Within .json

/-- So reads the loose reading, if there is no bound on the nesting. -/
theorem Reading.faithful_lax : (Reading.lax none).Faithful where
  integer _ := rfl
  bool _ := rfl
  float _ _ := rfl
  text _ := rfl
  spells := spells_lax none
  document {s v} h := by
    have hread : Json.read s { textRules with nesting? := none } = .ok v := h
    dsimp only [lax]
    rw [Text.string?_ofString]
    dsimp only
    rw [hread]
    rfl
  surrogate {t} h := by
    refine ⟨.stringUnicode, ?_⟩
    dsimp only [lax]
    rw [Text.string?_eq_none h]
  within {t v} h := by
    dsimp only [lax] at h
    split at h
    · cases h
    · next s _ =>
        cases hread : Json.read s { textRules with nesting? := none } with
        | error e =>
            rw [hread] at h
            cases h
        | ok w =>
            rw [hread] at h
            cases h
            exact Json.within_of_read ⟨rfl, _, rfl, Nat.le_refl _⟩ hread

/-- What a payload says, a text as JSON. -/
def Vocabulary.ofPayload : Value → Vocabulary
  | .text _ => json
  | payload => ofValue payload

/-! ### Schemas that were read from a text -/

namespace FieldType

mutual

/-- The type that comes out of the text of a type: all defaults that are no number are the same
there. -/
def quieted : FieldType → FieldType
  | float width default? => float width (default?.map (·.quieted))
  | array element length => array (quieted element) length
  | union discriminant enumName cases => union discriminant enumName (quietedCases cases)
  | t => t

def quietedCases : List (Text × FieldType) → List (Text × FieldType)
  | [] => []
  | (label, t) :: cases => (label, quieted t) :: quietedCases cases

end

theorem quietedCases_eq (cases : List (Text × FieldType)) :
    quietedCases cases = cases.map fun (label, t) => (label, t.quieted) := by
  induction cases with
  | nil => rfl
  | cons head cases ih =>
      obtain ⟨label, t⟩ := head
      rw [quietedCases, ih]
      rfl

theorem kind_quieted (t : FieldType) : t.quieted.kind = t.kind := by
  cases t <;> rfl

/-- Quieting the defaults of a type keeps it regular. -/
theorem Regular.quieted {P : Vocabulary} {t : FieldType} (h : t.Regular P) :
    t.quieted.Regular P := by
  induction h with
  | int hdefault => exact .int hdefault
  | float => exact .float
  | text hdefault => exact .text hdefault
  | enum hname hdefault => exact .enum hname hdefault
  | struct hname => exact .struct hname
  | array _ hlength ih => exact .array ih hlength
  | @union _ _ cases hdiscriminant hname hnodup hlabels _ ih =>
      have hmem : ∀ label t, (label, t) ∈ cases.map (fun (label, t) => (label, t.quieted)) →
          ∃ t', (label, t') ∈ cases ∧ t'.quieted = t := by
        intro label t ht
        obtain ⟨⟨l, t'⟩, ht', heq⟩ := List.mem_map.mp ht
        cases heq
        exact ⟨t', ht', rfl⟩
      rw [FieldType.quieted, quietedCases_eq]
      refine .union hdiscriminant hname ?_ (fun label t ht => ?_) fun label t ht => ?_
      · rw [List.map_map]
        exact hnodup
      · obtain ⟨t', ht', -⟩ := hmem label t ht
        exact hlabels label t' ht'
      · obtain ⟨t', ht', rfl⟩ := hmem label t ht
        exact ih label t' ht'

mutual

theorem payloadMembers_quieted : ∀ t : FieldType,
    t.quieted.payloadMembers = Value.quietedMembers t.payloadMembers
  | .int _ _ none | .int _ _ (some _) | .text _ none | .text _ (some _)
  | .enum _ _ _ none | .enum _ _ _ (some _) | .struct _ => rfl
  | .float _ none | .float _ (some _) => rfl
  | .array element length => by
      rw [quieted, payloadMembers, payloadMembers, kind_quieted, payloadMembers_quieted element]
      cases length <;> rfl
  | .union discriminant enumName cases => by
      rw [quieted, payloadMembers, payloadMembers, payloadCases_quieted cases]
      rfl

theorem payloadCases_quieted : ∀ cases : List (Text × FieldType),
    payloadCases (quietedCases cases) = Value.quietedMembers (payloadCases cases)
  | [] => rfl
  | (label, t) :: cases => by
      rw [quietedCases, payloadCases, payloadCases, kind_quieted, payloadMembers_quieted t,
        payloadCases_quieted cases]
      rfl

end

/-- Dumping a type with quieted defaults quiets the dump. -/
theorem toPayload_quieted (t : FieldType) : t.quieted.toPayload = t.toPayload.quieted := by
  rw [toPayload, toPayload, kind_quieted, payloadMembers_quieted]
  rfl

end FieldType

def StructDef.quieted (s : StructDef) : StructDef :=
  ⟨s.name, s.fields.map fun (name, t) => (name, t.quieted)⟩

namespace Definition

theorem toPayload_struct_quieted (s : StructDef) :
    (struct s.quieted).toPayload = (struct s).toPayload.quieted := by
  have hfields : (s.fields.map fun (name, t) => (name, t.quieted)).map
      (fun (name, t) => Value.list [.text name, t.toPayload]) =
        Value.quietedItems (s.fields.map fun (name, t) => .list [.text name, t.toPayload]) := by
    rw [Value.quietedItems_eq, List.map_map, List.map_map]
    refine List.map_congr_left fun (name, t) _ => ?_
    show Value.list [.text name, t.quieted.toPayload] = .list [.text name, t.toPayload.quieted]
    rw [FieldType.toPayload_quieted]
  rw [toPayload, StructDef.quieted, hfields]
  rfl

theorem toPayload_enum_quieted (e : EnumDef) :
    (enum e).toPayload.quieted = (enum e).toPayload := by
  have hentries : Value.quietedItems (e.entries.map fun p => .list [.text p.1, .int p.2]) =
      e.entries.map fun p => .list [.text p.1, .int p.2] := by
    rw [Value.quietedItems_eq, List.map_map]
    rfl
  show Value.map [("type", .text "Enum"), ("name", .text e.name), ("entries", .list
    (Value.quietedItems (e.entries.map fun p => .list [.text p.1, .int p.2])))] = _
  rw [hentries]
  rfl

end Definition

namespace Schema

/-- The schema that comes out of the text of a schema: the same structs and enums, with the same
fields and entries, but for the defaults that are no number, which are all the same there. -/
def quieted (schema : Schema) : Schema where
  structs := schema.structs.map (·.quieted)
  enums := schema.enums
  names_nodup := by
    rw [List.map_map]
    exact schema.names_nodup

theorem Regular.quieted {P : Vocabulary} {schema : Schema} (h : schema.Regular P) :
    schema.quieted.Regular P := by
  refine ⟨fun s hs => ?_, h.enums⟩
  obtain ⟨s', hs', rfl⟩ := List.mem_map.mp hs
  refine ⟨(h.structs s' hs').name, fun name t ht => ?_⟩
  obtain ⟨⟨_, t'⟩, ht', heq⟩ := List.mem_map.mp ht
  cases heq
  exact ((h.structs s' hs').fields name t' ht').imp_right (·.quieted)

theorem toPayload_quieted (schema : Schema) :
    schema.quieted.toPayload = schema.toPayload.quieted := by
  have hstructs : (schema.structs.map (·.quieted)).map
      (fun s => (Definition.struct s).toPayload) =
        schema.structs.map fun s => (Definition.struct s).toPayload.quieted := by
    rw [List.map_map]
    exact List.map_congr_left fun s _ => Definition.toPayload_struct_quieted s
  have henums : (schema.enums.map fun e => (Definition.enum e).toPayload) =
      schema.enums.map fun e => (Definition.enum e).toPayload.quieted :=
    List.map_congr_left fun e _ => (Definition.toPayload_enum_quieted e).symm
  show Value.list _ = Value.list (Value.quietedItems _)
  rw [Value.quietedItems_eq, definitions, definitions]
  simp only [List.map_append, List.map_map]
  exact congrArg Value.list (congrArg₂ _ henums hstructs)

/-! ### Dumping -/

variable {reading : Reading}

/-- The schema that a payload says, a text as JSON. -/
def ofValue (reading : Reading) : Value → Except PayloadError Schema
  | .text text => ofText reading text
  | payload => ofPayload reading .tree payload

theorem load_eq (payload : Value) (check : Bool) :
    load payload check reading =
      match ofValue reading payload with
      | .error e => .error (.payload e)
      | .ok schema => if check then schema.checked else .ok schema := by
  cases payload <;> rfl

/-- A check that succeeds changes nothing. -/
theorem eq_of_checked {schema schema' : Schema} (h : schema.checked = .ok schema') :
    schema = schema' := by
  unfold checked at h
  split at h
  · exact Except.ok.inj h
  · cases h

/-- What is loaded is what the payload says, and it is checked. -/
theorem of_load {payload : Value} {check : Bool} {schema : Schema}
    (h : load payload check reading = .ok schema) :
    ofValue reading payload = .ok schema ∧
      (if check then schema.checked else .ok schema) = .ok schema := by
  rw [load_eq] at h
  split at h
  · cases h
  · next read hread =>
      have heq : read = schema := by
        split at h
        · exact eq_of_checked h
        · exact Except.ok.inj h
      subst heq
      exact ⟨hread, h⟩

/-- The schema that was loaded is regular: it says nothing that the payload does not say. -/
theorem regular_of_load (hreading : reading.Faithful) {payload : Value} {check : Bool}
    {schema : Schema} (h : load payload check reading = .ok schema) :
    schema.Regular (.ofPayload payload) := by
  have hload := (of_load h).1
  unfold ofValue at hload
  split at hload
  · unfold ofText at hload
    split at hload
    · cases hload
    · next hread =>
        exact regular_of_ofPayload hreading.spells ⟨id, id⟩ (hreading.within hread) hload
  · next hpayload =>
      have hvocabulary : Vocabulary.ofPayload payload = .ofValue payload := by
        cases payload with
        | text t => exact absurd rfl (hpayload t)
        | _ => rfl
      rw [hvocabulary]
      exact regular_of_ofPayload hreading.spells (.ofValue payload) (Value.within_ofValue payload)
        hload

/-- What a payload says is within its vocabulary. -/
theorem wide_ofPayload (payload : Value) : (Vocabulary.ofPayload payload).Wide := by
  cases payload with
  | text t => exact ⟨id, id⟩
  | _ => exact .ofValue _

/-- A schema of short integers has a text. -/
theorem exists_toJson_iff (schema : Schema) :
    (∃ text, schema.toJson = .ok text) ↔ ∀ i ∈ schema.toPayload.integers, Numeral.Short i := by
  constructor
  · rintro ⟨text, h⟩
    exact (Json.print_eq_ok_iff.mp h).1
  · intro h
    exact ⟨_, Json.print_eq_ok_iff.mpr ⟨h, rfl⟩⟩

/-- The text of a schema has a surrogate in it if a name, a label or a default has one. -/
theorem plain_toJson_iff {schema : Schema} {text : Text} (h : schema.toJson = .ok text) :
    text.Plain ↔ ∀ t ∈ schema.toPayload.texts, t.Plain := by
  obtain ⟨-, rfl⟩ := Json.print_eq_ok_iff.mp h
  exact Json.plain_render_iff _

/-- The text of a regular schema is read as this schema, but for what is no number. -/
theorem ofText_toJson (hreading : reading.Faithful) {P : Vocabulary} {schema : Schema}
    (hregular : schema.Regular P) {text : Text} (h : schema.toJson = .ok text)
    (hplain : text.Plain) : ofText reading text = .ok schema.quieted := by
  have htexts := (plain_toJson_iff h).mp hplain
  obtain ⟨hshort, rfl⟩ := Json.print_eq_ok_iff.mp h
  have hfloat : ∀ count ≤ 16, Reading.textRules.refusal? true count = none := fun count hc =>
    Json.Rules.refusal?_eq_none fun limit hl => by
      cases hl
      exact Nat.le_trans hc (by decide)
  have hallow : Reading.textRules.Allow schema.toPayload.integers := fun i hi =>
    Json.Rules.refusal?_eq_none fun limit hl => by
      cases hl
      exact hshort i hi
  have hread := hreading.document (Json.read_print rfl hfloat hallow htexts)
  rw [Json.chars, Text.ofString_ofList, Text.ofChars_chars hplain] at hread
  rw [ofText, hread]
  dsimp only
  rw [← toPayload_quieted, ofPayload_toPayload hreading.toPlain .text hregular.quieted]

/-- A text with a surrogate in it is the text of no schema. -/
theorem load_eq_malformed (hreading : reading.Faithful) {text : Text} (h : ¬ text.Plain)
    (check : Bool) : ∃ problems,
      load (.text text) check reading = .error (.payload (.malformed problems)) := by
  obtain ⟨kind, hkind⟩ := hreading.surrogate h
  refine ⟨[⟨[], kind⟩], ?_⟩
  rw [load_eq, ofValue, ofText, hkind]

/-- What comes out of a text has the same text. -/
theorem toJson_quieted {schema : Schema} {text : Text} (h : schema.toJson = .ok text) :
    schema.quieted.toJson = .ok text := by
  obtain ⟨hshort, rfl⟩ := Json.print_eq_ok_iff.mp h
  rw [toJson, toPayload_quieted]
  refine Json.print_eq_ok_iff.mpr ⟨?_, Json.render_quieted _⟩
  rw [Value.integers_quieted]
  exact hshort

/-- **Dumping.** What a loaded schema is written as is loaded as this schema, with the same check;
it says nothing that the payload does not say, and what comes from a text is plain and short. The
schema has a text exactly if all its integers are short. If no name, label or default in it has a
surrogate, the text is loaded as this schema too, with one word for all that is no number, and what
was loaded from it has the same text; otherwise the text is refused. -/
theorem load_toPayload (hreading : reading.Faithful) {payload : Value} {check : Bool}
    {schema : Schema} (h : load payload check reading = .ok schema) :
    load schema.toPayload check reading = .ok schema ∧
      schema.toPayload.Within (.ofPayload payload) ∧
      ((∃ text, schema.toJson = .ok text) ↔ ∀ i ∈ schema.toPayload.integers, Numeral.Short i) ∧
      ∀ text, schema.toJson = .ok text →
        ((∀ t ∈ schema.toPayload.texts, t.Plain) →
          load (.text text) false reading = .ok schema.quieted ∧
            schema.quieted.toJson = .ok text) ∧
        ((∃ t ∈ schema.toPayload.texts, ¬ t.Plain) →
          ∃ problems,
            load (.text text) false reading = .error (.payload (.malformed problems))) := by
  have hregular := regular_of_load hreading h
  refine ⟨?_, hregular.within (wide_ofPayload payload), exists_toJson_iff schema,
    fun text htext => ⟨fun htexts => ⟨?_, toJson_quieted htext⟩, fun ⟨t, ht, hsurrogate⟩ => ?_⟩⟩
  · have hread : ofValue reading schema.toPayload = .ok schema :=
      ofPayload_toPayload hreading.toPlain .tree hregular
    rw [load_eq, hread]
    exact (of_load h).2
  · have hread : ofValue reading (.text text) = .ok schema.quieted :=
      ofText_toJson hreading hregular htext ((plain_toJson_iff htext).mpr htexts)
    rw [load_eq, hread]
    rfl
  · refine load_eq_malformed hreading (fun hplain => hsurrogate ?_) false
    exact (plain_toJson_iff htext).mp hplain t ht

/-- A payload with loose spellings in it, members under both of their names, a union in which an
array lies, and a default that is no number. -/
def framePayload : Value :=
  .list
    [.map
      [("type", .text "Struct"), ("name", .text "Frame"), ("fields", .list
        [.list [.text "kind", .map
          [("kind", .text "Enum"), ("name", .text "Kind"), ("width", .int 1)]],
        .list [.text "gain", .map
          [("kind", .text "f32"), ("default", .float (Binary.ofNat _ 0xfff8000000000001))]],
        .list [.text "body", .map
          [("kind", .text "Match"), ("discriminant", .text "kind"),
            ("enum_type_name", .text "Kind"), ("cases", .map
              [("ON", .map
                [("kind", .text "Array"), ("elementType", .map
                  [("kind", .text "Int"), ("signed", .text "yes"), ("width", .int 8),
                    ("default", .text "-07")]),
                ("length", .map [("kind", .text "Static"), ("value", .bool true)])]),
              ("OFF", .map [("kind", .text "CString"), ("default", .text "a \"b\"\n")])])]]])],
    .map
      [("type", .text "Enum"), ("name", .text "Kind"), ("entries", .list
        [.list [.text "OFF", .int 0], .list [.text "ON", .int 1]])]]

/-- The schema that it says. -/
def frame : Schema where
  structs :=
    [⟨"Frame",
      [("kind", .enum "Kind" false bit none),
        ("gain", .float .f32 (some (Binary.ofNat _ 0xfff8000000000001))),
        ("body", .union "kind" "Kind"
          [("ON", .array (.int true byte (some (-7))) (.static 1)),
            ("OFF", .text .utf8 (some "a \"b\"\n"))])]⟩]
  enums := [⟨"Kind", [("OFF", 0), ("ON", 1)]⟩]
  names_nodup := by decide

theorem load_framePayload (nesting? : Option Nat) :
    load framePayload true (.lax nesting?) = .ok frame := rfl

/-- The text of this schema. -/
theorem exists_frame_toJson : ∃ text, frame.toJson = .ok text :=
  (exists_toJson_iff frame).mpr (by decide)

theorem framePayload_load_toPayload :
    load framePayload true (.lax none) = .ok frame ∧
      load frame.toPayload true (.lax none) = .ok frame ∧
      ∃ text, frame.toJson = .ok text ∧
        load (.text text) false (.lax none) = .ok frame.quieted ∧
          frame.quieted.toJson = .ok text := by
  obtain ⟨htree, -, -, htext⟩ := load_toPayload Reading.faithful_lax (load_framePayload none)
  obtain ⟨text, hjson⟩ := exists_frame_toJson
  exact ⟨load_framePayload none, htree, text, hjson, (htext text hjson).1 (by decide)⟩

/-- An enum with one code. -/
def coded (label : Text) (code : Int) : Schema where
  structs := []
  enums := [⟨"Kind", [(label, code)]⟩]
  names_nodup := List.nodup_singleton _

/-- A half of a character. -/
def half : Text := [⟨0xd800, by decide⟩]

/-- A schema with a code of more digits than a numeral has is loaded, and has no text; one with a
label that has a surrogate in it is loaded, and its text is not. -/
theorem coded_not_exists_toJson :
    (load (coded "ON" Numeral.firstLong).toPayload = .ok (coded "ON" Numeral.firstLong) ∧
      ¬ ∃ text, (coded "ON" Numeral.firstLong).toJson = .ok text) ∧
    load (coded half 0).toPayload = .ok (coded half 0) ∧
      ∃ text, (coded half 0).toJson = .ok text ∧ ∃ problems,
        load (.text text) false (.lax none) = .error (.payload (.malformed problems)) := by
  refine ⟨⟨rfl, fun hexists => Numeral.not_short_firstLong ?_⟩, rfl, ?_⟩
  · exact (exists_toJson_iff _).mp hexists _ (List.mem_singleton_self _)
  · obtain ⟨text, htext⟩ := (exists_toJson_iff (coded half 0)).mpr (by decide)
    refine ⟨text, htext, load_eq_malformed Reading.faithful_lax (fun hplain => ?_) false⟩
    exact absurd ((plain_toJson_iff htext).mp hplain) (by decide)

end Schema

end WireSchema
