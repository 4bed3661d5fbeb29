import WireSchema.Proofs.Fields
import WireSchema.Proofs.Vocabulary
import WireSchema.Schema.Payload

/-!
# Schema — Payloads that read back

What a schema is written as is read as this schema (`ofPayload_toPayload`), if no union has two
cases of one label. A map with such members would be read as having one of them; but of a payload
that is read only one is left, so every schema that comes from a payload is of this kind
(`Regular`).

A member is written unless there is nothing to say, under a name that its reader looks for first,
and as the one value that the reader of this member does not have to convert; so all that is needed
of a reading is that it lets such values be (`Reading.Plain`). There is one lemma for each kind of
type that says what its members are read as, and the induction over types meets itself only in the
elements of arrays and the cases of unions.
-/

namespace WireSchema

/-! ### Names that do not repeat -/

namespace Fields

variable {α : Type}

/-- Names that do not repeat are put one behind the other. -/
theorem foldl_put {pairs fields : List (Text × α)}
    (h : ((fields ++ pairs).map (·.1)).Nodup) :
    pairs.foldl (fun fields (name, a) => put fields name a) fields = fields ++ pairs := by
  induction pairs generalizing fields with
  | nil => exact (List.append_nil fields).symm
  | cons pair pairs ih =>
      obtain ⟨name, a⟩ := pair
      have hnew : name ∉ fields.map (·.1) := by
        intro hm
        rw [List.map_append, List.nodup_append] at h
        exact h.2.2 name hm name List.mem_cons_self rfl
      have happ : fields ++ (name, a) :: pairs = fields ++ [(name, a)] ++ pairs :=
        List.append_cons fields (name, a) pairs
      rw [List.foldl_cons]
      show pairs.foldl _ (put fields name a) = _
      rw [happ] at h ⊢
      rw [put_of_notMem hnew, ih h]

/-- Of names that do not repeat all stay where they are. -/
theorem ofPairs_of_nodup {pairs : List (Text × α)} (h : (pairs.map (·.1)).Nodup) :
    ofPairs pairs = pairs := foldl_put h

end Fields

/-! ### Parts that are all read -/

namespace Checked

variable {α β : Type}

theorem map_ok (f : α → β) (a : α) : f <$> ok a = ok (f a) := rfl

theorem all_ok (as : List α) : all (as.map ok) = ok as := by
  induction as with
  | nil => rfl
  | cons a as ih =>
      rw [List.map_cons, all, ih]
      rfl

end Checked

/-- Whatever may be spelled loosely, a scalar that is of the kind asked for is read as it is. -/
structure Reading.Plain (reading : Reading) : Prop where
  integer (i : Int) : reading.integer (.int i) = .ok i
  bool (b : Bool) : reading.bool (.bool b) = .ok b
  float (source : PayloadSource) (x : Binary64) : reading.float source (.float x) = .ok x
  text (s : Text) : reading.text (.text s) = .ok s

/-! ### Types -/

/-- What the length of an array says is of the vocabulary. -/
def ArrayLength.Regular (P : Vocabulary) : ArrayLength → Prop
  | static count => P.integer count
  | dynamic field => P.text field

/-- The integers, names, labels and texts of a type are of the vocabulary, and no union in it has
two cases of one label. -/
inductive FieldType.Regular (P : Vocabulary) : FieldType → Prop
  | int {signed : Bool} {width : BitWidth} {default? : Option Int}
      (hdefault : ∀ i, default? = some i → P.integer i) : Regular P (.int signed width default?)
  | float {width : FloatWidth} {default? : Option Binary64} : Regular P (.float width default?)
  | text {charset : Charset} {default? : Option Text}
      (hdefault : ∀ t, default? = some t → P.text t) : Regular P (.text charset default?)
  | enum {name : Text} {signed : Bool} {width : BitWidth} {default? : Option Text}
      (hname : P.text name) (hdefault : ∀ t, default? = some t → P.text t) :
      Regular P (.enum name signed width default?)
  | struct {name : Text} (hname : P.text name) : Regular P (.struct name)
  | array {element : FieldType} {length : ArrayLength} (helement : Regular P element)
      (hlength : length.Regular P) : Regular P (.array element length)
  | union {discriminant enumName : Text} {cases : List (Text × FieldType)}
      (hdiscriminant : P.text discriminant) (hname : P.text enumName)
      (hnodup : (cases.map (·.1)).Nodup) (hlabels : ∀ label t, (label, t) ∈ cases → P.text label)
      (hcases : ∀ label t, (label, t) ∈ cases → Regular P t) :
      Regular P (.union discriminant enumName cases)

/-- What a struct says is of the vocabulary, and its types are regular. -/
structure StructDef.Regular (P : Vocabulary) (s : StructDef) : Prop where
  name : P.text s.name
  fields : ∀ name t, (name, t) ∈ s.fields → P.text name ∧ t.Regular P

/-- What an enum says is of the vocabulary. -/
structure EnumDef.Regular (P : Vocabulary) (e : EnumDef) : Prop where
  name : P.text e.name
  entries : ∀ label code, (label, code) ∈ e.entries → P.text label ∧ P.integer code

/-- What the schema says is of the vocabulary, and no union in it has two cases of one label. -/
structure Schema.Regular (P : Vocabulary) (schema : Schema) : Prop where
  structs : ∀ s ∈ schema.structs, s.Regular P
  enums : ∀ e ∈ schema.enums, e.Regular P

namespace Payload

/-! ### Members -/

section

variable {α : Type} {ms : Members} {name : Text} {m : Member} {a : α} {read : Member → Checked α}

/-- A member is read under the first of its names, if it is there. -/
theorem required_of_get? {names : List Text} (hm : Fields.get? ms name = some m)
    (h : read m = .ok a) : required ms (name :: names) read = .ok a := by
  have hfind : find? ms (name :: names) = some (name, m) := by
    rw [find?, List.findSome?_cons, hm]
    rfl
  rw [required, hfind]
  dsimp only
  rw [h]
  rfl

theorem optional_of_get? {default : α} (hm : Fields.get? ms name = some m) (h : read m = .ok a) :
    optional ms name default read = .ok a := by
  rw [optional, hm]
  dsimp only
  rw [h]
  rfl

/-- A member that is there and not null is read. -/
theorem nullable_of_get? (hm : Fields.get? ms name = some m) (hv : m.value.isNull = false)
    (h : read m = .ok a) : nullable ms name read = .ok (some a) := by
  refine optional_of_get? hm ?_
  rw [hv, if_neg Bool.false_ne_true, h]
  rfl

/-- A member that is not there is none. -/
theorem nullable_of_none (hm : Fields.get? ms name = none) : nullable ms name read = .ok none := by
  rw [nullable, optional, hm]

/-- A map with a tag is read by the reader of the tag. -/
theorem tagged_of_get? {tag : Text} {readers : List (Text × (Members → Checked α))}
    {read : Members → Checked α} (hm : Fields.get? ms name = some m) (htag : m.value = .text tag)
    (hread : readers.lookup tag = some read) : tagged name readers ms = (read ms).under tag := by
  rw [tagged, valueOf?, hm, Option.map_some, htag]
  dsimp only
  rw [hread]

end

variable {reading : Reading} (hreading : reading.Plain) (source : PayloadSource)

/-- Every member of a map is surveyed on its own. -/
theorem surveyMembers_eq (members : Fields) :
    surveyMembers reading source members =
      members.map fun (name, v) => (name, survey reading source v) := by
  induction members with
  | nil => rfl
  | cons m members ih =>
      obtain ⟨name, v⟩ := m
      rw [surveyMembers, ih]
      rfl

/-- The members of a payload have names of their own. -/
theorem nodup_payloadMembers (t : FieldType) :
    ((("kind", .text t.kind) :: t.payloadMembers : Fields).map (·.1)).Nodup := by
  cases t with
  | int _ _ default? =>
      cases default? with
      | none => exact (by decide : (["kind", "signed", "width"] : List Text).Nodup)
      | some _ => exact (by decide : (["kind", "signed", "width", "default"] : List Text).Nodup)
  | float _ default? | text _ default? =>
      cases default? with
      | none => exact (by decide : (["kind"] : List Text).Nodup)
      | some _ => exact (by decide : (["kind", "default"] : List Text).Nodup)
  | enum _ _ _ default? =>
      cases default? with
      | none => exact (by decide : (["kind", "name", "signed", "width"] : List Text).Nodup)
      | some _ =>
          exact (by decide : (["kind", "name", "signed", "width", "default"] : List Text).Nodup)
  | struct _ => exact (by decide : (["kind", "name"] : List Text).Nodup)
  | array _ _ => exact (by decide : (["kind", "elementType", "length"] : List Text).Nodup)
  | union _ _ _ =>
      exact (by decide : (["kind", "discriminant", "enumTypeName", "cases"] : List Text).Nodup)

/-- A type is read from its payload by the reader of its kind. -/
theorem readType_of_kind {t : FieldType} (kind : String) {read : Members → Checked FieldType}
    (hkind : t.kind = kind) (h : (typeReaders reading source).lookup (kind : Text) = some read) :
    readType reading source t.toPayload =
      (read (surveyMembers reading source (("kind", .text kind) :: t.payloadMembers))).under
        kind := by
  subst hkind
  have hnames : ((surveyMembers reading source
      (("kind", .text t.kind) :: t.payloadMembers)).map (·.1)).Nodup := by
    rw [surveyMembers_eq, List.map_map]
    exact nodup_payloadMembers t
  show tagged "kind" (typeReaders reading source) (Fields.ofPairs (surveyMembers reading source
    (("kind", .text t.kind) :: t.payloadMembers))) = _
  rw [Fields.ofPairs_of_nodup hnames]
  exact tagged_of_get? rfl rfl h

/-- The width of a type is one that is accepted. -/
theorem checkWidth_bits (width : BitWidth) : checkWidth width.bits = .ok width := by
  have hpos := width.pos
  have hle := width.le
  rw [checkWidth, dif_neg (by omega), dif_neg (by omega)]
  rfl

include hreading

theorem readInteger_int {m : Member} {i : Int} (hm : m.value = .int i) :
    readInteger reading m = .ok i := by
  rw [readInteger, hm, hreading.integer]
  rfl

theorem readBool_bool {m : Member} {b : Bool} (hm : m.value = .bool b) :
    readBool reading m = .ok b := by
  rw [readBool, hm, hreading.bool]
  rfl

theorem readFloat_float {m : Member} {x : Binary64} (hm : m.value = .float x) :
    readFloat reading source m = .ok x := by
  rw [readFloat, hm, hreading.float]
  rfl

theorem readText_text {m : Member} {s : Text} (hm : m.value = .text s) :
    readText reading m = .ok s := by
  rw [readText, hm, hreading.text]
  rfl

/-- A width is read from the number of its bits. -/
theorem readWidth_bits {m : Member} {width : BitWidth} (hm : m.value = .int width.bits) :
    readWidth reading m = .ok width := by
  rw [readWidth, hm, hreading.integer]
  exact checkWidth_bits width

theorem readCount_count {m : Member} {count : Nat} (hm : m.value = .int count) :
    readCount reading m = .ok count := by
  rw [readCount, hm, hreading.integer]
  dsimp only
  rw [if_neg (by omega), Int.toNat_natCast]

theorem readType_int (signed : Bool) (width : BitWidth) (default? : Option Int) :
    readType reading source (FieldType.int signed width default?).toPayload =
      .ok (.int signed width default?) := by
  rw [readType_of_kind source "Int" rfl rfl]
  generalize hms : surveyMembers reading source _ = ms
  have hsigned : optional ms "signed" false (readBool reading) = .ok signed := by
    subst hms
    exact optional_of_get? rfl (readBool_bool hreading rfl)
  have hwidth : required ms ["width"] (readWidth reading) = .ok width := by
    subst hms
    exact required_of_get? rfl (readWidth_bits hreading rfl)
  have hdefault : nullable ms "default" (readInteger reading) = .ok default? := by
    subst hms
    cases default? with
    | none => exact nullable_of_none rfl
    | some i => exact nullable_of_get? rfl rfl (readInteger_int hreading rfl)
  have helse : nothingElse ms [["kind"], ["signed"], ["width"], ["default"]] = .ok () := by
    subst hms
    cases default? <;> rfl
  rw [readInt, hsigned, hwidth, hdefault, helse]
  rfl

/-- A float type is read by the reader of its width. -/
theorem readType_float (width : FloatWidth) (default? : Option Binary64) :
    readType reading source (FieldType.float width default?).toPayload =
      .ok (.float width default?) := by
  have hread : readType reading source (FieldType.float width default?).toPayload =
      (readFloatType reading source width (surveyMembers reading source
        (("kind", .text width.kind) :: (FieldType.float width default?).payloadMembers))).under
          width.kind := by
    cases width with
    | f32 => exact readType_of_kind source "f32" rfl rfl
    | f64 => exact readType_of_kind source "f64" rfl rfl
  rw [hread]
  generalize hms : surveyMembers reading source _ = ms
  have hdefault : nullable ms "default" (readFloat reading source) = .ok default? := by
    subst hms
    cases default? with
    | none => exact nullable_of_none rfl
    | some x => exact nullable_of_get? rfl rfl (readFloat_float hreading source rfl)
  have helse : nothingElse ms [["kind"], ["default"]] = .ok () := by
    subst hms
    cases default? <;> rfl
  rw [readFloatType, hdefault, helse]
  rfl

/-- A string type is read by the reader of its charset. -/
theorem readType_text (charset : Charset) (default? : Option Text) :
    readType reading source (FieldType.text charset default?).toPayload =
      .ok (.text charset default?) := by
  have hread : readType reading source (FieldType.text charset default?).toPayload =
      (readTextType reading charset (surveyMembers reading source
        (("kind", .text charset.kind) :: (FieldType.text charset default?).payloadMembers))).under
          charset.kind := by
    cases charset with
    | utf8 => exact readType_of_kind source "CString" rfl rfl
    | hebrew => exact readType_of_kind source "HebrewString" rfl rfl
  rw [hread]
  generalize hms : surveyMembers reading source _ = ms
  have hdefault : nullable ms "default" (readText reading) = .ok default? := by
    subst hms
    cases default? with
    | none => exact nullable_of_none rfl
    | some s => exact nullable_of_get? rfl rfl (readText_text hreading rfl)
  have helse : nothingElse ms [["kind"], ["default"]] = .ok () := by
    subst hms
    cases default? <;> rfl
  rw [readTextType, hdefault, helse]
  rfl

theorem readType_enum (name : Text) (signed : Bool) (width : BitWidth)
    (default? : Option Text) :
    readType reading source (FieldType.enum name signed width default?).toPayload =
      .ok (.enum name signed width default?) := by
  rw [readType_of_kind source "Enum" rfl rfl]
  generalize hms : surveyMembers reading source _ = ms
  have hname : required ms ["name"] (readText reading) = .ok name := by
    subst hms
    exact required_of_get? rfl (readText_text hreading rfl)
  have hsigned : optional ms "signed" false (readBool reading) = .ok signed := by
    subst hms
    exact optional_of_get? rfl (readBool_bool hreading rfl)
  have hwidth : required ms ["width"] (readWidth reading) = .ok width := by
    subst hms
    exact required_of_get? rfl (readWidth_bits hreading rfl)
  have hdefault : nullable ms "default" (readText reading) = .ok default? := by
    subst hms
    cases default? with
    | none => exact nullable_of_none rfl
    | some s => exact nullable_of_get? rfl rfl (readText_text hreading rfl)
  have helse :
      nothingElse ms [["kind"], ["name"], ["signed"], ["width"], ["default"]] = .ok () := by
    subst hms
    cases default? <;> rfl
  rw [readEnumType, hname, hsigned, hwidth, hdefault, helse]
  rfl

theorem readType_struct (name : Text) :
    readType reading source (FieldType.struct name).toPayload = .ok (.struct name) := by
  rw [readType_of_kind source "Struct" rfl rfl]
  generalize hms : surveyMembers reading source _ = ms
  have hname : required ms ["name"] (readText reading) = .ok name := by
    subst hms
    exact required_of_get? rfl (readText_text hreading rfl)
  have helse : nothingElse ms [["kind"], ["name"]] = .ok () := by
    subst hms
    rfl
  rw [readStructType, hname, helse]
  rfl

/-- The length of an array is read as it was written. -/
theorem readLength_toPayload (length : ArrayLength) :
    readLength reading source (survey reading source length.toPayload) = .ok length := by
  cases length with
  | static count =>
      show Checked.under "Static" ((fun count _ => ArrayLength.static count) <$>
        required (plainMembers [("kind", .text "Static"), ("value", .int count)]) ["value"]
          (readCount reading) <*> Checked.ok ()) = _
      rw [required_of_get? rfl (readCount_count hreading rfl)]
      rfl
  | dynamic field =>
      show Checked.under "Dynamic" ((fun field _ => ArrayLength.dynamic field) <$>
        required (plainMembers [("kind", .text "Dynamic"), ("field", .text field)]) ["field"]
          (readText reading) <*> Checked.ok ()) = _
      rw [required_of_get? rfl (readText_text hreading rfl)]
      rfl

/-- An array is read as it was written, if the type of its elements is. -/
theorem readType_array {element : FieldType} (length : ArrayLength)
    (h : readType reading source element.toPayload = .ok element) :
    readType reading source (FieldType.array element length).toPayload =
      .ok (.array element length) := by
  rw [readType_of_kind source "Array" rfl rfl]
  generalize hms : surveyMembers reading source _ = ms
  have helement : required ms ["elementType", "element_type"] (·.asType) = .ok element := by
    subst hms
    exact required_of_get? rfl h
  have hlength : required ms ["length"] (readLength reading source) = .ok length := by
    subst hms
    exact required_of_get? rfl (readLength_toPayload hreading source length)
  have helse :
      nothingElse ms [["kind"], ["elementType", "element_type"], ["length"]] = .ok () := by
    subst hms
    rfl
  rw [readArray, helement, hlength, helse]
  rfl

omit hreading

theorem payloadCases_eq (cases : List (Text × FieldType)) :
    FieldType.payloadCases cases = cases.map fun (label, t) => (label, t.toPayload) := by
  induction cases with
  | nil => rfl
  | cons head cases ih =>
      obtain ⟨label, t⟩ := head
      rw [FieldType.payloadCases, ih]
      rfl

/-- The cases of a union are read in their order, for none of their labels repeats. -/
theorem readCases_payloadCases {cases : List (Text × FieldType)}
    (labels : (cases.map (·.1)).Nodup)
    (h : ∀ label t, (label, t) ∈ cases → readType reading source t.toPayload = .ok t) :
    readCases (survey reading source (.map (FieldType.payloadCases cases))) = .ok cases := by
  have hread : ∀ c ∈ cases, ((Prod.mk c.1 <$> readType reading source c.2.toPayload).under c.1 :
      Checked (Text × FieldType)) = .ok c := by
    rintro ⟨label, t⟩ hc
    rw [h label t hc]
    rfl
  have hparts : ((surveyMembers reading source (FieldType.payloadCases cases)).map
      fun p => (p.1, p.2.asType)).map
        (fun p => (Prod.mk p.1 <$> p.2).under p.1) = cases.map .ok := by
    rw [payloadCases_eq, surveyMembers_eq, List.map_map, List.map_map, List.map_map]
    exact List.map_congr_left hread
  show Fields.ofPairs <$> Checked.all (((surveyMembers reading source
    (FieldType.payloadCases cases)).map fun p => (p.1, p.2.asType)).map
      fun p => (Prod.mk p.1 <$> p.2).under p.1) = _
  rw [hparts, Checked.all_ok, Checked.map_ok, Fields.ofPairs_of_nodup labels]

include hreading

/-- A union is read as it was written, if the types of its cases are. -/
theorem readType_union {discriminant enumName : Text} {cases : List (Text × FieldType)}
    (labels : (cases.map (·.1)).Nodup)
    (h : ∀ label t, (label, t) ∈ cases → readType reading source t.toPayload = .ok t) :
    readType reading source (FieldType.union discriminant enumName cases).toPayload =
      .ok (.union discriminant enumName cases) := by
  rw [readType_of_kind source "Match" rfl rfl]
  generalize hms : surveyMembers reading source _ = ms
  have hdiscriminant : required ms ["discriminant"] (readText reading) = .ok discriminant := by
    subst hms
    exact required_of_get? rfl (readText_text hreading rfl)
  have hname : required ms ["enumTypeName", "enum_type_name"] (readText reading) =
      .ok enumName := by
    subst hms
    exact required_of_get? rfl (readText_text hreading rfl)
  have hcases : required ms ["cases"] readCases = .ok cases := by
    subst hms
    exact required_of_get? rfl (readCases_payloadCases source labels h)
  have helse : nothingElse ms
      [["kind"], ["discriminant"], ["enumTypeName", "enum_type_name"], ["cases"]] = .ok () := by
    subst hms
    rfl
  rw [readUnion, hdiscriminant, hname, hcases, helse]
  rfl

/-- A type is read as it was written. -/
theorem readType_toPayload {P : Vocabulary} {t : FieldType} (h : t.Regular P) :
    readType reading source t.toPayload = .ok t := by
  induction h with
  | int => exact readType_int hreading source _ _ _
  | float => exact readType_float hreading source _ _
  | text => exact readType_text hreading source _ _
  | enum => exact readType_enum hreading source _ _ _ _
  | struct => exact readType_struct hreading source _
  | array _ _ ih => exact readType_array hreading source _ ih
  | union _ _ hnodup _ _ ih => exact readType_union hreading source hnodup ih

omit hreading

/-! ### Declarations -/

/-- Items are read one by one; `start` is only the place under which problems would be reported. -/
theorem all_readItems {α : Type} {read : Value → Checked α} {toValue : α → Value} {as : List α}
    (h : ∀ a ∈ as, read (toValue a) = .ok a) (start : Nat) :
    Checked.all (((as.map toValue).zipIdx start).map fun (v, i) => (read v).under (toString i)) =
      .ok as := by
  induction as generalizing start with
  | nil => rfl
  | cons a as ih =>
      have hhead : (read (toValue a)).under (toString start) = .ok a := by
        rw [h a List.mem_cons_self]
        rfl
      rw [List.map_cons, List.zipIdx_cons, List.map_cons, Checked.all,
        ih fun b hb => h b (List.mem_cons_of_mem _ hb)]
      dsimp only
      rw [hhead]
      rfl

theorem readItems_map {α : Type} {read : Value → Checked α} {toValue : α → Value} {as : List α}
    (h : ∀ a ∈ as, read (toValue a) = .ok a) : readItems read (as.map toValue) = .ok as :=
  all_readItems h 0

include hreading

/-- What a declaration lists, each item with its name, is read as it was written. -/
theorem readPairs_map {α : Type} {second : Value → Checked α} {toValue : α → Value}
    {pairs : List (Text × α)} (h : ∀ p ∈ pairs, second (toValue p.2) = .ok p.2) {m : Member}
    (hm : m.value = .list (pairs.map fun p => .list [.text p.1, toValue p.2])) :
    readPairs (.ofExcept <| reading.text ·) second m = .ok pairs := by
  have hread : readItems (readPair (.ofExcept <| reading.text ·) second)
      (pairs.map fun p => .list [.text p.1, toValue p.2]) = .ok pairs := by
    refine readItems_map fun p hp => ?_
    show Prod.mk <$> (Checked.ofExcept (reading.text (.text p.1))).under "0" <*>
      (second (toValue p.2)).under "1" = _
    rw [hreading.text, h p hp]
    rfl
  rw [readPairs, hm]
  exact hread

/-- A struct is read as it was written, if its types are. -/
theorem readDefinition_struct {P : Vocabulary} {s : StructDef} (h : s.Regular P) :
    readDefinition reading source (Definition.struct s).toPayload = .ok (.struct s) := by
  show Checked.under "Struct" ((fun name fields _ => Definition.struct ⟨name, fields⟩) <$>
    required (plainMembers _) ["name"] (readText reading) <*>
    optional (plainMembers _) "fields" []
      (readPairs (.ofExcept <| reading.text ·) (readType reading source)) <*>
    Checked.ok ()) = _
  rw [required_of_get? rfl (readText_text hreading rfl),
    optional_of_get? rfl (readPairs_map hreading
      (fun p hp => readType_toPayload hreading source (h.fields p.1 p.2 hp).2) rfl)]
  rfl

/-- An enum is read as it was written, whatever its codes. -/
theorem readDefinition_enum (e : EnumDef) :
    readDefinition reading source (Definition.enum e).toPayload = .ok (.enum e) := by
  have hcode : ∀ p ∈ e.entries, Checked.ofExcept (reading.integer (.int p.2)) = .ok p.2 := by
    intro p _
    rw [hreading.integer]
    rfl
  show Checked.under "Enum" ((fun name entries _ => Definition.enum ⟨name, entries⟩) <$>
    required (plainMembers _) ["name"] (readText reading) <*>
    optional (plainMembers _) "entries" []
      (readPairs (.ofExcept <| reading.text ·) (.ofExcept <| reading.integer ·)) <*>
    Checked.ok ()) = _
  rw [required_of_get? rfl (readText_text hreading rfl),
    optional_of_get? rfl (readPairs_map hreading hcode rfl)]
  rfl

end Payload

/-! ### Schemas -/

namespace Schema

/-- Declarations of names that do not repeat are a schema. -/
theorem ofDefinitions_eq {definitions : List Definition} {structs : List StructDef}
    {enums : List EnumDef} (hs : definitions.filterMap (·.struct?) = structs)
    (he : definitions.filterMap (·.enum?) = enums)
    (names : (enums.map (·.name) ++ structs.map (·.name)).Nodup) :
    ofDefinitions definitions = .ok ⟨structs, enums, names⟩ := by
  subst hs he
  exact dif_pos names

/-- A schema consists of its own declarations. -/
theorem ofDefinitions_definitions (schema : Schema) :
    ofDefinitions schema.definitions = .ok schema := by
  refine ofDefinitions_eq ?_ ?_ schema.names_nodup
  · rw [definitions, List.filterMap_append, List.filterMap_map, List.filterMap_map]
    simp [Function.comp_def, Definition.struct?]
  · rw [definitions, List.filterMap_append, List.filterMap_map, List.filterMap_map]
    simp [Function.comp_def, Definition.enum?]

/-- A schema is read as it was written. -/
theorem ofPayload_toPayload {P : Vocabulary} {reading : Reading} (hreading : reading.Plain)
    (source : PayloadSource) {schema : Schema} (h : schema.Regular P) :
    ofPayload reading source schema.toPayload = .ok schema := by
  have hread : Payload.readItems (Payload.readDefinition reading source)
      (schema.definitions.map (·.toPayload)) = .ok schema.definitions := by
    refine Payload.readItems_map fun d hd => ?_
    rcases List.mem_append.mp hd with hd | hd
    · obtain ⟨e, -, rfl⟩ := List.mem_map.mp hd
      exact Payload.readDefinition_enum hreading source e
    · obtain ⟨s, hs, rfl⟩ := List.mem_map.mp hd
      exact Payload.readDefinition_struct hreading source (h.structs s hs)
  rw [ofPayload, toPayload, Payload.readDefinitions, hread]
  dsimp only
  rw [ofDefinitions_definitions]
  rfl

end Schema

end WireSchema
