import WireSchema.Proofs.Codec.Conforming
import WireSchema.Proofs.Number.Nearest

/-!
# Codec — Canonical values

What is read is written without gaps (`exists_writes_of_spells`), and where the strings and floats
that were read are clean, as the bits that were read (`writes_of_spells`). If every scalar in a
value that is written without gaps is canonical, one that its field can hold exactly, then what is
written is a message that is read as the same value (`spells_of_writes`).

`Holds schema siblings t v u w` says that the value `v` of type `t` holds, somewhere inside, the
value `w` of type `u`; it follows the cases that the members of a struct select.
-/

namespace WireSchema

/-- In `v` as a value of type `t` lies `w` as a value of type `u`. -/
inductive Holds (schema : Schema) : Fields → FieldType → Value → FieldType → Value → Prop
  | self {siblings t v} : Holds schema siblings t v t v
  | field {siblings name s members field t u w} (declared : schema.struct? name = some s)
      (mem : (field, t) ∈ s.fields)
      (inside : Holds schema members t ((Fields.get? members field).getD .null) u w) :
      Holds schema siblings (.struct name) (.map members) u w
  | element {siblings element length items v u w} (mem : v ∈ items)
      (inside : Holds schema siblings element v u w) :
      Holds schema siblings (.array element length) (.list items) u w
  | case {siblings discriminant enumName cases label t v u w}
      (chosen : siblings.label? discriminant = some label) (case : Fields.get? cases label = some t)
      (inside : Holds schema siblings t v u w) :
      Holds schema siblings (.union discriminant enumName cases) v u w

/-- A scalar that its field can hold exactly: an integer within its width, a float that is a number
and of the precision of the field, a text that its charset gives back. -/
def FieldType.Canonical : FieldType → Value → Prop
  | .int signed width _, .int i => Bits.fits signed width.bits i = true
  | .float .f32 _, v => ∃ y : Binary32, y.isNaN = false ∧ v = .float (Binary64.widen y)
  | .float .f64 _, v => ∃ x : Binary64, x.isNaN = false ∧ v = .float x
  | .text charset _, .text s => charset.Canonical s
  | _, _ => True

/-- Every scalar in a value is canonical. -/
def Schema.Canonical (schema : Schema) (siblings : Fields) (t : FieldType) (v : Value) : Prop :=
  ∀ u w, Holds schema siblings t v u w → u.Canonical w

namespace Schema.Canonical

variable {schema : Schema} {siblings : Fields}

/-- A value in which nothing else lies is canonical if its type takes it. -/
theorem scalar {t : FieldType} {v : Value} (h : t.Canonical v)
    (hs : ∀ u w, Holds schema siblings t v u w → u = t ∧ w = v) :
    schema.Canonical siblings t v := by
  intro u w hin
  obtain ⟨rfl, rfl⟩ := hs u w hin
  exact h

/-- An integer is canonical if it fits. -/
theorem int {signed : Bool} {width : BitWidth} {default? : Option Int} {i : Int}
    (h : Bits.fits signed width.bits i = true) :
    schema.Canonical siblings (.int signed width default?) (.int i) :=
  scalar h fun _ _ hin => by cases hin; exact ⟨rfl, rfl⟩

/-- A text is canonical if its charset gives it back. -/
theorem text {charset : Charset} {default? : Option Text} {s : Text}
    (h : charset.Canonical s) : schema.Canonical siblings (.text charset default?) (.text s) :=
  scalar h fun _ _ hin => by cases hin; exact ⟨rfl, rfl⟩

/-- Whatever is given for an enum is canonical. -/
theorem enum {name : Text} {signed : Bool} {width : BitWidth} {default? : Option Text}
    {v : Value} : schema.Canonical siblings (.enum name signed width default?) v :=
  scalar trivial fun _ _ hin => by cases hin; exact ⟨rfl, rfl⟩

/-- A struct is canonical if its fields are, each with the others for siblings. -/
theorem struct {name : Text} {s : StructDef} {members : Fields}
    (declared : schema.struct? name = some s)
    (h : ∀ f ∈ s.fields, schema.Canonical members f.2 ((Fields.get? members f.1).getD .null)) :
    schema.Canonical siblings (.struct name) (.map members) := by
  intro u w hin
  cases hin with
  | self => trivial
  | field declared' mem inside =>
      cases declared.symm.trans declared'
      exact h _ mem u w inside

/-- An array is canonical if its items are. -/
theorem array {element : FieldType} {length : ArrayLength} {items : List Value}
    (h : ∀ v ∈ items, schema.Canonical siblings element v) :
    schema.Canonical siblings (.array element length) (.list items) := by
  intro u w hin
  cases hin with
  | self => trivial
  | element mem inside => exact h _ mem u w inside

/-- A union is canonical if the value is in the case that is chosen. -/
theorem union {discriminant enumName label : Text} {cases : List (Text × FieldType)}
    {t : FieldType} {v : Value} (chosen : siblings.label? discriminant = some label)
    (case : Fields.get? cases label = some t) (h : schema.Canonical siblings t v) :
    schema.Canonical siblings (.union discriminant enumName cases) v := by
  intro u w hin
  cases hin with
  | self => trivial
  | case chosen' case' inside =>
      cases chosen.symm.trans chosen'
      cases case.symm.trans case'
      exact h u w inside

end Schema.Canonical

namespace Schema

/-- Two nodes of a chain, the first with two samples. -/
def chainValue : Value :=
  .map
    [("length", .int 2), ("kind", .text "node"), ("samples", .list [.int 3, .int (-4)]),
      ("body",
        .map
          [("length", .int 0), ("kind", .text "leaf"), ("samples", .list []),
            ("body", .text "hé")])]

theorem canonical_chainValue : chain.Canonical [] (.struct "Node") chainValue := by
  have hbody : Charset.utf8.Canonical "hé" := Charset.canonical_utf8_iff.mpr (by decide +kernel)
  refine .struct rfl (List.forall_mem_cons.mpr ⟨.int rfl, List.forall_mem_cons.mpr ⟨.enum,
    List.forall_mem_cons.mpr ⟨.array ?_, List.forall_mem_cons.mpr ⟨.union rfl rfl ?_,
      List.forall_mem_nil _⟩⟩⟩⟩)
  · exact List.forall_mem_cons.mpr ⟨.int rfl, List.forall_mem_cons.mpr ⟨.int rfl,
      List.forall_mem_nil _⟩⟩
  · exact .struct rfl (List.forall_mem_cons.mpr ⟨.int rfl, List.forall_mem_cons.mpr ⟨.enum,
      List.forall_mem_cons.mpr ⟨.array (List.forall_mem_nil _), List.forall_mem_cons.mpr
        ⟨.union rfl rfl (.text hbody), List.forall_mem_nil _⟩⟩⟩⟩)

end Schema

namespace Write

/-! ### Floats on the wire -/

/-- A single that was widened is written as it was. -/
theorem float32Bytes_widen {y : Binary32} (h : y.isNaN = false) :
    float32Bytes (Binary64.widen y) = littleEndian 4 y.pattern := by
  rw [float32Bytes, Binary64.narrow_widen h]

/-- The bytes of a single are read as the single, widened. -/
theorem ofSingleBytes_littleEndian (y : Binary32) :
    Binary64.ofSingleBytes (littleEndian 4 y.pattern) = Binary64.widen y := by
  rw [Binary64.ofSingleBytes, ofLittleEndian_littleEndian y.lt, Binary.ofNat_pattern]

/-- The bytes of a double are read as the double. -/
theorem ofDoubleBytes_littleEndian (x : Binary64) :
    Binary64.ofDoubleBytes (littleEndian 8 x.pattern) = x := by
  rw [Binary64.ofDoubleBytes, ofLittleEndian_littleEndian x.lt, Binary.ofNat_pattern]

theorem pattern_ofNat {f : Format} {n : Nat} (h : n < 2 ^ f.width) :
    (Binary.ofNat f n).pattern = n :=
  Nat.mod_eq_of_lt h

/-- Four bytes that are a number are read and written again. -/
theorem float32Bytes_ofSingleBytes {bytes : List UInt8} (hl : bytes.length = 4)
    (h : (Binary64.ofSingleBytes bytes).isNaN = false) :
    float32Bytes (Binary64.ofSingleBytes bytes) = bytes := by
  rw [Binary64.ofSingleBytes, Binary64.isNaN_widen] at h
  have hlt := ofLittleEndian_lt bytes
  rw [hl] at hlt
  rw [Binary64.ofSingleBytes, float32Bytes_widen h, pattern_ofNat hlt, ← hl,
    littleEndian_ofLittleEndian]

/-- Eight bytes are read and written again, whatever they are. -/
theorem float64Bytes_ofDoubleBytes {bytes : List UInt8} (hl : bytes.length = 8) :
    float64Bytes (Binary64.ofDoubleBytes bytes) = bytes := by
  have hlt := ofLittleEndian_lt bytes
  rw [hl] at hlt
  rw [float64Bytes, Binary64.ofDoubleBytes, pattern_ofNat hlt, ← hl, littleEndian_ofLittleEndian]

end Write

/-! ### What is read is written -/

variable {schema : Schema}

namespace Writes

variable {siblings : Fields}

/-- The bits of an integer are read and written again. -/
theorem coded {bs : Bits} {signed : Bool} {width : BitWidth} (hl : bs.length = width.bits) :
    Bits.ofInt width.bits (Bits.integer signed bs) = bs := by
  rw [← hl, Bits.ofInt_integer]

theorem integer {signed : Bool} {width : BitWidth} {default? : Option Int} {bs : Bits}
    (hl : bs.length = width.bits) :
    Writes schema false siblings (.int signed width default?) (.int (Bits.integer signed bs))
      bs := by
  have h : Writes schema false siblings (.int signed width default?)
    (.int (Bits.integer signed bs)) (Bits.ofInt width.bits (Bits.integer signed bs)) := .int
  rwa [coded hl] at h

/-- A label is written as the bits from which its code was read. -/
theorem label (hc : schema.Consistent) {name label : Text} {e : EnumDef} {signed : Bool}
    {width : BitWidth} {default? : Option Text} {bs : Bits} (he : schema.enum? name = some e)
    (hl : bs.length = width.bits) (hf : e.labelOf? (Bits.integer signed bs) = some label) :
    Writes schema false siblings (.enum name signed width default?) (.text label) bs := by
  have h : Writes schema false siblings (.enum name signed width default?) (.text label)
      (Bits.ofInt width.bits (Bits.integer signed bs)) :=
    .enum he (EnumDef.codeOf?_of_labelOf? (hc.labels_nodup he) hf)
  rwa [coded hl] at h

end Writes

mutual

/-- What is read is written without gaps, and if the strings and floats that were read are clean, as
the bits that were read. -/
theorem exists_writes_of_spells (hc : schema.Consistent) {siblings : Fields} {t : FieldType}
    {v : Value} {bs : Bits} {raws : List Raw} : Spells schema siblings t v bs raws →
    ∃ cs, Writes schema false siblings t v cs ∧ ((∀ raw ∈ raws, raw.Clean) → cs = bs)
  | .int hl => ⟨bs, .integer hl, fun _ => rfl⟩
  | .single hl => ⟨_, .single rfl, fun hr =>
      congrArg _ (Write.float32Bytes_ofSingleBytes hl (hr _ List.mem_cons_self))⟩
  | .double hl => ⟨_, .double rfl, fun _ => congrArg _ (Write.float64Bytes_ofDoubleBytes hl)⟩
  | .text _ => ⟨_, .text, fun hr => by
      rw [Charset.encode_decodeText (hr _ List.mem_cons_self)]⟩
  | .enum declared hl found => ⟨bs, .label hc declared hl found, fun _ => rfl⟩
  | .struct declared fields => by
      obtain ⟨cs, hw, hr⟩ := exists_writesFields_of_spells hc fields
        (hc.fields_sound declared).names.1
      exact ⟨cs, .struct declared (fun _ _ hm => fields.mem_names hm) hw, hr⟩
  | .array counted elements => by
      obtain ⟨cs, hw, hr⟩ := exists_writesElements_of_spells hc elements
      exact ⟨cs, .array counted (fun _ => rfl) hw, hr⟩
  | .union chosen case value => by
      obtain ⟨cs, hw, hr⟩ := exists_writes_of_spells hc value
      exact ⟨cs, .union chosen case hw, hr⟩

/-- So it is with items, one behind the other. -/
theorem exists_writesElements_of_spells (hc : schema.Consistent) {siblings : Fields}
    {t : FieldType} {items : List Value} {bs : Bits} {raws : List Raw} :
    SpellsElements schema siblings t items bs raws →
    ∃ cs, WritesElements schema false siblings t items.length items cs ∧
      ((∀ raw ∈ raws, raw.Clean) → cs = bs)
  | .nil => ⟨[], .nil, fun _ => rfl⟩
  | .cons first rest => by
      obtain ⟨cs, hw, hr⟩ := exists_writes_of_spells hc first
      obtain ⟨ds, hws, hrs⟩ := exists_writesElements_of_spells hc rest
      refine ⟨cs ++ ds, .cons (.given first.ne_null) hw hws, fun h => ?_⟩
      obtain ⟨h, hs⟩ := List.forall_mem_append.mp h
      rw [hr h, hrs hs]

/-- So it is with fields, as long as no name comes twice. -/
theorem exists_writesFields_of_spells (hc : schema.Consistent) {fields : List (Text × FieldType)}
    {read all : Fields} {bs : Bits} {raws : List Raw} :
    SpellsFields schema fields read all bs raws → (fields.map (·.1)).Nodup →
    ∃ cs, WritesFields schema false all fields read cs ∧ ((∀ raw ∈ raws, raw.Clean) → cs = bs)
  | .nil, _ => ⟨[], .nil, fun _ => rfl⟩
  | .cons first rest, hn => by
      obtain ⟨hname, hn⟩ := List.nodup_cons.mp hn
      have hg := (rest.get?_of_notMem hname).trans Fields.get?_put_self
      obtain ⟨cs, hw, hr⟩ := exists_writes_of_spells hc first
      obtain ⟨ds, hws, hrs⟩ := exists_writesFields_of_spells hc rest hn
      refine ⟨cs ++ ds, .cons ?_ hw hws, fun h => ?_⟩
      · rw [hg]
        exact .given first.ne_null
      · obtain ⟨h, hs⟩ := List.forall_mem_append.mp h
        rw [hr h, hrs hs]

end

/-- Where strings and floats are clean, a message is what its value is written as. -/
theorem writes_of_spells (hc : schema.Consistent) {siblings : Fields} {t : FieldType} {v : Value}
    {bs : Bits} {raws : List Raw} (h : Spells schema siblings t v bs raws)
    (hr : ∀ raw ∈ raws, raw.Clean) : Writes schema false siblings t v bs := by
  obtain ⟨cs, hw, heq⟩ := exists_writes_of_spells hc h
  exact heq hr ▸ hw

/-! ### What is canonical is read as written -/

namespace Spells

variable {read : Fields}

/-- An integer that fits is read as it is written. -/
theorem integer {signed : Bool} {width : BitWidth} {default? : Option Int} {i : Int}
    (h : Bits.fits signed width.bits i = true) :
    Spells schema read (.int signed width default?) (.int i) (Bits.ofInt width.bits i) [] := by
  have hs : Spells schema read (.int signed width default?)
      (.int (Bits.integer signed (Bits.ofInt width.bits i))) (Bits.ofInt width.bits i) [] :=
    .int (Bits.length_ofInt _ _)
  rwa [Bits.integer_ofInt width.pos h] at hs

/-- A label is read from the bits of its code, if they hold the code. -/
theorem label (hc : schema.Consistent) {name label : Text} {e : EnumDef} {signed : Bool}
    {width : BitWidth} {default? : Option Text} {code : Int} (he : schema.enum? name = some e)
    (hfit : Bits.fits signed width.bits code = true) (hcode : e.codeOf? label = some code) :
    Spells schema read (.enum name signed width default?) (.text label)
      (Bits.ofInt width.bits code) [] := by
  refine .enum he (Bits.length_ofInt _ _) ?_
  rw [Bits.integer_ofInt width.pos hfit]
  exact EnumDef.labelOf?_of_codeOf? (hc.codes_nodup he) hcode

/-- Any double is read from a single's bits as what is left of it. -/
theorem narrowFloat (x : Binary64) (default? : Option Binary64) :
    Spells schema read (.float .f32 default?) (.float (Binary64.widen x.narrow))
      (Bits.ofBytes (Write.float32Bytes x)) [.float (Binary64.widen x.narrow)] := by
  have hs : Spells schema read (.float .f32 default?) _ _ _ :=
    .single (length_littleEndian 4 x.narrow.pattern)
  rwa [Write.ofSingleBytes_littleEndian] at hs

/-- A double that is a single is read as it is written. -/
theorem singleFloat {y : Binary32} (default? : Option Binary64) (hn : y.isNaN = false) :
    Spells schema read (.float .f32 default?) (.float (Binary64.widen y))
      (Bits.ofBytes (Write.float32Bytes (Binary64.widen y))) [.float (Binary64.widen y)] := by
  have hs : Spells schema read (.float .f32 default?) _ _ _ :=
    narrowFloat (Binary64.widen y) default?
  rwa [Binary64.narrow_widen hn] at hs

theorem doubleFloat (x : Binary64) (default? : Option Binary64) :
    Spells schema read (.float .f64 default?) (.float x) (Bits.ofBytes (Write.float64Bytes x))
      [.float x] := by
  have hs : Spells schema read (.float .f64 default?) _ _ _ :=
    .double (length_littleEndian 8 x.pattern)
  rwa [Write.ofDoubleBytes_littleEndian] at hs

/-- A text that its charset gives back is read as it is written. -/
theorem string {charset : Charset} {s : Text} (default? : Option Text)
    (h : charset.Canonical s) :
    Spells schema read (.text charset default?) (.text s)
      (Bits.ofBytes (charset.encode s ++ [0])) [.text charset (charset.encode s)] := by
  have hs : Spells schema read (.text charset default?) _ _ _ :=
    .text (Charset.zero_not_mem_encode_of_canonical h)
  rwa [Charset.decodeText_encode h] at hs

end Spells

/-- Members with declared names only are the same map as what is read, if they are so field by
field. -/
theorem SpellsFields.same_map {fields : List (Text × FieldType)} {members all : Fields} {bs : Bits}
    {raws : List Raw} (h : SpellsFields schema fields [] all bs raws)
    (hexact : ∀ name ∈ members.map (·.1), name ∈ fields.map (·.1))
    (hsame : ∀ name ∈ fields.map (·.1),
      Option.Rel Value.Same (Fields.get? members name) (Fields.get? all name)) :
    Value.Same (.map members) (.map all) := by
  refine .map fun name => ?_
  by_cases hm : name ∈ fields.map (·.1)
  · exact hsame name hm
  · -- what is not declared is in neither of them
    rw [h.get?_of_notMem hm, Fields.get?_eq_none_iff.mpr fun hn => hm (hexact name hn)]
    exact .none

mutual

/-- A canonical value is written as a message that is read as the same value. -/
theorem spells_of_writes (hc : schema.Consistent) {written : Fields} {t : FieldType} {v : Value}
    {bs : Bits} : Writes schema false written t v bs →
    ∀ {earlier : Consistency.Earlier} {siblings read : Fields}, schema.Sound earlier t →
      Siblings.Agree earlier siblings written → written.Same read →
      schema.Canonical siblings t v →
      ∃ w raws, Spells schema read t w bs raws ∧ v.Same w
  | .int, _, _, _, _, _, _, hcan => ⟨_, _, .integer (hcan _ _ .self), .int _⟩
  | .single hx, _, _, _, _, _, _, hcan => by
      obtain ⟨y, hn, rfl⟩ := hcan _ _ .self
      cases hx
      exact ⟨_, _, .singleFloat _ hn, .float _⟩
  | .double hx, _, _, _, _, _, _, hcan => by
      obtain ⟨x, -, rfl⟩ := hcan _ _ .self
      cases hx
      exact ⟨_, _, .doubleFloat _ _, .float _⟩
  | .text, _, _, _, _, _, _, hcan => ⟨_, _, .string _ (hcan _ _ .self), .text _⟩
  | .enum declared known, _, _, _, sound, _, _, _ => by
      cases sound with
      | enum declared' fit _ =>
          cases declared.symm.trans declared'
          exact ⟨_, _, .label hc declared (fit _ (EnumDef.codeOf?_mem known)) known, .text _⟩
  | .struct declared exact fields, _, _, _, _, _, _, hcan => by
      obtain ⟨all, raws, hs, hsame⟩ := spellsFields_of_writes hc fields
        (hc.fields_sound declared) .nil .nil
        fun name t hm u w hin => hcan u w (.field declared hm hin)
      exact ⟨.map all, raws, .struct declared hs, hs.same_map (exact rfl) hsame⟩
  | .array counted exact elements, _, _, _, sound, agree, same, hcan => by
      cases sound with
      | array hdyn inner =>
          obtain ⟨ws, raws, hs, hsame⟩ := spellsElements_of_writes hc elements (exact rfl) inner
            agree same fun v hv u w hin => hcan u w (.element hv hin)
          -- the length comes out of a sibling that is read as it was written
          refine ⟨.list ws, raws, .array ?_ hs, .list hsame⟩
          rw [← same.resolve_eq, counted, ← hsame.length_eq, exact rfl]
  | .union chosen case value, _, _, _, sound, agree, same, hcan => by
      cases sound with
      | union _ hd _ inner =>
          have hl := (agree.label?_eq hd).trans chosen
          obtain ⟨w, raws, hs, hsame⟩ := spells_of_writes hc value
            (inner _ _ (Fields.mem_of_get? case)) agree same
            fun u w hin => hcan u w (.case hl case hin)
          exact ⟨w, raws, .union ((same.label?_eq _).symm.trans chosen) case hs, hsame⟩

/-- So it is with items, each the same as the one that was written. -/
theorem spellsElements_of_writes (hc : schema.Consistent) {written : Fields} {t : FieldType}
    {count : Nat} {items : List Value} {bs : Bits} :
    WritesElements schema false written t count items bs → items.length = count →
    ∀ {earlier : Consistency.Earlier} {siblings read : Fields}, schema.Sound earlier t →
      Siblings.Agree earlier siblings written → written.Same read →
      (∀ v ∈ items, schema.Canonical siblings t v) →
      ∃ ws raws, SpellsElements schema read t ws bs raws ∧ List.Forall₂ Value.Same items ws
  | .nil, hl, _, _, _, _, _, _, _ => by
      rw [List.length_eq_zero_iff.mp hl]
      exact ⟨[], [], .nil, .nil⟩
  | .cons stands first rest, hl, _, _, _, sound, agree, same, hcan => by
      have hv := stands.eq_of_ne_null stands.ne_null_of_exact
      have hlen := List.length_tail.trans (congrArg (· - 1) hl)
      obtain ⟨w, raws, hs, hsame⟩ := spells_of_writes hc first sound agree same
        (hv ▸ hcan _ (Encode.headD_mem hl))
      obtain ⟨ws, more, hss, hsames⟩ := spellsElements_of_writes hc rest hlen sound agree same
        fun v hm => hcan v (List.mem_of_mem_tail hm)
      refine ⟨w :: ws, raws ++ more, .cons hs hss, ?_⟩
      rw [← Encode.cons_headD_tail hl, ← hv]
      exact .cons hsame hsames

/-- So it is with fields, each read beside the same siblings as it was written. -/
theorem spellsFields_of_writes (hc : schema.Consistent) {members : Fields}
    {fields : List (Text × FieldType)} {written : Fields} {bs : Bits} :
    WritesFields schema false members fields written bs →
    ∀ {earlier : Consistency.Earlier} {read : Fields}, schema.SoundFields fields earlier →
      Siblings.Agree earlier members written → written.Same read →
      (∀ name t, (name, t) ∈ fields →
        schema.Canonical members t ((Fields.get? members name).getD .null)) →
      ∃ all raws, SpellsFields schema fields read all bs raws ∧ ∀ name ∈ fields.map (·.1),
        Option.Rel Value.Same (Fields.get? members name) (Fields.get? all name)
  | .nil, _, read, _, _, _, _ => ⟨read, [], .nil, fun _ hm => nomatch hm⟩
  | .cons stands first rest, _, _, sound, agree, same, hcan => by
      have hname := (List.nodup_cons.mp sound.names.1).1
      obtain ⟨-, hsound, hrest⟩ := sound
      have hnull := stands.ne_null_of_exact
      have hv := stands.eq_of_ne_null hnull
      have hg := (Encode.get?_of_getD hnull).trans (congrArg some hv.symm)
      obtain ⟨w, raws, hs, hsame⟩ := spells_of_writes hc first hsound agree same
        (hv ▸ hcan _ _ List.mem_cons_self)
      obtain ⟨all, more, hss, hsames⟩ := spellsFields_of_writes hc rest hrest
        (agree.put fun _ => hg) (same.put _ hsame)
        fun name t hm => hcan name t (List.mem_cons_of_mem _ hm)
      refine ⟨all, raws ++ more, .cons hs hss, fun name hm => ?_⟩
      rcases List.mem_cons.mp hm with rfl | hm
      · -- no later field has the name, so what is read of it stays
        rw [hg, hss.get?_of_notMem hname, Fields.get?_put_self]
        exact .some hsame
      · exact hsames name hm

end

end WireSchema
