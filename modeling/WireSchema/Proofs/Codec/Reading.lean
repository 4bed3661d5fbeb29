import WireSchema.Codec.Decode
import WireSchema.Proofs.Bits.Reading
import WireSchema.Proofs.Codec.Message
import WireSchema.Proofs.Consistency.Acyclic

/-!
# Codec — The decoder reads the grammar

A read that completes has read a message (`Decode.spells_of_run`), and of a consistent schema every
message is read to its end as what it spells (`Decode.run_of_spells`).

The first holds with whatever bound on the nesting of structs, by induction on the bound and on the
type. The second needs the bound to suffice. A struct is opened inside another either because it is
embedded, and then fewer structs are embedded in it, or for a label or a length that was read before
it, and then fewer bits are left for it. So the bits of a value and the rank of its type bound the
nesting from there on (`Decode.Room`).
-/

namespace WireSchema

namespace Decoding

/-- What was taken is what is read. -/
theorem ofTaken_eq_done_iff {α : Type} {c c' : Cursor} {toValue : α → Value}
    {taken : Option (α × Cursor)} {v : Value} :
    ofTaken c toValue taken = .done v c' ↔ ∃ a, taken = some (a, c') ∧ v = toValue a := by
  cases taken with
  | none => exact ⟨fun h => (nomatch h), fun ⟨_, h, _⟩ => (nomatch h)⟩
  | some p =>
      obtain ⟨a, rest⟩ := p
      constructor
      · intro h
        cases h
        exact ⟨a, rfl, rfl⟩
      · rintro ⟨b, hb, rfl⟩
        cases hb
        rfl

end Decoding

namespace Decode

variable {schema : Schema}

/-! ### Scalars -/

theorem integer_eq (signed : Bool) (width : BitWidth) (c : Cursor) :
    integer signed width.bits c =
      .ok ((c.take? width.bits).map fun (bs, rest) => (Bits.integer signed bs, rest)) := by
  have hw : (0 : Int) ≤ width.bits ∧ (width.bits : Int) ≤ wideLimit :=
    ⟨Int.natCast_nonneg _, Int.ofNat_le.mpr width.le⟩
  rw [integer, WidthError.check, if_pos hw]
  rfl

/-- An integer is read from as many bits as it is wide. -/
theorem integer_eq_some_iff {signed : Bool} {width : BitWidth} {c c' : Cursor} {i : Int} :
    (integer signed width.bits c = .ok (some (i, c'))) ↔
      ∃ bs : Bits, bs.length = width.bits ∧ i = Bits.integer signed bs ∧ c.Takes bs c' := by
  rw [integer_eq, Except.ok.injEq, Option.map_eq_some_iff]
  constructor
  · rintro ⟨⟨bs, rest⟩, ht, he⟩
    cases he
    obtain ⟨hl, h⟩ := Cursor.take?_eq_some_iff.mp ht
    exact ⟨bs, hl, rfl, h⟩
  · rintro ⟨bs, hl, rfl, h⟩
    exact ⟨(bs, c'), Cursor.take?_eq_some_iff.mpr ⟨hl, h⟩, rfl⟩

/-- What is made of bytes is read from as many bytes as it takes. -/
theorem map_bytes?_eq_some_iff {α : Type} {c c' : Cursor} {n : Nat} {f : List UInt8 → α} {a : α} :
    ((c.bytes? n).map fun (bytes, rest) => (f bytes, rest)) = some (a, c') ↔
      ∃ bytes, bytes.length = n ∧ a = f bytes ∧ c.Takes (Bits.ofBytes bytes) c' := by
  rw [Option.map_eq_some_iff]
  constructor
  · rintro ⟨⟨bytes, rest⟩, ht, he⟩
    cases he
    obtain ⟨hl, h⟩ := Cursor.bytes?_eq_some_iff.mp ht
    exact ⟨bytes, hl, rfl, h⟩
  · rintro ⟨bytes, hl, rfl, h⟩
    exact ⟨(bytes, c'), Cursor.bytes?_eq_some_iff.mpr ⟨hl, h⟩, rfl⟩

theorem float32?_eq_some_iff {c c' : Cursor} {x : Binary64} :
    c.float32? = some (x, c') ↔
      ∃ bytes, bytes.length = 4 ∧ x = .ofSingleBytes bytes ∧ c.Takes (Bits.ofBytes bytes) c' :=
  map_bytes?_eq_some_iff (f := Binary64.ofSingleBytes)

theorem float64?_eq_some_iff {c c' : Cursor} {x : Binary64} :
    c.float64? = some (x, c') ↔
      ∃ bytes, bytes.length = 8 ∧ x = .ofDoubleBytes bytes ∧ c.Takes (Bits.ofBytes bytes) c' :=
  map_bytes?_eq_some_iff (f := Binary64.ofDoubleBytes)

/-! ### A completed read has read a message -/

/-- What is read to completion is a message of a type. -/
def Sound (schema : Schema) (siblings : Fields) (t : FieldType) (one : Path → Cursor → Decoding) :
    Prop :=
  ∀ path c v c', one path c = .done v c' →
    ∃ bs raws, Spells schema siblings t v bs raws ∧ c.Takes bs c'

theorem spells_of_elements {siblings : Fields} {t : FieldType} {one : Path → Cursor → Decoding}
    (hone : Sound schema siblings t one) {path : Path} {length count : Nat} :
    ∀ {read : List Value} {c c' : Cursor} {v : Value},
      elements one path length count read c = .done v c' →
      ∃ items bs raws, v = .list (read.reverse ++ items) ∧ items.length = count ∧
        SpellsElements schema siblings t items bs raws ∧ c.Takes bs c' := by
  induction count with
  | zero =>
      intro read c c' v h
      cases h
      exact ⟨[], [], [], by rw [List.append_nil], rfl, .nil, .refl c⟩
  | succ count ih =>
      intro read c c' v h
      rw [elements] at h
      split at h
      · next w rest hw =>
          obtain ⟨bs, raws, hs, ht⟩ := hone _ _ _ _ hw
          obtain ⟨items, cs, more, rfl, hl, hss, hts⟩ := ih h
          refine ⟨w :: items, bs ++ cs, raws ++ more, ?_, congrArg (· + 1) hl, .cons hs hss,
            ht.trans hts⟩
          rw [List.reverse_cons, List.append_assoc, List.singleton_append]
      · cases h
      · cases h

theorem spells_of_fields {one : Fields → FieldType → Path → Cursor → Decoding}
    {path : Path} {fields : List (Text × FieldType)}
    (hone : ∀ read name t, (name, t) ∈ fields → Sound schema read t (one read t)) :
    ∀ {read : Fields} {c c' : Cursor} {v : Value},
      Decode.fields one path fields read c = .done v c' →
        ∃ all bs raws, v = .map all ∧ SpellsFields schema fields read all bs raws ∧
          c.Takes bs c' := by
  induction fields with
  | nil =>
      intro read c c' v h
      cases h
      exact ⟨read, [], [], rfl, .nil, .refl c⟩
  | cons head fields ih =>
      obtain ⟨name, t⟩ := head
      intro read c c' v h
      rw [Decode.fields] at h
      split at h
      · next w rest hw =>
          obtain ⟨bs, raws, hs, ht⟩ := hone read name t List.mem_cons_self _ _ _ _ hw
          obtain ⟨all, cs, more, rfl, hss, hts⟩ :=
            ih (fun read name t hm => hone read name t (List.mem_cons_of_mem _ hm)) h
          exact ⟨all, bs ++ cs, raws ++ more, rfl, .cons hs hss, ht.trans hts⟩
      · cases h
      · cases h

/-- A case is read as the type that its label has. -/
theorem ofCase_eq (struct : Text → Path → Cursor → Decoding) (siblings : Fields) (label : Text)
    (cases : List (Text × FieldType)) (path : Path) (c : Cursor) :
    ofCase schema struct siblings label cases path c =
      ((Fields.get? cases label).map fun t => ofType schema struct siblings t path c).getD
        (.fail (.noReadCase label) path) :=
  Fields.first_eq (f := fun cases => ofCase schema struct siblings label cases path c) rfl
    (fun _ _ _ => rfl) cases

theorem sound_ofType {struct : Text → Path → Cursor → Decoding} {siblings : Fields}
    (hstruct : ∀ name, Sound schema siblings (.struct name) (struct name)) (t : FieldType) :
    Sound schema siblings t (ofType schema struct siblings t) := by
  induction t with
  | int signed width default? =>
      intro path c v c' h
      rw [ofType, integer_eq] at h
      obtain ⟨i, hi, rfl⟩ := Decoding.ofTaken_eq_done_iff.mp h
      obtain ⟨bs, hl, rfl, ht⟩ := integer_eq_some_iff.mp ((integer_eq ..).trans (congrArg _ hi))
      exact ⟨bs, [], .int hl, ht⟩
  | float width default? =>
      intro path c v c' h
      cases width with
      | f32 =>
          obtain ⟨x, hx, rfl⟩ := Decoding.ofTaken_eq_done_iff.mp h
          obtain ⟨bytes, hl, rfl, ht⟩ := float32?_eq_some_iff.mp hx
          exact ⟨_, _, .single hl, ht⟩
      | f64 =>
          obtain ⟨x, hx, rfl⟩ := Decoding.ofTaken_eq_done_iff.mp h
          obtain ⟨bytes, hl, rfl, ht⟩ := float64?_eq_some_iff.mp hx
          exact ⟨_, _, .double hl, ht⟩
  | text charset default? =>
      intro path c v c' h
      obtain ⟨chars, hx, rfl⟩ := Decoding.ofTaken_eq_done_iff.mp h
      obtain ⟨bytes, hz, rfl, ht⟩ := Cursor.text?_eq_some_iff.mp hx
      exact ⟨_, _, .text hz, ht⟩
  | enum name signed width default? =>
      intro path c v c' h
      rw [ofType] at h
      split at h
      · cases h
      · next e he =>
          split at h
          · cases h
          · cases h
          · next code rest hi =>
              obtain ⟨bs, hl, rfl, ht⟩ := integer_eq_some_iff.mp hi
              split at h
              · next label hf =>
                  cases h
                  exact ⟨bs, [], .enum he hl hf, ht⟩
              · cases h
  | struct name => exact hstruct name
  | array element length ih =>
      intro path c v c' h
      rw [ofType] at h
      split at h
      · cases h
      · next count hc =>
          obtain ⟨items, bs, raws, rfl, rfl, hs, ht⟩ := spells_of_elements ih h
          exact ⟨bs, raws, .array hc hs, ht⟩
  | union discriminant enumName cases ih =>
      intro path c v c' h
      rw [ofType] at h
      split at h
      · cases h
      · next label hl =>
          rw [ofCase_eq] at h
          cases hu : Fields.get? cases label with
          | none => rw [hu] at h; cases h
          | some t =>
              rw [hu] at h
              obtain ⟨bs, raws, hs, ht⟩ := ih label t (Fields.mem_of_get? hu) path c v c' h
              exact ⟨bs, raws, .union hl hu hs, ht⟩

theorem sound_ofStruct {depth : Nat} :
    ∀ (siblings : Fields) (name : Text),
      Sound schema siblings (.struct name) (ofStruct schema depth name) := by
  induction depth with
  | zero =>
      intro siblings name path c v c' h
      rw [ofStruct] at h
      split at h <;> cases h
  | succ depth ih =>
      intro siblings name path c v c' h
      rw [ofStruct] at h
      split at h
      · cases h
      · next s hs =>
          obtain ⟨all, bs, raws, rfl, hf, ht⟩ :=
            spells_of_fields (fun read _ t _ => sound_ofType (ih read) t) h
          exact ⟨bs, raws, .struct hs hf, ht⟩

/-- **What is read is a message.** -/
theorem spells_of_run {data : Array UInt8} {root : Text} {v : Value} {c : Cursor}
    (h : run schema data root = .done v c) :
    ∃ bs raws, Spells schema [] (.struct root) v bs raws ∧ (Cursor.ofBytes data).Takes bs c :=
  sound_ofStruct [] root _ _ _ _ h

/-! ### A message is read as what it spells -/

/-- A bound on nesting that suffices for a value of so many bits: for the structs embedded in it,
and for all others if a sibling may have chosen them. -/
structure Room (schema : Schema) (depth bits : Nat) (siblings : Fields) (t : FieldType) :
    Prop where
  embedded : ∀ name ∈ t.embedded, ∀ s, schema.struct? name = some s →
    bits * schema.structs.length + schema.rank name < depth
  resolved : siblings.Resolve → bits * schema.structs.length + schema.structs.length ≤ depth

namespace Room

variable {depth bits : Nat} {siblings : Fields}

theorem mono {t : FieldType} {fewer : Nat} (h : fewer ≤ bits)
    (room : Room schema depth bits siblings t) : Room schema depth fewer siblings t := by
  have hle := Nat.mul_le_mul_right schema.structs.length h
  refine ⟨fun name hn s hs => ?_, fun hr => ?_⟩
  · have := room.embedded name hn s hs
    omega
  · have := room.resolved hr
    omega

/-- What is room for the types that a sibling may choose is room for every type. -/
theorem of_le (ha : schema.Acyclic) (t : FieldType)
    (h : bits * schema.structs.length + schema.structs.length ≤ depth) :
    Room schema depth bits siblings t := by
  refine ⟨fun name _ s hs => ?_, fun _ => h⟩
  have := ha.rank_lt hs
  omega

theorem element (ha : schema.Acyclic) {element : FieldType} {length : ArrayLength} {count : Nat}
    (hl : length.resolve siblings = .ok count) (h₀ : 0 < count)
    (room : Room schema depth bits siblings (.array element length)) :
    Room schema depth bits siblings element := by
  cases length with
  | static n =>
      cases hl
      refine ⟨fun name hn => room.embedded name ?_, room.resolved⟩
      rw [FieldType.embedded, if_pos h₀]
      exact hn
  | dynamic field =>
      exact of_le ha element (room.resolved (Fields.resolve_of_dynamic hl))

theorem case (ha : schema.Acyclic) {discriminant enumName label : Text}
    {cases : List (Text × FieldType)} (hl : siblings.label? discriminant = some label)
    (room : Room schema depth bits siblings (.union discriminant enumName cases)) (t : FieldType) :
    Room schema depth bits siblings t :=
  of_le ha t (room.resolved (Fields.resolve_of_label? hl))

/-- In a struct that has room, the fields have room behind `before` bits of other fields. -/
theorem field (ha : schema.Acyclic) {name field : Text} {s : StructDef} {t : FieldType}
    {before behind : Nat} (hs : schema.struct? name = some s) (ht : (field, t) ∈ s.fields)
    (hd : (before + bits + behind) * schema.structs.length + schema.rank name ≤ depth)
    (hr : siblings.Resolve → 1 ≤ before) : Room schema depth bits siblings t := by
  refine ⟨fun inner hn s' hs' => ?_, fun hres => ?_⟩
  · -- an embedded struct has no more bits, but a lower rank
    have he : schema.Embeds inner name := ⟨s, hs, List.mem_flatMap.mpr ⟨_, ht, hn⟩⟩
    have hrank := ha.rank_lt_of_embeds hs' he
    have hle : bits * schema.structs.length ≤ (before + bits + behind) * schema.structs.length :=
      Nat.mul_le_mul_right _ (by omega)
    omega
  · -- what selects a type has taken a bit, which outweighs every rank
    have hle : (bits + 1) * schema.structs.length ≤
        (before + bits + behind) * schema.structs.length :=
      Nat.mul_le_mul_right _ (by have := hr hres; omega)
    rw [Nat.add_mul, Nat.one_mul] at hle
    omega

end Room

mutual

/-- A message is read as what it spells wherever it lies. -/
theorem done_of_spells (hc : schema.Consistent) {siblings : Fields} {t : FieldType} {v : Value}
    {bs : Bits} {raws : List Raw} : Spells schema siblings t v bs raws →
    ∀ {depth : Nat} {path : Path} {c c' : Cursor}, c.Takes bs c' →
      Room schema depth bs.length siblings t →
      ofType schema (ofStruct schema depth) siblings t path c = .done v c'
  | .int hl, _, _, _, _, ht, _ => by
      rw [ofType, integer_eq_some_iff.mpr ⟨bs, hl, rfl, ht⟩]
      rfl
  | .single hl, _, _, _, _, ht, _ => by
      rw [ofType, float32?_eq_some_iff.mpr ⟨_, hl, rfl, ht⟩]
      rfl
  | .double hl, _, _, _, _, ht, _ => by
      rw [ofType, float64?_eq_some_iff.mpr ⟨_, hl, rfl, ht⟩]
      rfl
  | .text hz, _, _, _, _, ht, _ => by
      rw [ofType, Cursor.text?_eq_some_iff.mpr ⟨_, hz, rfl, ht⟩]
      rfl
  | .enum declared hl found, _, _, _, _, ht, _ => by
      rw [ofType, declared]
      dsimp only
      rw [integer_eq_some_iff.mpr ⟨bs, hl, rfl, ht⟩]
      dsimp only
      rw [found]
  | .struct declared fields, depth, path, c, c', ht, room => by
      have hd := room.embedded _ (List.mem_singleton.mpr rfl) _ declared
      obtain ⟨depth, rfl⟩ := Nat.exists_eq_succ_of_ne_zero (Nat.ne_zero_of_lt hd)
      rw [ofType, ofStruct, declared]
      refine done_of_fields hc declared fields (fun _ hm => hm) (b := 0) ht ?_ ?_
      · rw [Nat.zero_add]
        omega
      · rintro ⟨_, _, hg, _⟩
        cases hg
  | .array counted elements, _, _, _, _, ht, room => by
      rw [ofType, counted]
      exact done_of_elements hc elements ht fun h₀ => room.element hc.acyclic counted h₀
  | .union chosen case value, _, path, c, _, ht, room => by
      rw [ofType, chosen]
      dsimp only
      rw [ofCase_eq, case]
      exact done_of_spells hc value ht (room.case hc.acyclic chosen _)

theorem done_of_elements (hc : schema.Consistent) {siblings : Fields} {t : FieldType}
    {items : List Value} {bs : Bits} {raws : List Raw} :
    SpellsElements schema siblings t items bs raws →
    ∀ {depth : Nat} {path : Path} {length : Nat} {read : List Value} {c c' : Cursor},
      c.Takes bs c' → (0 < items.length → Room schema depth bs.length siblings t) →
      elements (ofType schema (ofStruct schema depth) siblings t) path length items.length read c =
        .done (.list (read.reverse ++ items)) c'
  | .nil, _, _, _, _, _, _, ht, _ => by
      rw [List.append_nil, ht.unique (.refl _)]
      rfl
  | .cons first rest, _, _, _, _, _, _, ht, room => by
      obtain ⟨d, hb, hr⟩ := ht.split
      have room := room (Nat.succ_pos _)
      rw [List.length_append] at room
      rw [List.length_cons, elements, done_of_spells hc first hb (room.mono (by omega))]
      dsimp only
      rw [done_of_elements hc rest hr fun _ => room.mono (by omega), List.reverse_cons,
        List.append_assoc, List.singleton_append]

theorem done_of_fields (hc : schema.Consistent) {name : Text} {s : StructDef}
    (hs : schema.struct? name = some s) {fields : List (Text × FieldType)} {read all : Fields}
    {bs : Bits} {raws : List Raw} : SpellsFields schema fields read all bs raws →
    (∀ f ∈ fields, f ∈ s.fields) → ∀ {depth b : Nat} {path : Path} {c c' : Cursor},
      c.Takes bs c' → (b + bs.length) * schema.structs.length + schema.rank name ≤ depth →
      (read.Resolve → 1 ≤ b) →
      Decode.fields (ofType schema (ofStruct schema depth)) path fields read c =
        .done (.map all) c'
  | .nil, _, _, _, _, _, _, ht, _, _ => by
      rw [ht.unique (.refl _)]
      rfl
  | .cons first rest, hf, depth, b, _, _, _, ht, hd, hr => by
      obtain ⟨d, hb, hrest⟩ := ht.split
      rw [List.length_append, ← Nat.add_assoc] at hd
      have room := Room.field hc.acyclic hs (hf _ List.mem_cons_self) hd hr
      rw [Decode.fields, done_of_spells hc first hb room]
      dsimp only
      refine done_of_fields hc hs rest (fun f hm => hf f (List.mem_cons_of_mem _ hm)) hrest hd ?_
      intro hres
      -- whatever can be looked up has taken at least one bit
      rcases hres.of_put with hres | hv
      · have := hr hres
        omega
      · have := first.length_pos hv
        omega

end

/-- **A message is read as what it spells.** -/
theorem run_of_spells (hc : schema.Consistent) {data : Array UInt8} {root : Text} {v : Value}
    {bs : Bits} {raws : List Raw} (h : Spells schema [] (.struct root) v bs raws) {c : Cursor}
    (ht : (Cursor.ofBytes data).Takes bs c) : run schema data root = .done v c := by
  refine done_of_spells hc h ht ⟨fun name hn s hs => ?_, fun ⟨_, _, hg, _⟩ => nomatch hg⟩
  have hrank := hc.acyclic.rank_lt hs
  -- a message is no longer than the data it lies in
  have hle : bs.length ≤ 8 * data.size := by
    have := ht.position_eq
    have := c.position_le
    rw [ht.data_eq] at this
    show _ ≤ 8 * (Cursor.ofBytes data).data.size
    omega
  have := Nat.mul_le_mul_right schema.structs.length hle
  rw [depthBound, Nat.add_mul, Nat.one_mul]
  omega

end Decode

end WireSchema
