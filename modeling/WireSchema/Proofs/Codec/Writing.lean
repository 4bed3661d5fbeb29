import WireSchema.Codec.Encode
import WireSchema.Proofs.Bits.Packing
import WireSchema.Proofs.Codec.Message

/-!
# Codec — What the encoder writes

`Writes schema gaps siblings t v bs` holds when the bits `bs` are written for the value `v` as a
type, among the siblings written before it. With `gaps` the value may be partial: a member or an
element that is not given is filled with its default, elements beyond the length are dropped, and
members that are not declared are passed over. Without, the value is written as it is.

The encoder does what the relation says: what it accepts is written with gaps
(`Encode.writes_of_script`), and what is written without gaps it accepts, whatever its options on
arrays (`Encode.script_of_writes`). The second needs a bound on the nesting of structs; the depth of
the value suffices, since nothing is filled.

What becomes of a script depends on the options no further than that there may be too many bytes
(`Encode.Carries`), and there are four ways an encoding goes (`Schema.Encodes`).
-/

namespace WireSchema

/-- The value that stands for what is given of a type: itself, or with gaps the default. -/
inductive Stands (schema : Schema) (gaps : Bool) (siblings : Fields) (t : FieldType) :
    Value → Value → Prop
  | given {v} (hn : v.isNull = false) : Stands schema gaps siblings t v v
  | filled {given v} (hg : gaps = true) (hn : given.isNull = true)
      (hd : schema.defaultValue t siblings = .ok v) : Stands schema gaps siblings t given v

namespace Stands

variable {schema : Schema} {gaps : Bool} {siblings : Fields} {t : FieldType} {given v : Value}

/-- What is given stands for itself. -/
theorem eq_of_ne_null (h : Stands schema gaps siblings t given v) (hn : given.isNull = false) :
    v = given := by
  cases h with
  | given => rfl
  | filled _ hnull _ => exact absurd (hnull.symm.trans hn) Bool.noConfusion

/-- What is written is what is given, or the default in its place. -/
theorem given_or_filled (h : Stands schema gaps siblings t given v) :
    v = given ∧ given.isNull = false ∨
      gaps = true ∧ given.isNull = true ∧ schema.defaultValue t siblings = .ok v := by
  cases h with
  | given hn => exact Or.inl ⟨rfl, hn⟩
  | filled hg hn hd => exact Or.inr ⟨hg, hn, hd⟩

theorem ne_null_of_exact (h : Stands schema false siblings t given v) : given.isNull = false := by
  cases h with
  | given hn => exact hn
  | filled hg => cases hg

/-- What stands for a value is settled, whether gaps may be filled or not. -/
theorem unique {gaps' : Bool} {w : Value} (hv : Stands schema gaps siblings t given v)
    (hw : Stands schema gaps' siblings t given w) : v = w := by
  cases hv with
  | given hn => exact (hw.eq_of_ne_null hn).symm
  | filled _ hn hd =>
      cases hw with
      | given hn' => exact absurd (hn.symm.trans hn') Bool.noConfusion
      | filled _ _ hd' => exact Except.ok.inj (hd.symm.trans hd')

end Stands

section

variable (schema : Schema) (gaps : Bool)

mutual

/-- The bits `bs` are written for `v` as a value of a type among siblings. -/
inductive Writes : Fields → FieldType → Value → Bits → Prop
  | int {siblings signed default? i} {width : BitWidth} :
      Writes siblings (.int signed width default?) (.int i) (Bits.ofInt width.bits i)
  | single {siblings default? v x} (number : Encode.float? v = some x) :
      Writes siblings (.float .f32 default?) v (Bits.ofBytes (Write.float32Bytes x))
  | double {siblings default? v x} (number : Encode.float? v = some x) :
      Writes siblings (.float .f64 default?) v (Bits.ofBytes (Write.float64Bytes x))
  | text {siblings charset default? s} :
      Writes siblings (.text charset default?) (.text s)
        (Bits.ofBytes (charset.encode s ++ [0]))
  | enum {siblings name signed default? e label code} {width : BitWidth}
      (declared : schema.enum? name = some e) (known : e.codeOf? label = some code) :
      Writes siblings (.enum name signed width default?) (.text label)
        (Bits.ofInt width.bits code)
  | struct {siblings name s members bs} (declared : schema.struct? name = some s)
      (exact : gaps = false → ∀ field ∈ members.map (·.1), field ∈ s.fieldNames)
      (fields : WritesFields members s.fields [] bs) :
      Writes siblings (.struct name) (.map members) bs
  | array {siblings element length count items bs}
      (counted : length.resolve siblings = .ok count)
      (exact : gaps = false → items.length = count)
      (elements : WritesElements siblings element count items bs) :
      Writes siblings (.array element length) (.list items) bs
  | union {siblings discriminant enumName cases label t v bs}
      (chosen : siblings.label? discriminant = some label)
      (case : Fields.get? cases label = some t) (value : Writes siblings t v bs) :
      Writes siblings (.union discriminant enumName cases) v bs

/-- The bits written for so many elements. -/
inductive WritesElements : Fields → FieldType → Nat → List Value → Bits → Prop
  | nil {siblings t items} : WritesElements siblings t 0 items []
  | cons {siblings t count items v bs cs}
      (stands : Stands schema gaps siblings t (items.headD .null) v)
      (first : Writes siblings t v bs) (rest : WritesElements siblings t count items.tail cs) :
      WritesElements siblings t (count + 1) items (bs ++ cs)

/-- The bits written for fields, each among those before it; `written` are the fields before. -/
inductive WritesFields : Fields → List (Text × FieldType) → Fields → Bits → Prop
  | nil {members written} : WritesFields members [] written []
  | cons {members name t fields written v bs cs}
      (stands : Stands schema gaps written t ((Fields.get? members name).getD .null) v)
      (first : Writes written t v bs)
      (rest : WritesFields members fields (Fields.put written name v) cs) :
      WritesFields members ((name, t) :: fields) written (bs ++ cs)

end

end

namespace Script

/-- The bits of a script. -/
def Packs (script : Script) (bs : Bits) : Prop := Write.allBits script.writes = .ok bs

theorem Packs.empty : empty.Packs [] := rfl

theorem Packs.ofWrite {w : Write} {bs : Bits} (h : w.toBits = .ok bs) : (ofWrite w).Packs bs :=
  (Write.allBits_cons_eq h rfl).trans (by rw [List.append_nil])

theorem Packs.append {a b : Script} {bs cs : Bits} (ha : a.Packs bs) (hb : b.Packs cs) :
    (a.append b).Packs (bs ++ cs) :=
  Write.allBits_append ha hb

theorem concat_concat (scripts : List Script) (script : Script) :
    concat (scripts ++ [script]) = (concat scripts).append script := by
  simp [concat, Script.append]

end Script

namespace Encoding

/-- What goes on behind a script ends in one that begins with it. -/
theorem after_eq_done {pre script : Script} {e : Encoding} (h : after pre e = .done script) :
    ∃ next, e = .done next ∧ script = pre.append next := by
  cases e with
  | done next => exact ⟨next, rfl, (Encoding.done.inj h).symm⟩
  | stopped => cases h

end Encoding

namespace Encode

/-- Only numbers are taken for floats. -/
theorem ne_null_of_float? {v : Value} {x : Binary64} (h : float? v = some x) :
    v.isNull = false := by
  cases v with
  | null => cases h
  | _ => rfl

variable {schema : Schema} {gaps : Bool}

theorem toBits_bits64 (i : Int) (width : BitWidth) :
    (Write.bits64 i width.bits).toBits = .ok (Bits.ofInt width.bits i) := by
  have hw : (0 : Int) ≤ width.bits ∧ (width.bits : Int) ≤ wideLimit :=
    ⟨Int.natCast_nonneg _, Int.ofNat_le.mpr width.le⟩
  rw [Write.toBits, WidthError.check, if_pos hw]
  rfl

/-! ### What is accepted is written -/

/-- What a part of the encoder accepts is written with gaps. -/
def Sound (schema : Schema) (siblings : Fields) (t : FieldType) (one : Path → Value → Encoding) :
    Prop :=
  ∀ path v script, one path v = .done script →
    ∃ bs, Writes schema true siblings t v bs ∧ script.Packs bs

theorem stands_of_filled {siblings : Fields} {t : FieldType} {given v : Value}
    (h : (if given.isNull then schema.defaultValue t siblings else .ok given) = .ok v) :
    Stands schema true siblings t given v := by
  by_cases hn : given.isNull
  · rw [if_pos hn] at h
    exact .filled rfl hn h
  · rw [if_neg hn] at h
    cases h
    exact .given (Bool.of_not_eq_true hn)

theorem filled_of_stands {siblings : Fields} {t : FieldType} {given v : Value}
    (h : Stands schema gaps siblings t given v) :
    (if given.isNull then schema.defaultValue t siblings else .ok given) = .ok v := by
  cases h with
  | given hn => rw [if_neg (by rw [hn]; exact Bool.false_ne_true)]
  | filled _ hn hd => rw [if_pos hn, hd]

/-- The elements that a loop has written are written values, default ones where none are left. -/
theorem writes_of_elements {siblings : Fields} {t : FieldType} {one : Path → Value → Encoding}
    (hone : Sound schema siblings t one) {path : Path} {count : Nat} :
    ∀ {i : Nat} {items : List Value} {scripts : List Script} {script : Script} {pre : Bits},
      elements one (fun _ => schema.defaultValue t siblings) path count i items scripts =
        .done script →
      (Script.concat scripts.reverse).Packs pre →
      ∃ bs, WritesElements schema true siblings t count items bs ∧ script.Packs (pre ++ bs) := by
  induction count with
  | zero =>
      intro i items scripts script pre h hp
      cases h
      exact ⟨[], .nil, by rwa [List.append_nil]⟩
  | succ count ih =>
      intro i items scripts script pre h hp
      rw [elements] at h
      split at h
      · cases h
      · next v hv =>
          split at h
          · cases h
          · next next hn =>
              obtain ⟨bs, hw, hb⟩ := hone _ _ _ hn
              -- the scripts are gathered last first
              have hp' : (Script.concat (next :: scripts).reverse).Packs (pre ++ bs) := by
                rw [List.reverse_cons, Script.concat_concat]
                exact hp.append hb
              obtain ⟨cs, hws, hcs⟩ := ih h hp'
              exact ⟨bs ++ cs, .cons (stands_of_filled hv) hw hws, by rwa [← List.append_assoc]⟩

theorem writes_of_fields {one : Fields → FieldType → Path → Value → Encoding} {members : Fields}
    {path : Path} {fields : List (Text × FieldType)}
    (hone : ∀ written t, Sound schema written t (one written t)) :
    ∀ {written : Fields} {script : Script},
      Encode.fields schema one members path fields written = .done script →
      ∃ bs, WritesFields schema true members fields written bs ∧ script.Packs bs := by
  induction fields with
  | nil =>
      intro written script h
      cases h
      exact ⟨[], .nil, .empty⟩
  | cons head fields ih =>
      obtain ⟨name, t⟩ := head
      intro written script h
      rw [Encode.fields] at h
      split at h
      · cases h
      · next v hv =>
          split at h
          · cases h
          · next first hf =>
              obtain ⟨next, hn, rfl⟩ := Encoding.after_eq_done h
              obtain ⟨bs, hw, hb⟩ := hone _ _ _ _ _ hf
              obtain ⟨cs, hws, hcs⟩ := ih hn
              exact ⟨bs ++ cs, .cons (stands_of_filled hv) hw hws, hb.append hcs⟩

/-- A value is written as the type that its label has. -/
theorem ofCase_eq (strict : Bool) (struct : Text → Path → Value → Encoding) (siblings : Fields)
    (label enumName : Text) (cases : List (Text × FieldType)) (path : Path) (v : Value) :
    ofCase schema strict struct siblings label enumName cases path v =
      ((Fields.get? cases label).map fun t =>
        ofType schema strict struct siblings t path v).getD
          (.fail (.noWrittenCase label enumName) path) :=
  Fields.first_eq
    (f := fun cases => ofCase schema strict struct siblings label enumName cases path v)
    rfl (fun _ _ _ => rfl) cases

/-- What the encoder accepts for a type is a written value of it. The induction is on the type. -/
theorem sound_ofType {strict : Bool} {struct : Text → Path → Value → Encoding} {siblings : Fields}
    (hstruct : ∀ name, Sound schema siblings (.struct name) (struct name)) (t : FieldType) :
    Sound schema siblings t (ofType schema strict struct siblings t) := by
  induction t with
  | int signed width default? =>
      intro path v script h
      cases v with
      | int i =>
          cases h
          exact ⟨_, .int, .ofWrite (toBits_bits64 _ _)⟩
      | _ => cases h
  | float width default? =>
      intro path v script h
      cases hx : float? v with
      | none =>
          simp only [ofType, hx] at h
          cases h
      | some x =>
          cases width with
          | f32 =>
              simp only [ofType, hx] at h
              cases h
              exact ⟨_, .single hx, .ofWrite rfl⟩
          | f64 =>
              simp only [ofType, hx] at h
              cases h
              exact ⟨_, .double hx, .ofWrite rfl⟩
  | text charset default? =>
      intro path v script h
      cases v with
      | text s =>
          cases h
          exact ⟨_, .text, .ofWrite rfl⟩
      | _ => cases h
  | enum name signed width default? =>
      intro path v script h
      cases he : schema.enum? name with
      | none =>
          simp only [ofType, he] at h
          cases h
      | some e =>
          cases v with
          | text label =>
              cases hc : e.codeOf? label with
              | none =>
                  simp only [ofType, he, hc] at h
                  cases h
              | some code =>
                  simp only [ofType, he, hc] at h
                  cases h
                  exact ⟨_, .enum he hc, .ofWrite (toBits_bits64 _ _)⟩
          | _ =>
              simp only [ofType, he] at h
              cases h
  | struct name => exact hstruct name
  | array element length ih =>
      intro path v script h
      rw [ofType] at h
      split at h
      · cases h
      · next count hc =>
          split at h
          · next items =>
              split at h
              · cases h
              · obtain ⟨next, hn, rfl⟩ := Encoding.after_eq_done h
                obtain ⟨bs, hw, hb⟩ := writes_of_elements ih hn rfl
                exact ⟨bs, .array hc (fun hg => nomatch hg) hw, hb⟩
          · cases h
  | union discriminant enumName cases ih =>
      intro path v script h
      rw [ofType] at h
      split at h
      · cases h
      · next label hl =>
          rw [ofCase_eq] at h
          cases hu : Fields.get? cases label with
          | none => rw [hu] at h; cases h
          | some t =>
              rw [hu] at h
              obtain ⟨bs, hw, hb⟩ := ih label t (Fields.mem_of_get? hu) path v script h
              exact ⟨bs, .union hl hu hw, hb⟩

/-- What the encoder accepts for a struct is a written value of it, with however much room. -/
theorem sound_ofStruct {strict : Bool} {depth : Nat} :
    ∀ (siblings : Fields) (name : Text),
      Sound schema siblings (.struct name) (ofStruct schema strict depth name) := by
  induction depth with
  | zero =>
      intro siblings name path v script h
      rw [ofStruct] at h
      split at h
      · cases h
      · split at h <;> cases h
  | succ depth ih =>
      intro siblings name path v script h
      rw [ofStruct] at h
      split at h
      · cases h
      · next s hs =>
          split at h
          · next members =>
              obtain ⟨bs, hw, hb⟩ :=
                writes_of_fields (fun written t => sound_ofType (ih written) t) h
              exact ⟨bs, .struct hs (fun hg => nomatch hg) hw, hb⟩
          · cases h

/-- **What is accepted is written**, with the gaps filled. -/
theorem writes_of_script {strict : Bool} {root : Text} {v : Value} {script : Script}
    (h : Encode.script schema strict root v = .done script) :
    ∃ bs, Writes schema true [] (.struct root) v bs ∧ script.Packs bs :=
  sound_ofStruct [] root _ _ _ h

/-! ### What is written without gaps is accepted -/

/-- A part of the encoder ends with a script of these bits, and without a notice. -/
def Accepts (e : Encoding) (bs : Bits) : Prop :=
  ∃ script, e = .done script ∧ script.notices = [] ∧ script.Packs bs

theorem Accepts.ofWrite {w : Write} {bs : Bits} (h : w.toBits = .ok bs) :
    Accepts (.done (.ofWrite w)) bs :=
  ⟨_, rfl, rfl, .ofWrite h⟩

theorem Accepts.after {pre : Script} {e : Encoding} {bs cs : Bits} (hn : pre.notices = [])
    (hp : pre.Packs bs) (h : Accepts e cs) : Accepts (.after pre e) (bs ++ cs) := by
  obtain ⟨script, rfl, hs, hc⟩ := h
  exact ⟨_, rfl, by rw [Script.append, hn, hs, List.append_nil], hp.append hc⟩

/-- A member that is not null is there. -/
theorem get?_of_getD {members : Fields} {name : Text}
    (h : ((Fields.get? members name).getD .null).isNull = false) :
    Fields.get? members name = some ((Fields.get? members name).getD .null) := by
  cases hg : Fields.get? members name with
  | none => rw [hg] at h; cases h
  | some v => rfl

theorem headD_mem {items : List Value} {count : Nat} (h : items.length = count + 1) :
    items.headD .null ∈ items := by
  cases items with
  | nil => cases h
  | cons v items => exact List.mem_cons_self

theorem cons_headD_tail {items : List Value} {count : Nat} (h : items.length = count + 1) :
    items.headD .null :: items.tail = items := by
  cases items with
  | nil => cases h
  | cons v items => rfl

mutual

/-- A value is accepted wherever it lies. -/
theorem accepts_of_writes {siblings : Fields} {t : FieldType} {v : Value} {bs : Bits} :
    Writes schema false siblings t v bs →
    ∀ {strict : Bool} {depth : Nat} {path : Path}, v.depth ≤ depth →
      Accepts (ofType schema strict (ofStruct schema strict depth) siblings t path v) bs
  | .int, _, _, _, _ => .ofWrite (toBits_bits64 _ _)
  | .single hx, _, _, _, _ => by
      simp only [ofType, hx]
      exact .ofWrite rfl
  | .double hx, _, _, _, _ => by
      simp only [ofType, hx]
      exact .ofWrite rfl
  | .text, _, _, _, _ => .ofWrite rfl
  | .enum declared known, _, _, _, _ => by
      simp only [ofType, declared, known]
      exact .ofWrite (toBits_bits64 _ _)
  | .struct declared _ fields, strict, depth, path, hd => by
      obtain ⟨depth, rfl⟩ := Nat.exists_eq_succ_of_ne_zero (Nat.ne_zero_of_lt hd)
      rw [ofType, ofStruct, declared]
      exact accepts_of_fields fields fun name v hv =>
        Nat.le_of_lt_succ (Nat.lt_of_lt_of_le (Value.depth_lt_map hv) hd)
  | .array counted exact elements, strict, depth, path, hd => by
      -- no element is left over, so none is dropped and no option objects
      simp only [ofType, counted, exact rfl, bne_self_eq_false, Bool.and_false,
        Bool.false_eq_true, if_false, Nat.lt_irrefl]
      rw [← List.nil_append bs]
      refine Accepts.after rfl Script.Packs.empty ?_
      rw [← List.nil_append bs]
      refine accepts_of_elements elements (exact rfl)
        (fun v hv => Nat.le_trans (Nat.le_of_lt (Value.depth_lt_list hv)) hd) ?_ ?_
      · rfl
      · exact .empty
  | .union chosen case value, _, _, path, hd => by
      rw [ofType, chosen]
      dsimp only
      rw [ofCase_eq, case]
      exact accepts_of_writes value hd

/-- The loop over the elements accepts what is written for them. -/
theorem accepts_of_elements {siblings : Fields} {t : FieldType} {count : Nat} {items : List Value}
    {bs : Bits} : WritesElements schema false siblings t count items bs → items.length = count →
    ∀ {strict : Bool} {depth : Nat} {path : Path} {i : Nat} {scripts : List Script} {pre : Bits},
      (∀ v ∈ items, v.depth ≤ depth) → (Script.concat scripts.reverse).notices = [] →
      (Script.concat scripts.reverse).Packs pre →
      Accepts (elements (ofType schema strict (ofStruct schema strict depth) siblings t)
        (fun _ => schema.defaultValue t siblings) path count i items scripts) (pre ++ bs)
  | .nil, _, _, _, _, _, _, _, _, hn, hp => by
      rw [List.append_nil]
      exact ⟨_, rfl, hn, hp⟩
  | .cons stands first rest, hl, strict, depth, path, i, scripts, pre, hd, hn, hp => by
      have hv := stands.eq_of_ne_null stands.ne_null_of_exact
      have hlen := List.length_tail.trans (congrArg (· - 1) hl)
      obtain ⟨script, he, hsn, hsp⟩ := @accepts_of_writes _ _ _ _ first strict depth
        (path.element i) (hv ▸ hd _ (headD_mem hl))
      rw [elements]
      simp only [filled_of_stands stands]
      rw [he]
      have hcat := Script.concat_concat scripts.reverse script
      rw [← List.reverse_cons] at hcat
      rw [← List.append_assoc]
      refine accepts_of_elements rest hlen (fun v hv => hd v (List.mem_of_mem_tail hv)) ?_ ?_
      · rw [hcat, Script.append, hn, hsn, List.append_nil]
      · rw [hcat]
        exact hp.append hsp

/-- The loop over the fields accepts what is written for them. -/
theorem accepts_of_fields {members : Fields} {fields : List (Text × FieldType)}
    {written : Fields} {bs : Bits} : WritesFields schema false members fields written bs →
    ∀ {strict : Bool} {depth : Nat} {path : Path},
      (∀ name v, Fields.get? members name = some v → v.depth ≤ depth) →
      Accepts (Encode.fields schema (ofType schema strict (ofStruct schema strict depth)) members
        path fields written) bs
  | .nil, _, _, _, _ => ⟨_, rfl, rfl, .empty⟩
  | .cons stands first rest, strict, depth, path, hd => by
      have hn := stands.ne_null_of_exact
      have hv := stands.eq_of_ne_null hn
      obtain ⟨script, he, hsn, hsp⟩ := @accepts_of_writes _ _ _ _ first strict depth
        (path.child _) (hv ▸ hd _ _ (get?_of_getD hn))
      rw [Encode.fields]
      simp only [filled_of_stands stands]
      rw [he]
      exact .after hsn hsp (accepts_of_fields rest hd)

end

/-- **What is written without gaps is accepted.** -/
theorem script_of_writes {strict : Bool} {root : Text} {v : Value} {bs : Bits}
    (h : Writes schema false [] (.struct root) v bs) :
    Accepts (Encode.script schema strict root v) bs :=
  accepts_of_writes h (Nat.le_add_right _ _)

/-! ### A whole message -/

/-- Carrying out a script under some options gives these bytes, or finds them too many. -/
inductive Carries (options : Options) (root : Text) (script : Script) (bits : Nat)
    (bytes : Array UInt8) : Report (Array UInt8) → Prop
  | within (room : ∀ limit, options.maxBytes = some limit → bytes.size ≤ limit) :
      Carries options root script bits bytes ⟨script.notices ++ [.encoded root bits], .ok bytes⟩
  | beyond {limit} (max : options.maxBytes = some limit) (h : limit < bytes.size) :
      Carries options root script bits bytes
        ⟨script.notices, .error (.fault (.tooLarge bytes.size limit) (some (Path.ofRoot root)))⟩

namespace Carries

variable {options : Options} {root : Text} {script : Script} {bits : Nat} {bytes : Array UInt8}
  {report : Report (Array UInt8)}

theorem eq_of_room (h : Carries options root script bits bytes report)
    (room : ∀ limit, options.maxBytes = some limit → bytes.size ≤ limit) :
    report = ⟨script.notices ++ [.encoded root bits], .ok bytes⟩ := by
  cases h with
  | within => rfl
  | beyond max hlt => exact absurd (room _ max) (Nat.not_le.mpr hlt)

/-- Only the limit of the options makes a difference. -/
theorem unique (h : Carries options root script bits bytes report) {options' : Options}
    {other : Report (Array UInt8)} (h' : Carries options' root script bits bytes other)
    (hmax : options'.maxBytes = options.maxBytes) : other = report := by
  cases h with
  | within room => exact h'.eq_of_room fun limit hlimit => room limit (hmax.symm.trans hlimit)
  | beyond max hlt =>
      cases h' with
      | within room => exact absurd (room _ (hmax.trans max)) (Nat.not_le.mpr hlt)
      | beyond max' =>
          cases (hmax.trans max).symm.trans max'
          rfl

end Carries

/-- Carrying out a script packs its bits, filled up to whole bytes. The bytes are the same for every
script of these bits and all options. -/
theorem exists_finish (bs : Bits) :
    ∃ bytes : Array UInt8, bytes.size = (bs.length + 7) / 8 ∧
      Bits.ofBytes bytes.toList = bs.padded ∧
      ∀ (options : Options) (root : Text) (script : Script), script.Packs bs →
        Carries options root script bs.length bytes (finish options root script) := by
  have packed : ∀ options : Options,
      let packer := (Packer.withCapacity options.capacity options.capacity_pos).push bs
      packer.length = bs.length ∧ Bits.ofBytes packer.toBytes.toList = bs.padded := by
    intro options
    have htidy := Packer.tidy_withCapacity options.capacity options.capacity_pos
    have hbits := Packer.toBits_push htidy bs
    rw [Packer.toBits_withCapacity, List.nil_append] at hbits
    have hlen := Packer.length_toBits ((Packer.withCapacity options.capacity
      options.capacity_pos).push bs)
    rw [hbits] at hlen
    exact ⟨hlen.symm, (Packer.ofBytes_toBytes (htidy.push bs)).trans (congrArg _ hbits)⟩
  obtain ⟨hlen, hbytes⟩ := packed {}
  refine ⟨_, ?_, hbytes, fun options root script h => ?_⟩
  · rw [Packer.size_toBytes, hlen]
  · -- the capacity that the packer starts with leaves no trace in the bytes
    obtain ⟨hlen', hbytes'⟩ := packed options
    have hsame := Array.toList_inj.mp (Bits.ofBytes_inj (hbytes'.trans hbytes.symm))
    rw [finish, Packer.writeAll_eq _ h]
    dsimp only
    rw [hsame, hlen']
    split
    · next limit hlimit =>
        split
        · next hlt => exact .beyond hlimit hlt
        · next hle =>
            refine .within fun limit' hlimit' => ?_
            cases hlimit.symm.trans hlimit'
            exact Nat.not_lt.mp hle
    · next hnone => exact .within fun _ hlimit => nomatch hnone.symm.trans hlimit

/-- Carrying out a script packs its bits, filled up to whole bytes. -/
theorem finish_of_packs (options : Options) (hm : options.maxBytes = none) (root : Text)
    {script : Script} {bs : Bits} (h : script.Packs bs) :
    ∃ bytes, finish options root script =
        ⟨script.notices ++ [.encoded root bs.length], .ok bytes⟩ ∧
      bytes.size = (bs.length + 7) / 8 ∧ Bits.ofBytes bytes.toList = bs.padded := by
  obtain ⟨bytes, hsize, hbytes, hcarries⟩ := exists_finish bs
  have hfinish := (hcarries options root script h).eq_of_room
    fun _ hl => nomatch hm.symm.trans hl
  exact ⟨bytes, hfinish, hsize, hbytes⟩

end Encode

namespace Schema

variable {schema : Schema}

/-- How an encoding goes: first it is seen whether the value conforms, if that is asked for, then
the value is written, and what is written is carried out. -/
inductive Encodes (schema : Schema) (v : Value) (root : Text) (options : Options) :
    Report (Array UInt8) → Prop
  | untold {failure} (validate : options.validateValues = true)
      (h : schema.conforms (.struct root) v = .error failure) :
      Encodes schema v root options ⟨[], .error failure⟩
  | unfit (validate : options.validateValues = true)
      (h : schema.conforms (.struct root) v = .ok false) :
      Encodes schema v root options
        ⟨[], .error (.fault (.mismatch root) (some (Path.ofRoot root)))⟩
  | stopped {failure notices}
      (fit : options.validateValues = true → schema.conforms (.struct root) v = .ok true)
      (h : Encode.script schema options.strictArrays root v = .stopped failure notices) :
      Encodes schema v root options ⟨notices, .error failure⟩
  | written {script}
      (fit : options.validateValues = true → schema.conforms (.struct root) v = .ok true)
      (h : Encode.script schema options.strictArrays root v = .done script) :
      Encodes schema v root options (Encode.finish options root script)

/-- A value is admitted if it conforms, or need not. -/
theorem admits_iff {v : Value} {root : Text} {options : Options} :
    schema.admits v root options = .ok true ↔
      (options.validateValues = true → schema.conforms (.struct root) v = .ok true) := by
  rw [admits]
  split
  · next hv => exact ⟨fun h _ => h, fun h => h hv⟩
  · next hv => exact ⟨fun _ h => absurd h hv, fun _ => rfl⟩

/-- Encoding settles every value as `Encodes` says. -/
theorem encodes (schema : Schema) (v : Value) (root : Text) (options : Options) :
    Encodes schema v root options (schema.encode v root options) := by
  rw [encode]
  cases hfit : schema.admits v root options with
  | error =>
      rw [admits] at hfit
      split at hfit
      · next validate => exact .untold validate hfit
      · cases hfit
  | ok fit =>
      cases fit with
      | false =>
          rw [admits] at hfit
          split at hfit
          · next validate => exact .unfit validate hfit
          · cases hfit
      | true =>
          have fit := admits_iff.mp hfit
          cases h : Encode.script schema options.strictArrays root v with
          | stopped => exact .stopped fit h
          | done => exact .written fit h

/-- There is no other way. -/
theorem Encodes.eq {v : Value} {root : Text} {options : Options}
    {report : Report (Array UInt8)} (h : Encodes schema v root options report) :
    schema.encode v root options = report := by
  rw [encode]
  cases h with
  | untold validate h | unfit validate h => simp only [admits, if_pos validate, h]
  | stopped fit h | written fit h => simp only [admits_iff.mpr fit, h]

/-- A value that is written without gaps is encoded as its bits, and nothing else is noticed; so it
is under all options that allow for the size and, if they ask for it, find that it conforms. -/
theorem exists_encode {root : Text} {v : Value} {bs : Bits}
    (h : Writes schema false [] (.struct root) v bs) :
    ∃ bytes : Array UInt8, bytes.size = (bs.length + 7) / 8 ∧
      Bits.ofBytes bytes.toList = bs.padded ∧
      ∀ (options : Options), (∀ limit, options.maxBytes = some limit → bytes.size ≤ limit) →
        (options.validateValues = true → schema.conforms (.struct root) v = .ok true) →
        schema.encode v root options = ⟨[.encoded root bs.length], .ok bytes⟩ := by
  obtain ⟨bytes, hsize, hbytes, hcarries⟩ := Encode.exists_finish bs
  refine ⟨bytes, hsize, hbytes, fun options hroom hfit => ?_⟩
  have haccepts : Encode.Accepts (Encode.script schema options.strictArrays root v) bs :=
    Encode.script_of_writes h
  obtain ⟨script, hs, hn, hp⟩ := haccepts
  rw [(Encodes.written hfit hs).eq, (hcarries options root script hp).eq_of_room hroom, hn,
    List.nil_append]

/-- A value that is written without gaps is encoded as its bits, and nothing else is noticed. -/
theorem encode_of_writes {root : Text} {v : Value} {bs : Bits}
    (h : Writes schema false [] (.struct root) v bs) :
    ∃ bytes, schema.encode v root = ⟨[.encoded root bs.length], .ok bytes⟩ ∧
      bytes.size = (bs.length + 7) / 8 ∧ Bits.ofBytes bytes.toList = bs.padded := by
  obtain ⟨bytes, hsize, hbytes, hencode⟩ := exists_encode h
  exact ⟨bytes, hencode {} (fun _ hl => nomatch hl) (fun hv => nomatch hv), hsize, hbytes⟩

/-- What is encoded has been written, with the gaps filled. -/
theorem writes_of_encode {root : Text} {v : Value} {options : Options} {bytes : Array UInt8}
    (h : (schema.encode v root options).outcome = .ok bytes) :
    ∃ bs notices, Writes schema true [] (.struct root) v bs ∧
      schema.encode v root options = ⟨notices ++ [.encoded root bs.length], .ok bytes⟩ ∧
      bytes.size = (bs.length + 7) / 8 ∧ Bits.ofBytes bytes.toList = bs.padded := by
  have hencodes := encodes schema v root options
  generalize schema.encode v root options = report at h hencodes ⊢
  cases hencodes with
  | untold | unfit | stopped => cases h
  | @written script _ hs =>
      obtain ⟨bs, hw, hp⟩ := Encode.writes_of_script hs
      obtain ⟨bytes', hsize, hbytes, hcarries⟩ := Encode.exists_finish bs
      have hcarried := hcarries options root script hp
      generalize Encode.finish options root script = report at h hcarried ⊢
      cases hcarried with
      | beyond => cases h
      | within =>
          cases h
          exact ⟨bs, _, hw, rfl, hsize, hbytes⟩

end Schema

end WireSchema
