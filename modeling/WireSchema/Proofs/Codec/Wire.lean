import WireSchema.Proofs.Codec.Canonical
import WireSchema.Proofs.Codec.WriteWalk
import WireSchema.Proofs.Text.Points

/-!
# Codec — What is on the wire

The encoder takes values that a field cannot hold. An integer is wrapped to its width, a float
narrowed, a text of an unknown charset replaced in part; gaps are filled and what is too much is
dropped. `Rereads schema written t v w` says that `w` is what is read where `v` was written, behind
the fields `written`.

Later fields are written behind what was given, and read behind what is on the wire. For labels that
is the same, for integers it is not (`Siblings.OnWire`). So what is written is a message if every
length of an array says the same count on the wire (`Encode.KeepsCounts`) and no text ends early
(`Encode.ZeroFree`): `spells_of_framed`. And if it is read as it was written, all lengths have kept
their counts: `Encode.keepsCounts_of_reread`.

Integers that fit their fields keep all counts (`Encode.keepsCounts_of_fits`), and where the texts
that are given and those of the defaults have no zero character, none that is written has one
(`Encode.zeroFree_of_texts`).
-/

namespace WireSchema

/-! ### What is read again -/

section

variable (schema : Schema)

mutual

/-- Where `v` is written as a value of a type, `w` is read. -/
inductive Rereads : Fields → FieldType → Value → Value → Prop
  | int {written signed default? i} {width : BitWidth} :
      Rereads written (.int signed width default?) (.int i)
        (.int (Bits.integer signed (Bits.ofInt width.bits i)))
  | single {written default? v x} (number : Encode.float? v = some x) :
      Rereads written (.float .f32 default?) v (.float (Binary64.widen x.narrow))
  | double {written default? v x} (number : Encode.float? v = some x) :
      Rereads written (.float .f64 default?) v (.float x)
  | text {written charset default? s} :
      Rereads written (.text charset default?) (.text s)
        (.text (charset.decodeText (charset.encode s)))
  | enum {written name signed width default? label} :
      Rereads written (.enum name signed width default?) (.text label) (.text label)
  | struct {written name s members all} (declared : schema.struct? name = some s)
      (fields : RereadsFields members s.fields [] [] all) :
      Rereads written (.struct name) (.map members) (.map all)
  | array {written element length items ws} (counted : length.resolve written = .ok ws.length)
      (elements : RereadsElements written element items ws) :
      Rereads written (.array element length) (.list items) (.list ws)
  | union {written discriminant enumName cases label t v w}
      (chosen : written.label? discriminant = some label)
      (case : Fields.get? cases label = some t) (value : Rereads written t v w) :
      Rereads written (.union discriminant enumName cases) v w

/-- Element for element, from the first on. -/
inductive RereadsElements : Fields → FieldType → List Value → List Value → Prop
  | nil {written t items} : RereadsElements written t items []
  | cons {written t items v w ws} (stands : Stands schema true written t (items.headD .null) v)
      (first : Rereads written t v w) (rest : RereadsElements written t items.tail ws) :
      RereadsElements written t items (w :: ws)

/-- Field for field; `written` and `read` are the fields before, and `all` is what is read with
these. -/
inductive RereadsFields : Fields → List (Text × FieldType) → (written read all : Fields) → Prop
  | nil {members written read} : RereadsFields members [] written read read
  | cons {members name t fields written read all v w}
      (stands : Stands schema true written t ((Fields.get? members name).getD .null) v)
      (first : Rereads written t v w)
      (rest : RereadsFields members fields (Fields.put written name v) (Fields.put read name w)
        all) :
      RereadsFields members ((name, t) :: fields) written read all

end

end

/-! ### Siblings on the wire -/

/-- What the wire has for a field that can be looked up: the same label, the wrapped integer. -/
def FieldType.OnWire : FieldType → Value → Value → Prop
  | .int signed width _, v, w =>
      ∃ i, v = .int i ∧ w = .int (Bits.integer signed (Bits.ofInt width.bits i))
  | .enum .., v, w => ∃ label, v = .text label ∧ w = .text label
  | _, _, _ => True

/-- The fields that are read are those that are written, as the wire has them. -/
def Siblings.OnWire (earlier : Consistency.Earlier) (written read : Fields) : Prop :=
  ∀ field t, Fields.get? earlier field = some t →
    ∃ v w, Fields.get? written field = some v ∧ Fields.get? read field = some w ∧ t.OnWire v w

variable {schema : Schema}

/-- What is read again is on the wire what was written. -/
theorem Rereads.onWire {written : Fields} {t : FieldType} {v w : Value}
    (h : Rereads schema written t v w) : t.OnWire v w := by
  cases h with
  | int => exact ⟨_, rfl, rfl⟩
  | enum => exact ⟨_, rfl, rfl⟩
  | _ => trivial

/-- The count that an integer field says is the one that it says on the wire. -/
def Encode.KeepsCount (earlier : Consistency.Earlier) (written : Fields) (field : Text) : Prop :=
  ∀ signed width default? i, Fields.get? earlier field = some (.int signed width default?) →
    Fields.get? written field = some (.int i) →
    (Bits.integer signed (Bits.ofInt width.bits i)).toNat = i.toNat

namespace Siblings.OnWire

open Consistency

variable {earlier : Earlier} {written read : Fields}

theorem nil : OnWire [] written read := fun _ _ h => nomatch h

/-- Fields that are the same on the wire stay so, one by one. -/
theorem put (h : OnWire earlier written read) {name : Text} {t : FieldType} {v w : Value}
    (hv : t.OnWire v w) :
    OnWire (Fields.put earlier name t) (Fields.put written name v) (Fields.put read name w) := by
  intro other u hu
  rcases Fields.get?_put_cases hu with ⟨rfl, rfl⟩ | ⟨he, hu⟩
  · exact ⟨v, w, Fields.get?_put_self, Fields.get?_put_self, hv⟩
  · rw [Fields.get?_put_of_ne he, Fields.get?_put_of_ne he]
    exact h other u hu

/-- A label is found alike in what was written and in what is read. -/
theorem label?_eq (h : OnWire earlier written read) {field enumName : Text}
    (he : isEnum earlier field enumName = true) : read.label? field = written.label? field := by
  obtain ⟨signed, width, default?, hg⟩ := get?_of_isEnum he
  obtain ⟨_, _, hv, hw, label, rfl, rfl⟩ := h field _ hg
  rw [Fields.label?, Fields.label?, hv, hw]

/-- An array's length is the same on the wire exactly when it says the same count there. -/
theorem resolve_eq_iff (h : OnWire earlier written read) {field : Text}
    (hi : isInteger earlier field = true) :
    (ArrayLength.dynamic field).resolve read = (ArrayLength.dynamic field).resolve written ↔
      Encode.KeepsCount earlier written field := by
  obtain ⟨signed, width, default?, hg⟩ := get?_of_isInteger hi
  obtain ⟨_, _, hv, hw, i, rfl, rfl⟩ := h field _ hg
  rw [ArrayLength.resolve, ArrayLength.resolve, Fields.count?, Fields.count?, hv, hw,
    Except.ok.injEq]
  constructor
  · intro heq signed' width' default' i' hg' hv'
    cases hg.symm.trans hg'
    cases hv.symm.trans hv'
    exact heq
  · exact fun keeps => keeps signed width default? i hg hv

end Siblings.OnWire

/-! ### What frames a message -/

namespace Encode

/-- If an array is written here, its length says the same count on the wire. -/
def Task.KeepsCount : Task → Prop
  | .value earlier written (.array _ (.dynamic field)) _ _ =>
      Encode.KeepsCount earlier written field
  | _ => True

/-- If a text is written here, no zero byte ends it before its end. -/
def Task.ZeroFree : Task → Prop
  | .value _ _ (.text .utf8 _) _ (.text t) => ∀ p ∈ t, p.val ≠ 0
  | _ => True

/-- Wherever the encoder comes, the length of an array says the same count on the wire. -/
abbrev KeepsCounts (schema : Schema) : Task → Prop :=
  Walk.Always (Leads schema) (Opens schema) Task.KeepsCount

/-- Wherever the encoder comes, no text ends before its end. -/
abbrev ZeroFree (schema : Schema) : Task → Prop :=
  Walk.Always (Leads schema) (Opens schema) Task.ZeroFree

/-- From a position on, the message can be taken apart again. -/
structure Framed (schema : Schema) (a : Task) : Prop where
  counts : KeepsCounts schema a
  texts : ZeroFree schema a

theorem Framed.on {a b : Task} (h : Framed schema a) (first : Leads schema a b) :
    Framed schema b :=
  ⟨h.counts.on first, h.texts.on first⟩

theorem Framed.opening {a b : Task} (h : Framed schema a) (first : Opens schema a b) :
    Framed schema b :=
  ⟨h.counts.opening first, h.texts.opening first⟩

end Encode

open Encode (Framed)

/-- No text ends before its end. -/
theorem zero_not_mem_of_framed {earlier : Consistency.Earlier} {written : Fields}
    {charset : Charset} {default? : Option Text} {path : Path} {s : Text}
    (h : Framed schema (.value earlier written (.text charset default?) path (.text s))) :
    0 ∉ charset.encode s := by
  refine Charset.zero_not_mem_encode ?_
  rintro rfl
  exact h.texts.here

/-- An array has as many elements in what is read as in what was written. -/
theorem resolve_of_framed {earlier : Consistency.Earlier} {written read : Fields}
    {element : FieldType} {length : ArrayLength} {path : Path} {v : Value}
    (hi : ∀ field, length = .dynamic field → Consistency.isInteger earlier field = true)
    (wire : Siblings.OnWire earlier written read)
    (h : Framed schema (.value earlier written (.array element length) path v)) :
    length.resolve read = length.resolve written := by
  cases length with
  | static count => rfl
  | dynamic field => exact (wire.resolve_eq_iff (hi field rfl)).mpr h.counts.here

mutual

/-- What is written is a message, if nothing on the wire takes it apart differently. -/
theorem spells_of_framed (hc : schema.Consistent) {written : Fields} {t : FieldType} {v : Value}
    {bs : Bits} : Writes schema true written t v bs →
    ∀ {earlier : Consistency.Earlier} {read : Fields} {path : Path}, schema.Sound earlier t →
      Siblings.OnWire earlier written read → Framed schema (.value earlier written t path v) →
      ∃ w raws, Spells schema read t w bs raws ∧ Rereads schema written t v w
  | .int, _, _, _, _, _, _ => ⟨_, _, .int (Bits.length_ofInt _ _), .int⟩
  | .single hx, _, _, _, _, _, _ => ⟨_, _, .narrowFloat _ _, .single hx⟩
  | .double hx, _, _, _, _, _, _ => ⟨_, _, .doubleFloat _ _, .double hx⟩
  | .text, _, _, _, _, _, framed => ⟨_, _, .text (zero_not_mem_of_framed framed), .text⟩
  | .enum declared known, _, _, _, sound, _, _ => by
      cases sound with
      | enum declared' fit _ =>
          cases declared.symm.trans declared'
          exact ⟨_, _, .label hc declared (fit _ (EnumDef.codeOf?_mem known)) known, .enum⟩
  | .struct declared _ fields, _, _, _, _, _, framed => by
      -- a struct looks up its own fields only, so on both sides it begins with none
      have wire : Siblings.OnWire [] [] [] := .nil
      obtain ⟨all, raws, hs, hr⟩ := spellsFields_of_framed hc fields (hc.fields_sound declared)
        wire (framed.opening (.struct declared))
      exact ⟨_, _, .struct declared hs, .struct declared hr⟩
  | .array counted _ elements, _, _, _, sound, wire, framed => by
      cases sound with
      | array hdyn inner =>
          obtain ⟨ws, raws, rfl, hs, hr⟩ := spellsElements_of_framed hc elements inner wire
            (framed.on (.array counted))
          exact ⟨_, _, .array ((resolve_of_framed hdyn wire framed).trans counted) hs,
            .array counted hr⟩
  | .union chosen case value, _, _, _, sound, wire, framed => by
      cases sound with
      | union _ hd _ inner =>
          obtain ⟨w, raws, hs, hr⟩ := spells_of_framed hc value
            (inner _ _ (Fields.mem_of_get? case)) wire (framed.on (.case chosen case))
          exact ⟨_, _, .union ((wire.label?_eq hd).trans chosen) case hs, .union chosen case hr⟩

/-- So are elements, each in its place. -/
theorem spellsElements_of_framed (hc : schema.Consistent) {written : Fields} {t : FieldType}
    {count : Nat} {items : List Value} {bs : Bits} :
    WritesElements schema true written t count items bs →
    ∀ {earlier : Consistency.Earlier} {read : Fields} {path : Path} {i : Nat},
      schema.Sound earlier t → Siblings.OnWire earlier written read →
      Framed schema (.elements earlier written t path i count items) →
      ∃ ws raws, ws.length = count ∧ SpellsElements schema read t ws bs raws ∧
        RereadsElements schema written t items ws
  | .nil, _, _, _, _, _, _, _ => ⟨[], [], rfl, .nil, .nil⟩
  | .cons stands first rest, _, _, _, _, sound, wire, framed => by
      obtain ⟨w, raws, hs, hr⟩ := spells_of_framed hc first sound wire
        (framed.on (.element stands))
      obtain ⟨ws, more, hl, hss, hrs⟩ := spellsElements_of_framed hc rest sound wire
        (framed.on (.nextElement stands first))
      exact ⟨w :: ws, _, congrArg (· + 1) hl, .cons hs hss, .cons stands hr hrs⟩

/-- So are fields, one behind the other, beside what was read before. -/
theorem spellsFields_of_framed (hc : schema.Consistent) {members : Fields}
    {fields : List (Text × FieldType)} {written : Fields} {bs : Bits} :
    WritesFields schema true members fields written bs →
    ∀ {earlier : Consistency.Earlier} {read : Fields} {path : Path},
      schema.SoundFields fields earlier → Siblings.OnWire earlier written read →
      Framed schema (.fields members fields path earlier written) →
      ∃ all raws, SpellsFields schema fields read all bs raws ∧
        RereadsFields schema members fields written read all
  | .nil, _, read, _, _, _, _ => ⟨read, [], .nil, .nil⟩
  | .cons stands first rest, _, _, _, sound, wire, framed => by
      obtain ⟨-, hsound, hrest⟩ := sound
      obtain ⟨w, raws, hs, hr⟩ := spells_of_framed hc first hsound wire
        (framed.on (.field stands))
      obtain ⟨all, more, hss, hrs⟩ := spellsFields_of_framed hc rest hrest (wire.put hr.onWire)
        (framed.on (.nextField stands first))
      exact ⟨all, _, .cons hs hss, .cons stands hr hrs⟩

end

/-! ### What is read as written has kept its counts -/

/-- Reading on changes no field that has been read. -/
theorem RereadsFields.get?_of_notMem {members : Fields} {fields : List (Text × FieldType)}
    {written read all : Fields} {name : Text} (hn : name ∉ fields.map (·.1)) :
    RereadsFields schema members fields written read all →
    Fields.get? all name = Fields.get? read name
  | .nil => rfl
  | .cons _ _ rest => by
      rw [List.map_cons, List.mem_cons, not_or] at hn
      rw [rest.get?_of_notMem hn.2, Fields.get?_put_of_ne hn.1]

namespace Encode

/-- At a position nothing is wrong with the types, and what is written there has been read as it was
written. -/
def Task.Reread (schema : Schema) : Task → Prop
  | value earlier written t _ v =>
      ∃ read w bs raws, schema.Sound earlier t ∧ Siblings.OnWire earlier written read ∧
        Spells schema read t w bs raws ∧ Rereads schema written t v w
  | elements earlier written t _ _ count items =>
      ∃ read ws bs raws, schema.Sound earlier t ∧ Siblings.OnWire earlier written read ∧
        SpellsElements schema read t ws bs raws ∧ RereadsElements schema written t items ws ∧
        ws.length = count
  | fields members left _ earlier written =>
      ∃ read all bs raws, schema.SoundFields left earlier ∧
        Siblings.OnWire earlier written read ∧ SpellsFields schema left read all bs raws ∧
        RereadsFields schema members left written read all

/-- Where fields are read again, so are the first of them and those behind it. -/
theorem reread_field {members : Fields} {name : Text} {t : FieldType}
    {left : List (Text × FieldType)} {path : Path} {earlier : Consistency.Earlier}
    {written : Fields} {v : Value}
    (done : (Task.fields members ((name, t) :: left) path earlier written).Reread schema)
    (stands : Stands schema true written t ((Fields.get? members name).getD .null) v) :
    (Task.value earlier written t (path.child name) v).Reread schema ∧
      (Task.fields members left path (Fields.put earlier name t)
        (Fields.put written name v)).Reread schema := by
  obtain ⟨read, all, bs, raws, sound, wire, spells, rereads⟩ := done
  have hname := (List.nodup_cons.mp sound.names.1).1
  cases rereads with
  | @cons _ _ _ _ _ _ _ _ w stands' first rest =>
      cases spells with
      | cons spells more =>
          cases stands.unique stands'
          -- the field is in what is read in the end, so it is the same that is read in both
          have hw := (rest.get?_of_notMem hname).trans Fields.get?_put_self
          cases hw.symm.trans ((more.get?_of_notMem hname).trans Fields.get?_put_self)
          exact ⟨⟨read, w, _, _, sound.2.1, wire, spells, first⟩,
            _, all, _, _, sound.2.2, wire.put first.onWire, more, rest⟩

/-- Where a value is read again, so is all that lies in it. -/
theorem Leads.reread {a b : Task} (h : Leads schema a b) (done : a.Reread schema) :
    b.Reread schema := by
  cases h with
  | array counted =>
      obtain ⟨read, w, bs, raws, sound, wire, spells, rereads⟩ := done
      cases sound with
      | array _ inner =>
          cases rereads with
          | array counted' rereads =>
              cases spells with
              | array _ spells =>
                  cases counted.symm.trans counted'
                  exact ⟨read, _, _, _, inner, wire, spells, rereads, rfl⟩
  | case chosen case =>
      obtain ⟨read, w, bs, raws, sound, wire, spells, rereads⟩ := done
      cases sound with
      | union _ hd _ inner =>
          cases rereads with
          | union chosen' case' rereads =>
              cases spells with
              | union chosen'' case'' spells =>
                  -- the label on the wire is the one written, so the same case is read
                  cases chosen.symm.trans chosen'
                  cases case.symm.trans case'
                  cases chosen''.symm.trans ((wire.label?_eq hd).trans chosen)
                  cases case.symm.trans case''
                  exact ⟨read, _, _, _, inner _ _ (Fields.mem_of_get? case), wire, spells, rereads⟩
  | element stands =>
      obtain ⟨read, ws, bs, raws, sound, wire, spells, rereads, hl⟩ := done
      cases rereads with
      | nil => cases hl
      | cons stands' first _ =>
          cases spells with
          | cons spells _ =>
              cases stands.unique stands'
              exact ⟨read, _, _, _, sound, wire, spells, first⟩
  | nextElement =>
      obtain ⟨read, ws, bs, raws, sound, wire, spells, rereads, hl⟩ := done
      cases rereads with
      | nil => cases hl
      | cons _ _ rest =>
          cases spells with
          | cons _ spells => exact ⟨read, _, _, _, sound, wire, spells, rest, Nat.succ.inj hl⟩
  | field stands => exact (reread_field done stands).1
  | nextField stands => exact (reread_field done stands).2

/-- Where a struct is read again, so are its fields. -/
theorem Opens.reread (hc : schema.Consistent) {a b : Task} (h : Opens schema a b)
    (done : a.Reread schema) : b.Reread schema := by
  cases h with
  | struct declared =>
      obtain ⟨_, w, bs, raws, -, -, spells, rereads⟩ := done
      cases rereads with
      | struct declared' rereads =>
          cases spells with
          | struct declared'' spells =>
              cases declared.symm.trans declared'
              cases declared.symm.trans declared''
              exact ⟨[], _, _, _, hc.fields_sound declared, .nil, spells, rereads⟩

/-- What is read again has as many elements as were written, so their count was kept. -/
theorem Task.Reread.keepsCount {a : Task} (done : a.Reread schema) : a.KeepsCount := by
  unfold Task.KeepsCount
  split
  · next earlier written element field path v =>
      obtain ⟨read, w, bs, raws, sound, wire, spells, rereads⟩ := done
      cases sound with
      | array hi _ =>
          cases rereads with
          | array counted _ =>
              cases spells with
              | array counted' _ =>
                  exact (wire.resolve_eq_iff (hi field rfl)).mp (counted'.trans counted.symm)
  · trivial

/-- Where a message is read as it was written, every length says the same count on the wire. -/
theorem keepsCounts_of_reread (hc : schema.Consistent) {a : Task} (done : a.Reread schema) :
    KeepsCounts schema a :=
  fun _ _ walk => (walk.keeps (P := Task.Reread schema) Leads.reread (Opens.reread hc)
    done).keepsCount

end Encode

/-! ### Integers that fit their fields -/

namespace Encode

/-- If an integer is written here, it fits its field. -/
def Task.Fits : Task → Prop
  | .value _ _ (.int signed width _) _ (.int i) => Bits.fits signed width.bits i = true
  | _ => True

/-- The integers that can be looked up fit their fields. -/
def Fitting (earlier : Consistency.Earlier) (written : Fields) : Prop :=
  ∀ field signed width default? i, Fields.get? earlier field = some (.int signed width default?) →
    Fields.get? written field = some (.int i) → Bits.fits signed width.bits i = true

/-- An integer that fits is on the wire what it was. -/
theorem Fitting.keepsCount {earlier : Consistency.Earlier} {written : Fields}
    (h : Fitting earlier written) (field : Text) : KeepsCount earlier written field := by
  intro signed width default? i hg hv
  rw [Bits.integer_ofInt width.pos (h field signed width default? i hg hv)]

/-- A field that fits may be put behind others that do. -/
theorem Fitting.put {earlier : Consistency.Earlier} {written : Fields}
    (h : Fitting earlier written) {name : Text} {t : FieldType} {path : Path} {v : Value}
    (hv : (Task.value earlier written t path v).Fits) :
    Fitting (Fields.put earlier name t) (Fields.put written name v) := by
  intro field signed width default? i hg hw
  rcases Fields.get?_put_cases hg with ⟨rfl, rfl⟩ | ⟨he, hg⟩
  · cases Fields.get?_put_self.symm.trans hw
    exact hv
  · exact h field signed width default? i hg ((Fields.get?_put_of_ne he).symm.trans hw)

/-- From a position on all integers fit, and so do those before it. -/
def Task.Fitted (schema : Schema) (a : Task) : Prop :=
  Walk.Always (Leads schema) (Opens schema) Task.Fits a ∧
    match a with
    | value earlier written _ _ _ | elements earlier written _ _ _ _ _
    | fields _ _ _ earlier written => Fitting earlier written

/-- Where all integers fit, they do in all that follows. -/
theorem Leads.fitted {a b : Task} (h : Leads schema a b) (fitted : a.Fitted schema) :
    b.Fitted schema := by
  obtain ⟨always, fitting⟩ := fitted
  refine ⟨always.on h, ?_⟩
  cases h with
  | array | case | element | nextElement | field => exact fitting
  | nextField stands => exact fitting.put (always.on (.field stands)).here

theorem Opens.fitted {a b : Task} (h : Opens schema a b) (fitted : a.Fitted schema) :
    b.Fitted schema := by
  refine ⟨fitted.1.opening h, ?_⟩
  cases h with
  | struct => exact fun _ _ _ _ _ hg _ => nomatch hg

/-- Where every integer fits its field, every length says the same count on the wire. -/
theorem keepsCounts_of_fits {root : Text} {v : Value}
    (h : Walk.Always (Leads schema) (Opens schema) Task.Fits (.start root v)) :
    KeepsCounts schema (.start root v) := by
  intro n task hwalk
  have hfitted : task.Fitted schema := hwalk.keeps (P := Task.Fitted schema) Leads.fitted
    Opens.fitted ⟨h, fun _ _ _ _ _ hg _ => nomatch hg⟩
  unfold Task.KeepsCount
  split
  · exact Fitting.keepsCount hfitted.2 _
  · trivial

end Encode

/-! ### Texts without zero characters -/

/-- Whether a text has no zero character. -/
def zeroFreeText (t : Text) : Bool := t.all fun p => p.val != 0

theorem val_ne_zero_of_zeroFreeText {t : Text} (h : zeroFreeText t = true) :
    ∀ p ∈ t, p.val ≠ 0 :=
  fun p hp => bne_iff_ne.mp (List.all_eq_true.mp h p hp)

mutual

/-- Whether no text in a value has a zero character. -/
def Value.zeroFree : Value → Bool
  | .text s => zeroFreeText s
  | .list items => zeroFreeItems items
  | .map members => zeroFreeMembers members
  | _ => true

def Value.zeroFreeItems : List Value → Bool
  | [] => true
  | v :: items => v.zeroFree && zeroFreeItems items

def Value.zeroFreeMembers : List (Text × Value) → Bool
  | [] => true
  | (_, v) :: members => v.zeroFree && zeroFreeMembers members

end

mutual

/-- Whether no default of a text in UTF-8 has a zero character. -/
def FieldType.zeroFree : FieldType → Bool
  | .text .utf8 default? => zeroFreeText (default?.getD "")
  | .array element _ => element.zeroFree
  | .union _ _ cases => zeroFreeCases cases
  | _ => true

def FieldType.zeroFreeCases : List (Text × FieldType) → Bool
  | [] => true
  | (_, t) :: cases => t.zeroFree && zeroFreeCases cases

end

/-- Whether no default in a schema has a zero character, in UTF-8. -/
def Schema.zeroFree (schema : Schema) : Bool :=
  schema.structs.all fun s => s.fields.all (·.2.zeroFree)

namespace Value

theorem zeroFree_of_mem_items {v : Value} {items : List Value}
    (h : zeroFreeItems items = true) (hm : v ∈ items) : v.zeroFree = true := by
  induction items with
  | nil => cases hm
  | cons w items ih =>
      obtain ⟨hw, hrest⟩ := Bool.and_eq_true_iff.mp h
      rcases List.mem_cons.mp hm with rfl | hm
      · exact hw
      · exact ih hrest hm

theorem zeroFree_of_mem_members {name : Text} {v : Value} {members : Fields}
    (h : zeroFreeMembers members = true) (hm : (name, v) ∈ members) : v.zeroFree = true := by
  induction members with
  | nil => cases hm
  | cons head members ih =>
      obtain ⟨hw, hrest⟩ := Bool.and_eq_true_iff.mp h
      rcases List.mem_cons.mp hm with rfl | hm
      · exact hw
      · exact ih hrest hm

/-- What lies in a value without zero characters has none. -/
theorem zeroFree_of_at? {steps : List PathStep} : ∀ {v w : Value}, v.zeroFree = true →
    v.at? steps = some w → w.zeroFree = true := by
  induction steps with
  | nil =>
      intro v w h hat
      cases hat
      exact h
  | cons step steps ih =>
      intro v w h hat
      cases step with
      | field name =>
          obtain ⟨u, hu, hat⟩ := Option.bind_eq_some_iff.mp hat
          refine ih ?_ hat
          cases v with
          | map members => exact zeroFree_of_mem_members h (Fields.mem_of_get? hu)
          | _ => cases hu
      | index i =>
          obtain ⟨u, hu, hat⟩ := Option.bind_eq_some_iff.mp hat
          refine ih ?_ hat
          cases v with
          | list items => exact zeroFree_of_mem_items h (List.mem_of_getElem? hu)
          | _ => cases hu

end Value

theorem FieldType.zeroFree_of_mem_cases {label : Text} {t : FieldType}
    {cases : List (Text × FieldType)} (h : zeroFreeCases cases = true)
    (hm : (label, t) ∈ cases) : t.zeroFree = true := by
  induction cases with
  | nil => cases hm
  | cons head cases ih =>
      obtain ⟨ht, hrest⟩ := Bool.and_eq_true_iff.mp h
      rcases List.mem_cons.mp hm with rfl | hm
      · exact ht
      · exact ih hrest hm

namespace Encode

/-- At a position no default has a zero character. -/
def Task.DefaultsFree : Task → Prop
  | value _ _ t _ _ | elements _ _ t _ _ _ _ => t.zeroFree = true
  | fields _ left _ _ _ => ∀ f ∈ left, f.2.zeroFree = true

/-- A type without zero characters has only such types inside. -/
theorem Leads.defaultsFree {a b : Task} (h : Leads schema a b) (free : a.DefaultsFree) :
    b.DefaultsFree := by
  cases h with
  | array | element | nextElement => exact free
  | case _ case => exact FieldType.zeroFree_of_mem_cases free (Fields.mem_of_get? case)
  | field => exact free _ List.mem_cons_self
  | nextField => exact fun f hm => free f (List.mem_cons_of_mem _ hm)

/-- A struct that is opened has no zero characters in its defaults, for none in the schema has. -/
theorem Opens.defaultsFree (hschema : schema.zeroFree = true) {a b : Task}
    (h : Opens schema a b) : b.DefaultsFree := by
  cases h with
  | struct declared =>
      exact List.all_eq_true.mp (List.all_eq_true.mp hschema _ (Schema.struct?_mem declared))

/-- Where neither the value that is given nor a default has a zero character, the encoder comes to
no text with one. -/
theorem zeroFree_of_texts (hnames : ∀ s ∈ schema.structs, s.fieldNames.Nodup)
    (hschema : schema.zeroFree = true) {root : Text} {v : Value} (hv : v.zeroFree = true) :
    ZeroFree schema (.start root v) := by
  intro n task hwalk
  obtain ⟨_, -, hroom⟩ := Reaches.room hnames hwalk
  have hfree : task.DefaultsFree := hwalk.keeps (P := Task.DefaultsFree) Leads.defaultsFree
    (fun h _ => h.defaultsFree hschema) rfl
  unfold Task.ZeroFree
  split
  · next s =>
      rcases hroom with ⟨hat, -⟩ | ⟨_, _, -, built⟩
      · exact val_ne_zero_of_zeroFreeText (Value.zeroFree_of_at? hv hat)
      · cases built
        exact val_ne_zero_of_zeroFreeText hfree
  · trivial

end Encode

end WireSchema
