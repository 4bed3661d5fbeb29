import WireSchema.Proofs.Codec.Positions
import WireSchema.Proofs.Codec.Reading
import WireSchema.Proofs.Consistency.Siblings

/-!
# Codec — The walk of the decoder

`Decode.Task` is a position of the decoder: what it is about to read, among which siblings, and from
where. `Decode.Leads` is one step from a position to the next; what has been read in between is a
message. `Decode.Opens` is the step into a struct.

A read that fails fails at a position to which the walk has come, with its path
(`Decode.ends_of_run`). In a schema without cycles there is room for every walk: no more than
`(n + 1) * N` of `N` structs are opened inside one another in `n` bits (`Decode.openings_le`), so a
read never fails for their nesting. In a consistent schema without empty labels whatever is looked
up on the way is there (`Decode.Task.Sound`), and all that can be wrong is a code
(`Decode.Unlabelled`).
-/

namespace WireSchema

/-- What is read for an integer is one, and what is read for an enum is one of its labels. -/
theorem Spells.offers {schema : Schema} {siblings : Fields} {t : FieldType} {v : Value} {bs : Bits}
    {raws : List Raw} (h : Spells schema siblings t v bs raws) : t.Offers schema v := by
  cases h with
  | int => exact ⟨_, rfl⟩
  | enum declared _ found =>
      exact ⟨_, _, declared, List.mem_map_of_mem (EnumDef.labelOf?_mem found), rfl⟩
  | _ => trivial

namespace Decode

/-- What the decoder is about to read, behind the fields `read` of the types `earlier`. -/
inductive Task
  | value (earlier : Consistency.Earlier) (read : Fields) (t : FieldType) (path : Path) (c : Cursor)
  /-- The elements of an array from number `i` on, `count` of them. -/
  | elements (earlier : Consistency.Earlier) (read : Fields) (t : FieldType) (path : Path)
    (i count : Nat) (c : Cursor)
  /-- The fields that are left of a struct. -/
  | fields (left : List (Text × FieldType)) (path : Path) (earlier : Consistency.Earlier)
    (read : Fields) (c : Cursor)

section

variable (schema : Schema)

/-- A step of the decoder within a struct. -/
inductive Leads : Task → Task → Prop
  | array {earlier read element length count path c} (counted : length.resolve read = .ok count) :
      Leads (.value earlier read (.array element length) path c)
        (.elements earlier read element path 0 count c)
  | case {earlier read discriminant enumName cases label t path c}
      (chosen : read.label? discriminant = some label) (case : Fields.get? cases label = some t) :
      Leads (.value earlier read (.union discriminant enumName cases) path c)
        (.value earlier read t path c)
  | element {earlier read t path i count c} :
      Leads (.elements earlier read t path i (count + 1) c)
        (.value earlier read t (path.element i) c)
  | nextElement {earlier read t path i count c v bs raws c'}
      (first : Spells schema read t v bs raws) (taken : c.Takes bs c') :
      Leads (.elements earlier read t path i (count + 1) c)
        (.elements earlier read t path (i + 1) count c')
  | field {name t left path earlier read c} :
      Leads (.fields ((name, t) :: left) path earlier read c)
        (.value earlier read t (path.child name) c)
  | nextField {name t left path earlier read c v bs raws c'}
      (first : Spells schema read t v bs raws) (taken : c.Takes bs c') :
      Leads (.fields ((name, t) :: left) path earlier read c)
        (.fields left path (Fields.put earlier name t) (Fields.put read name v) c')

/-- The step of the decoder into a struct. -/
inductive Opens : Task → Task → Prop
  | struct {earlier read name s path c} (declared : schema.struct? name = some s) :
      Opens (.value earlier read (.struct name) path c) (.fields s.fields path [] [] c)

/-- Why a value of a type cannot be read. -/
inductive Refused : Fields → FieldType → Cursor → Fault → Prop
  | unknownStruct {read name c} (h : schema.struct? name = none) :
      Refused read (.struct name) c (.unknownStruct name)
  | unknownEnum {read name signed width default? c} (h : schema.enum? name = none) :
      Refused read (.enum name signed width default?) c (.unknownEnum name)
  | unknownCode {read name signed default? c e bs c'} {width : BitWidth}
      (declared : schema.enum? name = some e) (hl : bs.length = width.bits) (taken : c.Takes bs c')
      (h : e.labelOf? (Bits.integer signed bs) = none) :
      Refused read (.enum name signed width default?) c
        (.unknownCode (Bits.integer signed bs) name)
  | unreadLength {read element length field c} (h : length.resolve read = .error field) :
      Refused read (.array element length) c (.unreadLength field)
  | unreadDiscriminant {read discriminant enumName cases c}
      (h : read.label? discriminant = none) :
      Refused read (.union discriminant enumName cases) c (.unreadDiscriminant discriminant)
  | noCase {read discriminant enumName cases label c}
      (chosen : read.label? discriminant = some label) (h : Fields.get? cases label = none) :
      Refused read (.union discriminant enumName cases) c (.noReadCase label)

/-- A position fails with what the value there is refused for, at its own path. -/
inductive Fails : Task → Failure → Prop
  | value {earlier read t path c cause} (refused : Refused schema read t c cause) :
      Fails (.value earlier read t path c) (.fault cause (some path))

/-- The walk from a position to another. -/
abbrev Reaches : Nat → Task → Task → Prop := Walk (Leads schema) (Opens schema)

/-- How a read with a bound on the nesting of structs stops. -/
abbrev Ends : Nat → Task → Failure → Prop := Walk.Ends (Leads schema) (Opens schema) (Fails schema)

/-- The first position of a message. -/
def Task.start (data : Array UInt8) (root : Text) : Task :=
  .value [] [] (.struct root) (Path.ofRoot root) (Cursor.ofBytes data)

end

variable {schema : Schema}

/-! ### A read that fails fails at a position -/

/-- What encoder and decoder have in common at a position. -/
def Task.position : Task → Position
  | value _ read t path _ => .value read t path
  | elements _ read t path i count _ => .elements read t path i count
  | fields left path _ read _ => .fields left path read

theorem Leads.position {a b : Task} (h : Leads schema a b) :
    Position.Leads a.position b.position := by
  cases h with
  | array counted => exact .array counted
  | case _ case => exact .case case
  | element => exact .element
  | nextElement => exact .nextElement
  | field => exact .field
  | nextField => exact .nextField

theorem Opens.position {a b : Task} (h : Opens schema a b) :
    Position.Opens schema a.position b.position := by
  cases h with
  | struct declared => exact .struct declared

/-- Within a struct the decoder does not walk on without end. -/
theorem wellFounded_leads (schema : Schema) : WellFounded fun b a => Leads schema a b :=
  Subrelation.wf Leads.position (InvImage.wf Task.position Position.wellFounded_leads)

/-- At a position the decoder stops with a failure, with room for so many structs inside one
another. -/
def Task.Stops (schema : Schema) (failure : Failure) (room : Nat) : Task → Prop
  | value _ read t path c =>
      ofType schema (ofStruct schema room) read t path c = .stopped failure
  | elements _ read t path i count c =>
      ∃ before, Decode.elements (ofType schema (ofStruct schema room) read t) path (i + count) count
        before c = .stopped failure
  | fields left path _ read c =>
      Decode.fields (ofType schema (ofStruct schema room)) path left read c = .stopped failure

/-- Why the decoder stops at a position. -/
abbrev StopsFor (schema : Schema) (failure : Failure) : Task → Nat → Prop :=
  Walk.Stops (Leads schema) (Opens schema) (Fails schema) (Task.Stops schema failure) failure

/-- Data that ends too early is no failure. -/
theorem ofTaken_ne_stopped {α : Type} {c : Cursor} {toValue : α → Value}
    {taken : Option (α × Cursor)} {failure : Failure} :
    Decoding.ofTaken c toValue taken ≠ .stopped failure := by
  cases taken with
  | none => exact Decoding.noConfusion
  | some p => exact Decoding.noConfusion

section

variable {failure : Failure} {room : Nat} {earlier : Consistency.Earlier} {read : Fields}
  {path : Path} {c : Cursor}

/-- A value that cannot be read is a failure at its own position. -/
theorem refused {t : FieldType} {cause : Fault} (h : Refused schema read t c cause) :
    StopsFor schema (.fault cause (some path)) (.value earlier read t path c) room :=
  .fails (.value h)

/-- An array stops where one of its elements does. -/
theorem stops_elements {t : FieldType} {i count : Nat}
    (h : (Task.elements earlier read t path i count c).Stops schema failure room) :
    StopsFor schema failure (.elements earlier read t path i count c) room := by
  obtain ⟨before, h⟩ := h
  cases count with
  | zero => cases h
  | succ count =>
      -- the decoder counts the elements that are left, the path those before
      rw [Decode.elements, Nat.add_sub_cancel] at h
      split at h
      · next v rest hv =>
          obtain ⟨bs, raws, hs, ht⟩ := sound_ofType (sound_ofStruct read) _ _ _ _ _ hv
          rw [show i + (count + 1) = i + 1 + count by omega] at h
          exact .leads (.nextElement hs ht) ⟨_, h⟩
      · cases h
      · next e he =>
          cases h
          exact .leads .element he

/-- A struct stops where one of its fields does. -/
theorem stops_fields {left : List (Text × FieldType)}
    (h : (Task.fields left path earlier read c).Stops schema failure room) :
    StopsFor schema failure (.fields left path earlier read c) room := by
  cases left with
  | nil => cases h
  | cons head left =>
      obtain ⟨name, t⟩ := head
      rw [Task.Stops, Decode.fields] at h
      split at h
      · next v rest hv =>
          obtain ⟨bs, raws, hs, ht⟩ := sound_ofType (sound_ofStruct read) _ _ _ _ _ hv
          exact .leads (.nextField hs ht) h
      · cases h
      · next e he =>
          cases h
          exact .leads .field he

theorem stops_struct {name : Text}
    (h : (Task.value earlier read (.struct name) path c).Stops schema failure room) :
    StopsFor schema failure (.value earlier read (.struct name) path c) room := by
  rw [Task.Stops, ofType, ofStruct.eq_def] at h
  cases hs : schema.struct? name with
  | none =>
      simp only [hs] at h
      cases h
      exact refused (.unknownStruct hs)
  | some s =>
      simp only [hs] at h
      cases room with
      | zero =>
          -- nothing may be opened any more, and this would be one struct more
          cases h
          exact .deep (.struct hs) rfl
      | succ room => exact .opens (.struct hs) h

theorem stops_value {t : FieldType}
    (h : (Task.value earlier read t path c).Stops schema failure room) :
    StopsFor schema failure (.value earlier read t path c) room := by
  cases t with
  | int signed width default? =>
      rw [Task.Stops, ofType, integer_eq] at h
      exact absurd h ofTaken_ne_stopped
  | float width default? =>
      cases width with
      | f32 | f64 => exact absurd h ofTaken_ne_stopped
  | text charset default? => exact absurd h ofTaken_ne_stopped
  | enum name signed width default? =>
      rw [Task.Stops, ofType] at h
      split at h
      · next hd =>
          cases h
          exact refused (.unknownEnum hd)
      · next e hd =>
          split at h
          · next hi =>
              rw [integer_eq] at hi
              cases hi
          · cases h
          · next code rest hi =>
              obtain ⟨bs, hl, rfl, ht⟩ := integer_eq_some_iff.mp hi
              split at h
              · cases h
              · next hf =>
                  cases h
                  exact refused (.unknownCode hd hl ht hf)
  | struct name => exact stops_struct h
  | array element length =>
      rw [Task.Stops, ofType] at h
      split at h
      · next field hl =>
          cases h
          exact refused (.unreadLength hl)
      · next count hl =>
          refine .leads (.array hl) ⟨[], ?_⟩
          rwa [Nat.zero_add]
  | union discriminant enumName cases =>
      rw [Task.Stops, ofType] at h
      split at h
      · next hl =>
          cases h
          exact refused (.unreadDiscriminant hl)
      · next label hl =>
          rw [ofCase_eq] at h
          cases hu : Fields.get? cases label with
          | none =>
              rw [hu] at h
              cases h
              exact refused (.noCase hl hu)
          | some t =>
              rw [hu] at h
              exact .leads (.case hl hu) h

end

/-- Wherever the decoder stops, it is refused there or stops one step further. -/
theorem Task.Stops.stopsFor {failure : Failure} {room : Nat} {a : Task}
    (h : a.Stops schema failure room) : StopsFor schema failure a room := by
  cases a with
  | value => exact stops_value h
  | elements => exact stops_elements h
  | fields => exact stops_fields h

/-- A position fails for a fault, with its own path. -/
theorem Fails.eq_fault {task : Task} {failure : Failure} (h : Fails schema task failure) :
    ∃ cause, failure = .fault cause (some task.position.path) := by
  cases h with
  | value => exact ⟨_, rfl⟩

/-- A read that stops at a position is explained by the walk from there. -/
theorem ends_of_stops {failure : Failure} {room : Nat} {a : Task}
    (h : a.Stops schema failure room) : Ends schema room a failure :=
  Walk.ends_of_along (wellFounded_leads schema) Task.Stops.stopsFor h

/-- A message that is not read is explained by the walk from its first position. -/
theorem ends_of_run {data : Array UInt8} {root : Text} {failure : Failure}
    (h : run schema data root = .stopped failure) :
    Ends schema (depthBound schema data.size) (.start data root) failure :=
  ends_of_stops h

/-! ### There is room for every walk -/

/-- Room for all structs that can be opened inside one another from a position on. -/
def Task.Room (schema : Schema) (depth : Nat) : Task → Prop
  | value _ read t _ c => Decode.Room schema depth c.remaining read t
  | elements _ read t _ _ count c => 0 < count → Decode.Room schema depth c.remaining read t
  | fields left _ _ read c =>
      ∃ name s before, schema.struct? name = some s ∧ (∀ f ∈ left, f ∈ s.fields) ∧
        (before + c.remaining) * schema.structs.length + schema.rank name ≤ depth ∧
        (read.Resolve → 1 ≤ before)

/-- Within a struct the room stays: what is looked up has taken a bit, and what is embedded ranks
lower. -/
theorem Leads.room (ha : schema.Acyclic) {depth : Nat} {a b : Task} (h : Leads schema a b)
    (room : a.Room schema depth) : b.Room schema depth := by
  cases h with
  | array counted => exact fun h₀ => Room.element ha counted h₀ room
  | case chosen case => exact Room.case ha chosen room _
  | element => exact room (Nat.succ_pos _)
  | nextElement _ taken =>
      intro _
      refine Room.mono ?_ (room (Nat.succ_pos _))
      have := taken.remaining_eq
      omega
  | field =>
      obtain ⟨name, s, before, hs, hf, hd, hr⟩ := room
      have hd : (before + _ + 0) * schema.structs.length + schema.rank name ≤ depth := hd
      exact Room.field ha hs (hf _ List.mem_cons_self) hd hr
  | nextField first taken =>
      obtain ⟨name, s, before, hs, hf, hd, hr⟩ := room
      rw [taken.remaining_eq, ← Nat.add_assoc] at hd
      refine ⟨name, s, _, hs, fun f hm => hf f (List.mem_cons_of_mem _ hm), hd, fun hres => ?_⟩
      -- whatever can be looked up has taken at least one bit
      rcases hres.of_put with hres | hv
      · have := hr hres
        omega
      · have := first.length_pos hv
        omega

/-- Opening a struct takes one of the room. -/
theorem Opens.room {depth : Nat} {a b : Task} (h : Opens schema a b)
    (room : a.Room schema depth) : ∃ less, depth = less + 1 ∧ b.Room schema less := by
  cases h with
  | @struct _ _ name s path c declared =>
      have hd := room.embedded name (List.mem_singleton.mpr rfl) s declared
      obtain ⟨less, rfl⟩ := Nat.exists_eq_succ_of_ne_zero (Nat.ne_zero_of_lt hd)
      refine ⟨less, rfl, name, s, 0, declared, fun _ hm => hm, ?_, fun ⟨_, _, hg, _⟩ => nomatch hg⟩
      rw [Nat.zero_add]
      omega

/-- So many structs fit in one that lies in so many bits. -/
theorem room_struct (ha : schema.Acyclic) {depth bits : Nat} {name : Text}
    (h : (bits + 1) * schema.structs.length ≤ depth) :
    Room schema depth bits [] (.struct name) := by
  refine ⟨fun name _ s hs => ?_, fun ⟨_, _, hg, _⟩ => nomatch hg⟩
  have hrank := ha.rank_lt hs
  rw [Nat.add_mul, Nat.one_mul] at h
  omega

theorem room_start (ha : schema.Acyclic) (data : Array UInt8) (root : Text) :
    (Task.start data root).Room schema (depthBound schema data.size) :=
  room_struct ha (Nat.le_refl _)

/-- **Reading ends.** In a schema without cycles no walk opens more structs inside one another than
the bound allows for. -/
theorem openings_le (ha : schema.Acyclic) {data : Array UInt8} {root : Text} {n : Nat}
    {task : Task} (h : Reaches schema n (.start data root) task) :
    n ≤ depthBound schema data.size := by
  obtain ⟨less, hl, -⟩ := h.keeps_room (R := Task.Room schema) (fun h => h.room ha) Opens.room
    (room_start ha data root)
  omega

/-- In a schema without cycles what a read stops with is a position that fails. -/
theorem exists_fails_of_run (ha : schema.Acyclic) {data : Array UInt8} {root : Text}
    {failure : Failure} (h : run schema data root = .stopped failure) :
    ∃ n task, Reaches schema n (.start data root) task ∧ Fails schema task failure :=
  (ends_of_run h).exists_fails (R := Task.Room schema) (fun h => h.room ha) Opens.room
    (room_start ha data root)

/-- No message is too deep for a schema without cycles. -/
theorem run_ne_tooDeep (ha : schema.Acyclic) (data : Array UInt8) (root : Text) :
    run schema data root ≠ .stopped .tooDeep := by
  intro h
  obtain ⟨_, _, _, fails⟩ := exists_fails_of_run ha h
  cases fails

/-! ### In a consistent schema nothing is wrong on the way -/

/-- At a position nothing is wrong with the types, and the fields before it are there. -/
def Task.Sound (schema : Schema) : Task → Prop
  | value earlier read t _ _ | elements earlier read t _ _ _ _ =>
      schema.Sound earlier t ∧ Siblings.Held schema earlier read
  | fields left _ earlier read _ =>
      schema.SoundFields left earlier ∧ Siblings.Held schema earlier read

theorem sound_start {data : Array UInt8} {root : Text} {s : StructDef}
    (hs : schema.struct? root = some s) : (Task.start data root).Sound schema :=
  ⟨.struct hs, .nil⟩

/-- Soundness passes on to each step within a struct. -/
theorem Leads.sound {a b : Task} (h : Leads schema a b) (sound : a.Sound schema) :
    b.Sound schema := by
  cases h with
  | array =>
      obtain ⟨hsound, held⟩ := sound
      cases hsound with
      | array _ inner => exact ⟨inner, held⟩
  | case _ case =>
      obtain ⟨hsound, held⟩ := sound
      cases hsound with
      | union _ _ _ inner => exact ⟨inner _ _ (Fields.mem_of_get? case), held⟩
  | element => exact sound
  | nextElement => exact sound
  | field => exact ⟨sound.1.2.1, sound.2⟩
  | nextField first => exact ⟨sound.1.2.2, sound.2.put first.offers⟩

theorem Opens.sound (hc : schema.Consistent) {a b : Task} (h : Opens schema a b) :
    b.Sound schema := by
  cases h with
  | struct declared => exact ⟨hc.fields_sound declared, .nil⟩

/-- Soundness passes on along every walk. -/
theorem Reaches.sound (hc : schema.Consistent) {n : Nat} {a b : Task}
    (h : Reaches schema n a b) : a.Sound schema → b.Sound schema :=
  h.keeps (P := Task.Sound schema) Leads.sound fun h _ => h.sound hc

/-- At a position of a message lies a field of an enum, and its code has no label there. -/
structure Unlabelled (schema : Schema) (data : Array UInt8) (root : Text) (path : Path)
    (name : Text) (code : Int) : Prop where
  reached : ∃ n earlier read signed width default? c c' bs,
    Reaches schema n (.start data root)
      (.value earlier read (.enum name signed width default?) path c) ∧
    c.Takes bs c' ∧ bs.length = width.bits ∧ Bits.integer signed bs = code
  labelOf?_eq : ∃ e, schema.enum? name = some e ∧ e.labelOf? code = none

/-- Of a sound position only a code can be refused. -/
theorem Refused.eq_unknownCode (hlabels : schema.LabelsNonempty)
    {earlier : Consistency.Earlier} {read : Fields} {t : FieldType} {c : Cursor} {cause : Fault}
    (h : Refused schema read t c cause) (sound : schema.Sound earlier t)
    (held : Siblings.Held schema earlier read) :
    ∃ name signed width default? e bs c', t = .enum name signed width default? ∧
      schema.enum? name = some e ∧ c.Takes bs c' ∧ bs.length = width.bits ∧
      e.labelOf? (Bits.integer signed bs) = none ∧
      cause = .unknownCode (Bits.integer signed bs) name := by
  cases h with
  | unknownStruct h =>
      cases sound with
      | struct declared => cases declared.symm.trans h
  | unknownEnum h =>
      cases sound with
      | enum declared => cases declared.symm.trans h
  | unknownCode declared hl taken h => exact ⟨_, _, _, _, _, _, _, rfl, declared, taken, hl, h, rfl⟩
  | unreadLength h =>
      cases sound with
      | array counted =>
          obtain ⟨count, hcount⟩ := held.exists_resolve counted
          cases hcount.symm.trans h
  | unreadDiscriminant h =>
      obtain ⟨label, t, hl, -⟩ := held.exists_case hlabels sound
      cases hl.symm.trans h
  | noCase chosen h =>
      obtain ⟨label, t, hl, ht⟩ := held.exists_case hlabels sound
      cases chosen.symm.trans hl
      cases ht.symm.trans h

/-- In a consistent schema without empty labels a read stops with nothing but a code. -/
theorem unlabelled_of_run (hc : schema.Consistent) (hlabels : schema.LabelsNonempty)
    {data : Array UInt8} {root : Text} {s : StructDef} (hs : schema.struct? root = some s)
    {failure : Failure} (h : run schema data root = .stopped failure) :
    ∃ path name code, Unlabelled schema data root path name code ∧
      failure = .fault (.unknownCode code name) (some path) := by
  obtain ⟨n, task, hwalk, hfails⟩ := exists_fails_of_run hc.acyclic h
  have hsound := Reaches.sound hc hwalk (sound_start hs)
  cases hfails with
  | value refused =>
      obtain ⟨name, signed, width, default?, e, bs, c', rfl, he, ht, hl, hn, rfl⟩ :=
        refused.eq_unknownCode hlabels hsound.1 hsound.2
      exact ⟨_, name, _, ⟨⟨_, _, _, _, _, _, _, _, _, hwalk, ht, hl, rfl⟩, e, he, hn⟩, rfl⟩

end Decode

/-- What decoding stops with is what the walk stops with. -/
theorem Schema.run_of_decode {schema : Schema} {data : Array UInt8} {root : Text}
    {options : Options} {failure : Failure}
    (h : (schema.decode data root options).outcome = .error failure) :
    Decode.run schema data root = .stopped failure := by
  rw [decode] at h
  cases hrun : Decode.run schema data root with
  | done v rest =>
      rw [hrun] at h
      cases h
  | cut read? rest notices =>
      rw [hrun] at h
      cases h
  | stopped failure =>
      rw [hrun] at h
      cases h
      rfl

end WireSchema
