import WireSchema.Proofs.Codec.Defaults
import WireSchema.Proofs.Codec.Positions
import WireSchema.Proofs.Codec.Writing

/-!
# Codec — The walk of the encoder

`Encode.Task` is a position of the encoder: what it is about to write, and behind which fields.
`Encode.Leads` is one step from a position to the next, over what stands for the value there; what
has been written in between is written with gaps. `Encode.Opens` is the step into a struct.

An encoding that fails fails at a position to which the walk has come, with its path, or with the
path of the struct or array around a gap that cannot be filled (`Encode.ends_of_script`). The walk
is always in what is given, at the place that its path says (`Encode.Task.Given`), or in a default
(`Encode.Task.Filled`), and there every step only finds defaults that have been built already. So
the nesting of structs is bounded by the depth of what is given and by what a default needs, and an
encoding never fails for it.

In a consistent schema without empty labels whatever is looked up on the way is there
(`Encode.Task.Sound`). All that can be wrong is a value that is given (`Encode.Misplaced`) and a
struct without a default (`Default.Endless`).
-/

namespace WireSchema

/-- What a path leads to from a value. -/
def Value.at? (v : Value) : List PathStep → Option Value
  | [] => some v
  | .field name :: steps => (Fields.get? v.members name).bind (·.at? steps)
  | .index i :: steps => v.items[i]?.bind (·.at? steps)

/-- What lies at the end of two ways lies at the end of the second from the end of the first. -/
theorem Value.at?_append {v : Value} {steps more : List PathStep} :
    v.at? (steps ++ more) = (v.at? steps).bind (·.at? more) := by
  induction steps generalizing v with
  | nil => rfl
  | cons step steps ih =>
      cases step with
      | field name =>
          rw [List.cons_append, at?, at?, Option.bind_assoc]
          exact congrArg _ (funext fun w => ih)
      | index i =>
          rw [List.cons_append, at?, at?, Option.bind_assoc]
          exact congrArg _ (funext fun w => ih)

/-- What a field of a map holds lies one step further. -/
theorem Value.at?_child {v : Value} {path : Path} {members : Fields} {name : Text} {w : Value}
    (h : v.at? path.steps = some (.map members)) (hw : Fields.get? members name = some w) :
    v.at? (path.child name).steps = some w := by
  rw [Path.child, at?_append, h]
  exact Option.bind_eq_some_iff.mpr ⟨_, rfl, Option.bind_eq_some_iff.mpr ⟨w, hw, rfl⟩⟩

/-- An item of a list lies one step further. -/
theorem Value.at?_element {v : Value} {path : Path} {items : List Value} {i : Nat} {w : Value}
    (h : v.at? path.steps = some (.list items)) (hw : items[i]? = some w) :
    v.at? (path.element i).steps = some w := by
  rw [Path.element, at?_append, h]
  exact Option.bind_eq_some_iff.mpr ⟨_, rfl, Option.bind_eq_some_iff.mpr ⟨w, hw, rfl⟩⟩

section

variable {schema : Schema} {gaps : Bool} {siblings : Fields} {t : FieldType} {v : Value} {bs : Bits}

/-- What is written for an integer is one, and what is written for an enum is one of its labels. -/
theorem Writes.offers (h : Writes schema gaps siblings t v bs) : t.Offers schema v := by
  cases h with
  | int => exact ⟨_, rfl⟩
  | enum declared known =>
      exact ⟨_, _, declared, EnumDef.isSome_codeOf?_iff.mp (Option.isSome_of_eq_some known), rfl⟩
  | _ => trivial

end

namespace Encode

/-- What the encoder is about to write, behind the fields `written` of the types `earlier`. -/
inductive Task
  | value (earlier : Consistency.Earlier) (written : Fields) (t : FieldType) (path : Path)
    (v : Value)
  /-- The elements of an array from number `i` on, `count` of them. -/
  | elements (earlier : Consistency.Earlier) (written : Fields) (t : FieldType) (path : Path)
    (i count : Nat) (items : List Value)
  /-- The fields that are left of a struct. -/
  | fields (members : Fields) (left : List (Text × FieldType)) (path : Path)
    (earlier : Consistency.Earlier) (written : Fields)

section

variable (schema : Schema)

/-- A step of the encoder within a struct. -/
inductive Leads : Task → Task → Prop
  | array {earlier written element length count path items}
      (counted : length.resolve written = .ok count) :
      Leads (.value earlier written (.array element length) path (.list items))
        (.elements earlier written element path 0 count items)
  | case {earlier written discriminant enumName cases label t path v}
      (chosen : written.label? discriminant = some label)
      (case : Fields.get? cases label = some t) :
      Leads (.value earlier written (.union discriminant enumName cases) path v)
        (.value earlier written t path v)
  | element {earlier written t path i count items v}
      (stands : Stands schema true written t (items.headD .null) v) :
      Leads (.elements earlier written t path i (count + 1) items)
        (.value earlier written t (path.element i) v)
  | nextElement {earlier written t path i count items v bs}
      (stands : Stands schema true written t (items.headD .null) v)
      (first : Writes schema true written t v bs) :
      Leads (.elements earlier written t path i (count + 1) items)
        (.elements earlier written t path (i + 1) count items.tail)
  | field {members name t left path earlier written v}
      (stands : Stands schema true written t ((Fields.get? members name).getD .null) v) :
      Leads (.fields members ((name, t) :: left) path earlier written)
        (.value earlier written t (path.child name) v)
  | nextField {members name t left path earlier written v bs}
      (stands : Stands schema true written t ((Fields.get? members name).getD .null) v)
      (first : Writes schema true written t v bs) :
      Leads (.fields members ((name, t) :: left) path earlier written)
        (.fields members left path (Fields.put earlier name t) (Fields.put written name v))

/-- The step of the encoder into a struct. -/
inductive Opens : Task → Task → Prop
  | struct {earlier written name s path members} (declared : schema.struct? name = some s) :
      Opens (.value earlier written (.struct name) path (.map members))
        (.fields members s.fields path [] [])

/-- Why a value does not fit a type: it has the wrong shape, or it is no label of the enum. -/
inductive Misfit : FieldType → Value → Fault → Prop
  | int {signed width default? v} (h : ∀ i, v ≠ .int i) :
      Misfit (.int signed width default?) v (.expectedInt v.typeName)
  | float {width default? v} (h : float? v = none) :
      Misfit (.float width default?) v (.expectedFloat v.typeName)
  | text {charset default? v} (h : ∀ s, v ≠ .text s) :
      Misfit (.text charset default?) v (.expectedText charset v.typeName)
  | label {name signed width default? e v} (declared : schema.enum? name = some e)
      (h : ∀ label ∈ e.labels, v ≠ .text label) :
      Misfit (.enum name signed width default?) v (.unknownLabel v name)
  | map {name s v} (declared : schema.struct? name = some s) (h : ∀ members, v ≠ .map members) :
      Misfit (.struct name) v (.expectedMap name v.typeName)
  | list {element length v} (h : ∀ items, v ≠ .list items) :
      Misfit (.array element length) v (.expectedList v.typeName)

/-- Why a value cannot be written as a type. -/
inductive Refused (strict : Bool) : Fields → FieldType → Value → Fault → Prop
  | misfit {written t v cause} (h : Misfit schema t v cause) : Refused strict written t v cause
  | unknownStruct {written name v} (h : schema.struct? name = none) :
      Refused strict written (.struct name) v (.unknownStruct name)
  | unknownEnum {written name signed width default? v} (h : schema.enum? name = none) :
      Refused strict written (.enum name signed width default?) v (.unknownEnum name)
  | unwrittenLength {written element length field v} (h : length.resolve written = .error field) :
      Refused strict written (.array element length) v (.unwrittenLength field)
  | lengthMismatch {written element length count items} (hs : strict = true)
      (counted : length.resolve written = .ok count) (h : items.length ≠ count) :
      Refused strict written (.array element length) (.list items)
        (.lengthMismatch count items.length)
  | unwrittenDiscriminant {written discriminant enumName cases v}
      (h : written.label? discriminant = none) :
      Refused strict written (.union discriminant enumName cases) v
        (.unwrittenDiscriminant discriminant)
  | noCase {written discriminant enumName cases label v}
      (chosen : written.label? discriminant = some label) (h : Fields.get? cases label = none) :
      Refused strict written (.union discriminant enumName cases) v
        (.noWrittenCase label enumName)

/-- A position fails with what the value there is refused for, or with that for which a gap there
cannot be filled. -/
inductive Fails (strict : Bool) : Task → Failure → Prop
  | value {earlier written t path v cause} (refused : Refused schema strict written t v cause) :
      Fails strict (.value earlier written t path v) (.fault cause (some path))
  | element {earlier written t path i count items failure}
      (missing : (items.headD .null).isNull = true)
      (h : schema.defaultValue t written = .error failure) :
      Fails strict (.elements earlier written t path i (count + 1) items) (failure.locate path)
  | field {members name t left path earlier written failure}
      (missing : ((Fields.get? members name).getD .null).isNull = true)
      (h : schema.defaultValue t written = .error failure) :
      Fails strict (.fields members ((name, t) :: left) path earlier written)
        (failure.locate path)

/-- The walk from a position to another. -/
abbrev Reaches : Nat → Task → Task → Prop := Walk (Leads schema) (Opens schema)

/-- How an encoding with a bound on the nesting of structs stops. -/
abbrev Ends (strict : Bool) : Nat → Task → Failure → Prop :=
  Walk.Ends (Leads schema) (Opens schema) (Fails schema strict)

/-- The first position of a value. -/
def Task.start (root : Text) (v : Value) : Task :=
  .value [] [] (.struct root) (Path.ofRoot root) v

end

variable {schema : Schema} {strict : Bool}

/-! ### An encoding that fails fails at a position -/

/-- What encoder and decoder have in common at a position. -/
def Task.position : Task → Position
  | value _ written t path _ => .value written t path
  | elements _ written t path i count _ => .elements written t path i count
  | fields _ left path _ written => .fields left path written

/-- Where the encoder goes on, the position does. -/
theorem Leads.position {a b : Task} (h : Leads schema a b) :
    Position.Leads a.position b.position := by
  cases h with
  | array counted => exact .array counted
  | case _ case => exact .case case
  | element => exact .element
  | nextElement => exact .nextElement
  | field => exact .field
  | nextField => exact .nextField

/-- Where the encoder opens a struct, the position does. -/
theorem Opens.position {a b : Task} (h : Opens schema a b) :
    Position.Opens schema a.position b.position := by
  cases h with
  | struct declared => exact .struct declared

/-- Within a struct the encoder comes to an end, for its positions do. -/
theorem wellFounded_leads (schema : Schema) : WellFounded fun b a => Leads schema a b :=
  Subrelation.wf Leads.position (InvImage.wf Task.position Position.wellFounded_leads)

/-- At a position the encoder stops with a failure, with room for so many structs inside one
another. -/
def Task.Stops (schema : Schema) (strict : Bool) (failure : Failure) (room : Nat) : Task → Prop
  | value _ written t path v =>
      ∃ notices, ofType schema strict (ofStruct schema strict room) written t path v =
        .stopped failure notices
  | elements _ written t path i count items =>
      ∃ before notices,
        Encode.elements (ofType schema strict (ofStruct schema strict room) written t)
          (fun _ => schema.defaultValue t written) path count i items before =
            .stopped failure notices
  | fields members left path _ written =>
      ∃ notices, Encode.fields schema (ofType schema strict (ofStruct schema strict room)) members
        path left written = .stopped failure notices

/-- Why the encoder stops at a position. -/
abbrev StopsFor (schema : Schema) (strict : Bool) (failure : Failure) : Task → Nat → Prop :=
  Walk.Stops (Leads schema) (Opens schema) (Fails schema strict)
    (Task.Stops schema strict failure) failure

/-- What is written before does not matter to where the encoder stops. -/
theorem after_eq_stopped {pre : Script} {e : Encoding} {failure : Failure} {notices : List Notice}
    (h : Encoding.after pre e = .stopped failure notices) :
    ∃ later, e = .stopped failure later := by
  cases e with
  | done => cases h
  | stopped failure' later =>
      cases h
      exact ⟨later, rfl⟩

/-- A field for which nothing can be written is missing, and its default fails. -/
theorem missing_of_filled {written : Fields} {t : FieldType} {given : Value} {failure : Failure}
    (h : (if given.isNull then schema.defaultValue t written else .ok given) = .error failure) :
    given.isNull = true ∧ schema.defaultValue t written = .error failure := by
  split at h
  · next hn => exact ⟨hn, h⟩
  · cases h

section

variable {failure : Failure} {room : Nat} {earlier : Consistency.Earlier} {written : Fields}
  {path : Path}

/-- What is refused fails right here. -/
theorem refused {t : FieldType} {v : Value} {cause : Fault}
    (h : Refused schema strict written t v cause) :
    StopsFor schema strict (.fault cause (some path)) (.value earlier written t path v) room :=
  .fails (.value h)

/-- Elements stop at one of them. -/
theorem stops_elements {t : FieldType} {i count : Nat} {items : List Value}
    (h : (Task.elements earlier written t path i count items).Stops schema strict failure room) :
    StopsFor schema strict failure (.elements earlier written t path i count items) room := by
  obtain ⟨before, notices, h⟩ := h
  cases count with
  | zero => cases h
  | succ count =>
      rw [Encode.elements] at h
      split at h
      · next e he =>
          cases h
          obtain ⟨hn, hd⟩ := missing_of_filled he
          exact .fails (.element hn hd)
      · next v hv =>
          have hs := stands_of_filled hv
          split at h
          · next e later hone =>
              cases h
              exact .leads (.element hs) ⟨_, hone⟩
          · next script hscript =>
              obtain ⟨bs, hw, -⟩ := sound_ofType (sound_ofStruct written) _ _ _ _ hscript
              exact .leads (.nextElement hs hw) ⟨_, _, h⟩

/-- Fields stop at one of them, or at a field for which nothing can be written. -/
theorem stops_fields {members : Fields} {left : List (Text × FieldType)}
    (h : (Task.fields members left path earlier written).Stops schema strict failure room) :
    StopsFor schema strict failure (.fields members left path earlier written) room := by
  obtain ⟨notices, h⟩ := h
  cases left with
  | nil => cases h
  | cons head left =>
      obtain ⟨name, t⟩ := head
      rw [Encode.fields] at h
      split at h
      · next e he =>
          cases h
          obtain ⟨hn, hd⟩ := missing_of_filled he
          exact .fails (.field hn hd)
      · next v hv =>
          have hs := stands_of_filled hv
          split at h
          · next e later hone =>
              cases h
              exact .leads (.field hs) ⟨_, hone⟩
          · next script hscript =>
              obtain ⟨bs, hw, -⟩ := sound_ofType (sound_ofStruct written) _ _ _ _ hscript
              exact .leads (.nextField hs hw) (after_eq_stopped h)

/-- A struct stops where it is refused, where there is no room for it, or in its fields. -/
theorem stops_struct {name : Text} {v : Value}
    (h : (Task.value earlier written (.struct name) path v).Stops schema strict failure room) :
    StopsFor schema strict failure (.value earlier written (.struct name) path v) room := by
  obtain ⟨notices, h⟩ := h
  rw [ofType, ofStruct.eq_def] at h
  cases hs : schema.struct? name with
  | none =>
      simp only [hs] at h
      cases h
      exact refused (.unknownStruct hs)
  | some s =>
      simp only [hs] at h
      split at h
      · cases room with
        | zero =>
            -- nothing may be opened any more, and this would be one struct more
            cases h
            exact .deep (.struct hs) rfl
        | succ room => exact .opens (.struct hs) ⟨_, h⟩
      · next hv =>
          cases h
          exact refused (.misfit (.map hs hv))

/-- An array stops where it is refused, or at its elements. -/
theorem stops_array {element : FieldType} {length : ArrayLength} {v : Value}
    (h : (Task.value earlier written (.array element length) path v).Stops schema strict failure
      room) :
    StopsFor schema strict failure (.value earlier written (.array element length) path v)
      room := by
  obtain ⟨notices, h⟩ := h
  rw [ofType] at h
  split at h
  · next field hl =>
      cases h
      exact refused (.unwrittenLength hl)
  · next count hl =>
      split at h
      · next items =>
          split at h
          · next hlen =>
              cases h
              rw [Bool.and_eq_true, bne_iff_ne] at hlen
              exact refused (.lengthMismatch hlen.1 hl hlen.2)
          · exact .leads (.array hl) ⟨[], after_eq_stopped h⟩
      · next hv =>
          cases h
          exact refused (.misfit (.list hv))

/-- A value stops where it is refused, or where what lies in it stops. -/
theorem stops_value {t : FieldType} {v : Value}
    (h : (Task.value earlier written t path v).Stops schema strict failure room) :
    StopsFor schema strict failure (.value earlier written t path v) room := by
  cases t with
  | struct name => exact stops_struct h
  | array element length => exact stops_array h
  | int signed width default? =>
      obtain ⟨notices, h⟩ := h
      cases v with
      | int i => cases h
      | _ =>
          cases h
          exact refused (.misfit (.int fun _ he => nomatch he))
  | float width default? =>
      obtain ⟨notices, h⟩ := h
      cases hx : float? v with
      | none =>
          simp only [ofType, hx] at h
          cases h
          exact refused (.misfit (.float hx))
      | some x =>
          cases width with
          | f32 | f64 =>
              simp only [ofType, hx] at h
              cases h
  | text charset default? =>
      obtain ⟨notices, h⟩ := h
      cases v with
      | text s => cases h
      | _ =>
          cases h
          exact refused (.misfit (.text fun _ he => nomatch he))
  | enum name signed width default? =>
      obtain ⟨notices, h⟩ := h
      rw [ofType] at h
      split at h
      · next he =>
          cases h
          exact refused (.unknownEnum he)
      · next e he =>
          dsimp only at h
          split at h
          · cases h
          · next hcode =>
              cases h
              -- a label of the enum would have a code
              refine refused (.misfit (.label he fun label hm hv => ?_))
              subst hv
              exact Option.not_isSome_iff_eq_none.mpr hcode (EnumDef.isSome_codeOf?_iff.mpr hm)
  | union discriminant enumName cases =>
      obtain ⟨notices, h⟩ := h
      rw [ofType] at h
      split at h
      · next hl =>
          cases h
          exact refused (.unwrittenDiscriminant hl)
      · next label hl =>
          rw [ofCase_eq] at h
          cases hu : Fields.get? cases label with
          | none =>
              rw [hu] at h
              cases h
              exact refused (.noCase hl hu)
          | some t =>
              rw [hu] at h
              exact .leads (.case hl hu) ⟨_, h⟩

end

/-- Whatever stops, stops for a failure that is found right here or further on. -/
theorem Task.Stops.stopsFor {failure : Failure} {room : Nat} {a : Task}
    (h : a.Stops schema strict failure room) : StopsFor schema strict failure a room := by
  cases a with
  | value => exact stops_value h
  | elements => exact stops_elements h
  | fields => exact stops_fields h

/-- An encoding that stops at a position is explained by the walk from there. -/
theorem ends_of_stops {failure : Failure} {room : Nat} {a : Task}
    (h : a.Stops schema strict failure room) : Ends schema strict room a failure :=
  Walk.ends_of_along (wellFounded_leads schema) Task.Stops.stopsFor h

/-- An encoding that stops fails at a position to which the encoder came. -/
theorem ends_of_script {root : Text} {v : Value} {failure : Failure} {notices : List Notice}
    (h : script schema strict root v = .stopped failure notices) :
    Ends schema strict (depthBound schema v) (.start root v) failure :=
  ends_of_stops (a := .start root v) ⟨notices, h⟩

/-! ### There is room for every walk -/

/-- A position in the value that is given, where its path says, with room for the structs that are
given there and for those of a default. -/
def Task.Given (schema : Schema) (top : Value) (room : Nat) : Task → Prop
  | value _ _ _ path v => top.at? path.steps = some v ∧ v.depth + schema.structs.length ≤ room
  | elements _ _ _ path i _ items =>
      ∃ all, top.at? path.steps = some (.list all) ∧ items = all.drop i ∧
        (Value.list all).depth + schema.structs.length ≤ room
  | fields members _ path _ _ =>
      top.at? path.steps = some (.map members) ∧
        (Value.map members).depth + schema.structs.length ≤ room + 1

/-- A position in a default, with room for the structs that it was built with. -/
def Task.Filled (schema : Schema) (room : Nat) : Task → Prop
  | value _ written t _ v =>
      ∃ depth building, depth ≤ room ∧
        Default.ofType schema (Default.ofStruct schema depth building) written t = .ok v
  | elements _ written t _ _ count items =>
      0 < count → ∃ depth building v, depth ≤ room ∧
        Default.ofType schema (Default.ofStruct schema depth building) written t = .ok v ∧
        items = List.replicate count v
  | fields members left _ _ written =>
      ∃ depth building, depth ≤ room ∧ (left.map (·.1)).Nodup ∧
        Default.ofFields (Default.ofType schema (Default.ofStruct schema depth building)) left
          written = .ok members

/-- A position to which the encoder may come. -/
def Task.Room (schema : Schema) (top : Value) (room : Nat) (task : Task) : Prop :=
  task.Given schema top room ∨ task.Filled schema room

section

variable {top : Value} {bound : Nat} {earlier : Consistency.Earlier} {written : Fields}
  {t : FieldType}

/-- A default is not null. -/
theorem isNull_of_default {depth : Nat} {building : List Text} {v : Value}
    (h : Default.ofType schema (Default.ofStruct schema depth building) written t = .ok v) :
    v.isNull = false :=
  Default.ne_null (fun _ _ => Default.ofStruct_ne_null) t h

/-- What stands for a given value is as deep, and what is filled in is as deep as there are structs.
-/
theorem room_of_stands {path : Path} {w v : Value}
    (place : w.isNull = false → (Task.value earlier written t path w).Given schema top bound)
    (hroom : schema.structs.length ≤ bound) (stands : Stands schema true written t w v) :
    (Task.value earlier written t path v).Room schema top bound := by
  rcases stands.given_or_filled with ⟨rfl, hn⟩ | ⟨-, -, hd⟩
  · exact .inl (place hn)
  · exact .inr ⟨_, [], hroom, hd⟩

/-- From what is given the encoder comes to what is given there, or to a default. -/
theorem Leads.room_of_given {a b : Task} (h : Leads schema a b)
    (place : a.Given schema top bound) : b.Room schema top bound := by
  cases h with
  | array => exact .inl ⟨_, place.1, List.drop_zero.symm, place.2⟩
  | case => exact .inl place
  | @element _ _ _ path i count items v stands =>
      obtain ⟨all, hat, rfl, hroom⟩ := place
      -- only what is given has a place; for what is missing there is a default
      refine room_of_stands (fun hn => ?_) (by omega) stands
      rw [List.headD_eq_head?_getD, List.head?_drop] at hn ⊢
      cases hi : all[i]? with
      | none => rw [hi] at hn; cases hn
      | some w =>
          have := Value.depth_lt_list (List.mem_of_getElem? hi)
          exact ⟨Value.at?_element hat hi, by rw [Option.getD_some]; omega⟩
  | nextElement =>
      obtain ⟨all, hat, rfl, hroom⟩ := place
      exact .inl ⟨all, hat, List.tail_drop, hroom⟩
  | @field members name _ left path _ written v stands =>
      obtain ⟨hat, hroom⟩ := place
      refine room_of_stands (fun hn => ?_) (by rw [Value.depth] at hroom; omega) stands
      have hg := get?_of_getD hn
      have := Value.depth_lt_map hg
      exact ⟨Value.at?_child hat hg, by omega⟩
  | nextField => exact .inl place

/-- Where fields are filled in, so are the first of them and those behind it. -/
theorem filled_field {members : Fields} {name : Text} {left : List (Text × FieldType)}
    {path : Path} {v : Value}
    (default : (Task.fields members ((name, t) :: left) path earlier written).Filled schema bound)
    (stands : Stands schema true written t ((Fields.get? members name).getD .null) v) :
    (Task.value earlier written t (path.child name) v).Filled schema bound ∧
      (Task.fields members left path (Fields.put earlier name t)
        (Fields.put written name v)).Filled schema bound := by
  obtain ⟨depth, building, hroom, hn, built⟩ := default
  obtain ⟨hname, hn⟩ := List.nodup_cons.mp hn
  rw [Default.ofFields] at built
  split at built
  · next w hw =>
      -- no later field has its name, so the member is what was built for it
      have hg := (Default.get?_of_ofFields hname built).trans Fields.get?_put_self
      rw [hg, Option.getD_some] at stands
      obtain rfl := stands.eq_of_ne_null (isNull_of_default hw)
      exact ⟨⟨depth, building, hroom, hw⟩, depth, building, hroom, hn, built⟩
  · cases built

/-- Within a default every member and every element is there already. -/
theorem Leads.filled {a b : Task} (h : Leads schema a b) (default : a.Filled schema bound) :
    b.Filled schema bound := by
  cases h with
  | @array _ written element _ _ _ _ counted =>
      obtain ⟨depth, building, hroom, built⟩ := default
      -- of an empty array no element has been built, but none is written either
      intro h₀
      obtain ⟨w, hw, rfl⟩ := Default.exists_of_array counted h₀ built
      exact ⟨depth, building, w, hroom, hw, rfl⟩
  | case chosen case =>
      obtain ⟨depth, building, hroom, built⟩ := default
      exact ⟨depth, building, hroom, Default.case_of_union chosen case built⟩
  | element stands =>
      obtain ⟨depth, building, w, hroom, built, rfl⟩ := default (Nat.succ_pos _)
      obtain rfl := stands.eq_of_ne_null (isNull_of_default built)
      exact ⟨depth, building, hroom, built⟩
  | nextElement =>
      obtain ⟨depth, building, w, hroom, built, rfl⟩ := default (Nat.succ_pos _)
      exact fun _ => ⟨depth, building, w, hroom, built, rfl⟩
  | field stands => exact (filled_field default stands).1
  | nextField stands => exact (filled_field default stands).2

/-- Within a struct there is room for all that there was room for. -/
theorem Leads.room {a b : Task} (h : Leads schema a b) :
    a.Room schema top bound → b.Room schema top bound
  | .inl place => h.room_of_given place
  | .inr default => .inr (h.filled default)

/-- A struct that is opened takes from the room no more than one. -/
theorem Opens.room (hnames : ∀ s ∈ schema.structs, s.fieldNames.Nodup) {a b : Task}
    (h : Opens schema a b) (place : a.Room schema top bound) :
    ∃ less, bound = less + 1 ∧ b.Room schema top less := by
  cases h with
  | @struct _ _ name s path members declared =>
      rcases place with ⟨hat, hroom⟩ | ⟨depth, building, hroom, built⟩
      · have hpos : 1 ≤ (Value.map members).depth := Nat.succ_pos _
        obtain ⟨less, rfl⟩ := Nat.exists_eq_add_of_le' (show 1 ≤ bound by omega)
        exact ⟨less, rfl, .inl ⟨hat, hroom⟩⟩
      · obtain ⟨s', inner, all, hs', -, rfl, built, hv⟩ := Default.ofStruct_eq_ok built
        cases declared.symm.trans hs'
        cases hv
        obtain ⟨less, rfl⟩ := Nat.exists_eq_add_of_le' (show 1 ≤ bound by omega)
        exact ⟨less, rfl, .inr ⟨inner, name :: building, Nat.le_of_succ_le_succ hroom,
          hnames s (Schema.struct?_mem declared), built⟩⟩

/-- At the start there is room enough. -/
theorem room_start (root : Text) (v : Value) :
    (Task.start root v).Room schema v (depthBound schema v) := by
  refine .inl ⟨rfl, ?_⟩
  have := Nat.le_mul_self (schema.structs.length + 1)
  rw [depthBound]
  omega

/-- Wherever the encoder comes there is room, and what it opens takes some of it. -/
theorem Reaches.room (hnames : ∀ s ∈ schema.structs, s.fieldNames.Nodup) {root : Text}
    {v : Value} {n : Nat} {task : Task} (h : Reaches schema n (.start root v) task) :
    ∃ less, depthBound schema v = less + n ∧ task.Room schema v less :=
  h.keeps_room (R := Task.Room schema v) Leads.room (Opens.room hnames) (room_start root v)

end

/-- Where no struct names a field twice, what an encoding stops with is a position that fails. -/
theorem exists_fails_of_script (hnames : ∀ s ∈ schema.structs, s.fieldNames.Nodup) {root : Text}
    {v : Value} {failure : Failure} {notices : List Notice}
    (h : script schema strict root v = .stopped failure notices) :
    ∃ n task, Reaches schema n (.start root v) task ∧ Fails schema strict task failure :=
  (ends_of_script h).exists_fails (R := Task.Room schema v) Leads.room (Opens.room hnames)
    (room_start root v)

/-! ### In a consistent schema only values can be wrong -/

/-- At a position nothing is wrong with the types, and the fields before it are there. -/
def Task.Sound (schema : Schema) : Task → Prop
  | value earlier written t _ _ | elements earlier written t _ _ _ _ =>
      schema.Sound earlier t ∧ Siblings.Held schema earlier written
  | fields _ left _ earlier written =>
      schema.SoundFields left earlier ∧ Siblings.Held schema earlier written

theorem sound_start {root : Text} {s : StructDef} (hs : schema.struct? root = some s)
    (v : Value) : (Task.start root v).Sound schema :=
  ⟨.struct hs, .nil⟩

/-- Where the encoder goes on from a sound position, it comes to a sound one. -/
theorem Leads.sound {a b : Task} (h : Leads schema a b) (sound : a.Sound schema) :
    b.Sound schema := by
  cases h with
  | array =>
      obtain ⟨hsound, held⟩ := sound
      cases hsound with
      | array _ inner => exact ⟨inner, held⟩
  | case _ case =>
      obtain ⟨hsound, held⟩ := sound
      cases hsound with
      | union _ _ _ inner => exact ⟨inner _ _ (Fields.mem_of_get? case), held⟩
  | element => exact sound
  | nextElement => exact sound
  | field => exact ⟨sound.1.2.1, sound.2⟩
  | nextField _ first => exact ⟨sound.1.2.2, sound.2.put first.offers⟩

/-- A struct that is opened is sound, for the check has found nothing wrong with it. -/
theorem Opens.sound (hc : schema.Consistent) {a b : Task} (h : Opens schema a b) :
    b.Sound schema := by
  cases h with
  | struct declared => exact ⟨hc.fields_sound declared, .nil⟩

/-- To every position that the encoder comes to the check applies. -/
theorem Reaches.sound (hc : schema.Consistent) {n : Nat} {a b : Task}
    (h : Reaches schema n a b) : a.Sound schema → b.Sound schema :=
  h.keeps (P := Task.Sound schema) Leads.sound fun h _ => h.sound hc

/-- Of a sound position only the value can be refused, unless lengths must be exact. -/
theorem Refused.misfit_of_sound (hlabels : schema.LabelsNonempty)
    {earlier : Consistency.Earlier} {written : Fields} {t : FieldType} {v : Value} {cause : Fault}
    (h : Refused schema false written t v cause) (sound : schema.Sound earlier t)
    (held : Siblings.Held schema earlier written) : Misfit schema t v cause := by
  cases h with
  | misfit h => exact h
  | unknownStruct h =>
      cases sound with
      | struct declared => cases declared.symm.trans h
  | unknownEnum h =>
      cases sound with
      | enum declared => cases declared.symm.trans h
  | unwrittenLength h =>
      cases sound with
      | array counted =>
          obtain ⟨count, hcount⟩ := held.exists_resolve counted
          cases hcount.symm.trans h
  | lengthMismatch hs => cases hs
  | unwrittenDiscriminant h =>
      obtain ⟨label, t, hl, -⟩ := held.exists_case hlabels sound
      cases hl.symm.trans h
  | noCase chosen h =>
      obtain ⟨label, t, hl, ht⟩ := held.exists_case hlabels sound
      cases chosen.symm.trans hl
      cases ht.symm.trans h

/-- A default of a sound type fits it. -/
theorem not_misfit_of_default {earlier : Consistency.Earlier} {written : Fields} {t : FieldType}
    {v : Value} {cause : Fault} {depth : Nat} {building : List Text}
    (sound : schema.Sound earlier t)
    (built : Default.ofType schema (Default.ofStruct schema depth building) written t = .ok v) :
    ¬ Misfit schema t v cause := by
  intro h
  cases h with
  | int h =>
      cases built
      exact h _ rfl
  | float h =>
      cases built
      cases h
  | text h =>
      cases built
      exact h _ rfl
  | label declared h =>
      obtain ⟨e, label, declared', hm, rfl⟩ := Default.offers sound built
      cases declared.symm.trans declared'
      exact h label hm rfl
  | map _ h =>
      obtain ⟨_, _, all, -, -, -, -, rfl⟩ := Default.ofStruct_eq_ok built
      exact h all rfl
  | list h =>
      rw [Default.ofType] at built
      split at built
      · cases built
        exact h _ rfl
      · cases built
        exact h _ rfl
      · split at built
        · cases built
          exact h _ rfl
        · cases built

/-- Where a path leads to in what is given, there is a value that does not fit the type there. -/
def Misplaced (schema : Schema) (root : Text) (top : Value) (path : Path) (cause : Fault) :
    Prop :=
  ∃ n earlier written t v,
    Reaches schema n (.start root top) (.value earlier written t path v) ∧
    top.at? path.steps = some v ∧ Misfit schema t v cause

/-- What is wrong with a gap that cannot be filled is a struct without a default. -/
theorem endless_of_missing (hc : schema.Consistent) (hlabels : schema.LabelsNonempty)
    {earlier : Consistency.Earlier} {written : Fields} {t : FieldType} {path : Path}
    {failure : Failure} (sound : schema.Sound earlier t)
    (held : Siblings.Held schema earlier written)
    (h : schema.defaultValue t written = .error failure) :
    ∃ name, Default.Endless schema name ∧
      failure.locate path = .fault (.endlessDefault name) (some path) := by
  obtain ⟨name, rfl, hname⟩ := Default.endless_of_default hc hlabels sound held h
  exact ⟨name, hname, rfl⟩

/-- In a consistent schema without empty labels an encoding stops with a given value that does not
fit, or with a struct that has no default. -/
theorem misplaced_or_endless_of_script (hc : schema.Consistent) (hlabels : schema.LabelsNonempty)
    {root : Text} {s : StructDef} (hs : schema.struct? root = some s) {v : Value}
    {failure : Failure} {notices : List Notice}
    (h : script schema false root v = .stopped failure notices) :
    (∃ path cause, Misplaced schema root v path cause ∧ failure = .fault cause (some path)) ∨
      ∃ path name, Default.Endless schema name ∧
        failure = .fault (.endlessDefault name) (some path) := by
  obtain ⟨n, task, hwalk, hfails⟩ := exists_fails_of_script hc.names_nodup h
  have hsound := Reaches.sound hc hwalk (sound_start hs v)
  obtain ⟨_, -, hroom⟩ := Reaches.room hc.names_nodup hwalk
  cases hfails with
  | value refused =>
      obtain ⟨sound, held⟩ := hsound
      have hmisfit := refused.misfit_of_sound hlabels sound held
      rcases hroom with ⟨hat, -⟩ | ⟨_, _, -, built⟩
      · exact .inl ⟨_, _, ⟨n, _, _, _, _, hwalk, hat, hmisfit⟩, rfl⟩
      · exact absurd hmisfit (not_misfit_of_default sound built)
  | element _ hd =>
      obtain ⟨name, hname, he⟩ := endless_of_missing hc hlabels hsound.1 hsound.2 hd
      exact .inr ⟨_, name, hname, he⟩
  | field _ hd =>
      obtain ⟨name, hname, he⟩ := endless_of_missing hc hlabels hsound.1.2.1 hsound.2 hd
      exact .inr ⟨_, name, hname, he⟩

end Encode

end WireSchema
