import WireSchema.Proofs.Codec.Conforming
import WireSchema.Proofs.Codec.Defaults

/-!
# Codec — Completing a value

`Schema.completion` is what a partial value stands for, said without the encoder: at every depth the
members that are not declared and the elements beyond the length are dropped, and each one missing
is the default among the completed members before it. What does not have the shape of its type is
left as it is.

What is written with gaps is written without gaps for the completion (`Complete.exact_of_writes`).
Two things make it so. The encoder looks up labels and lengths among members that it was given, the
completion among completed ones, and these agree, since an integer or a label is complete
(`Siblings.Agree`). And what is filled in once is not filled in again, for in a default nothing is
missing (`Default.exact_ofType`).
-/

namespace WireSchema

/-! ### The completion -/

namespace Complete

/-- So many elements, those missing being the default. -/
def elements (one : Value → Outcome Value) (default : Outcome Value) :
    (count : Nat) → List Value → Outcome (List Value)
  | 0, _ => .ok []
  | count + 1, items =>
      let given := items.headD .null
      match if given.isNull then default else one given with
      | .error e => .error e
      | .ok v => (v :: ·) <$> elements one default count items.tail

section

variable (schema : Schema) (struct : Text → Value → Outcome Value) (siblings : Fields)

mutual

/-- The completion of a value of a type, among completed siblings. -/
def ofType : FieldType → Value → Outcome Value
  | .struct name, v => struct name v
  | .array element length, v =>
      match length.resolve siblings, v with
      | .ok count, .list items =>
          .list <$> elements (ofType element) (schema.defaultValue element siblings) count items
      | _, v => .ok v
  | .union discriminant _ cases, v =>
      match siblings.label? discriminant with
      | some label => ofCase label cases v
      | none => .ok v
  | .int .., v | .float .., v | .text .., v | .enum .., v => .ok v

/-- The completion of a value of the case of a label. -/
def ofCase (label : Text) : List (Text × FieldType) → Value → Outcome Value
  | [], v => .ok v
  | (l, t) :: cases, v => if l = label then ofType t v else ofCase label cases v

end

end

/-- The members for the declared fields, each among the completed ones before it. -/
def fields (schema : Schema) (one : Fields → FieldType → Value → Outcome Value) (members : Fields) :
    List (Text × FieldType) → (completed : Fields) → Outcome Fields
  | [], completed => .ok completed
  | (name, t) :: rest, completed =>
      let given := (Fields.get? members name).getD .null
      match if given.isNull then schema.defaultValue t completed else one completed t given with
      | .error e => .error e
      | .ok v => fields schema one members rest (Fields.put completed name v)

/-- The completion of a value of a declared struct. -/
def ofStruct (schema : Schema) : (depth : Nat) → Text → Value → Outcome Value
  | 0, _, v => .ok v
  | depth + 1, name, v =>
      match schema.struct? name, v with
      | some s, .map members =>
          .map <$> fields schema (ofType schema (ofStruct schema depth)) members s.fields []
      | _, v => .ok v

end Complete

/-- A value of a root struct with all that is missing filled in and all else dropped. -/
def Schema.completion (schema : Schema) (root : Text) (v : Value) : Outcome Value :=
  Complete.ofStruct schema v.depth root v

variable {schema : Schema}

/-! ### Defaults among siblings that agree -/

namespace Default

/-- A default depends on no more of the siblings than what can be looked up. -/
theorem ofType_congr {struct : Text → Outcome Value} {t : FieldType}
    {earlier : Consistency.Earlier} {siblings others : Fields} (sound : schema.Sound earlier t)
    (agree : Siblings.Agree earlier siblings others) :
    ofType schema struct siblings t = ofType schema struct others t := by
  induction sound with
  | int | float | text | enum | struct => rfl
  | array counted inner ih => rw [ofType, ofType, agree.resolve_eq counted, ih]
  | @union discriminant enumName cases e declared discriminated complete inner ih =>
      have hcase : ∀ label, ofCase schema struct siblings discriminant label cases =
          ofCase schema struct others discriminant label cases := fun label => by
        rw [ofCase_eq, ofCase_eq]
        cases hu : Fields.get? cases label with
        | none => rfl
        | some t => exact congrArg some (ih label t (Fields.mem_of_get? hu)) |> Option.some.inj
      simp only [ofType, agree.label?_eq discriminated, hcase]

/-! ### In a default nothing is missing -/

/-- What is written for a default with gaps is written for it without. -/
def Exact (schema : Schema) (t : FieldType) (default : Fields → Outcome Value) : Prop :=
  ∀ {earlier siblings written v bs}, schema.Sound earlier t →
    Siblings.Agree earlier siblings written → default siblings = .ok v →
    Writes schema true written t v bs → Writes schema false siblings t v bs

theorem writesElements_replicate {siblings written : Fields} {t : FieldType} {v : Value}
    (hv : v.isNull = false)
    (h : ∀ {bs}, Writes schema true written t v bs → Writes schema false siblings t v bs)
    {count : Nat} : ∀ {bs : Bits},
      WritesElements schema true written t count (List.replicate count v) bs →
      WritesElements schema false siblings t count (List.replicate count v) bs := by
  induction count with
  | zero =>
      intro bs hw
      cases hw
      exact .nil
  | succ count ih =>
      intro bs hw
      cases hw with
      | cons stands first rest =>
          obtain rfl := stands.eq_of_ne_null hv
          exact .cons (.given hv) (h first) (ih rest)

theorem exact_ofType {struct : Text → Outcome Value}
    (hnull : ∀ name d, struct name = .ok d → d.isNull = false)
    (hstruct : ∀ name, Exact schema (.struct name) fun _ => struct name) (t : FieldType) :
    Exact schema t fun siblings => ofType schema struct siblings t := by
  induction t with
  | int signed width default? =>
      intro earlier siblings written v bs _ _ _ hw
      cases hw
      exact .int
  | float width default? =>
      intro earlier siblings written v bs _ _ _ hw
      cases hw with
      | single hx => exact .single hx
      | double hx => exact .double hx
  | text charset default? =>
      intro earlier siblings written v bs _ _ _ hw
      cases hw
      exact .text
  | enum name signed width default? =>
      intro earlier siblings written v bs _ _ _ hw
      cases hw with
      | enum declared known => exact .enum declared known
  | struct name => exact hstruct name
  | array element length ih =>
      intro earlier siblings written v bs sound agree hd hw
      cases sound with
      | array hdyn inner =>
          cases hw with
          | array counted _ elements =>
              rw [← agree.resolve_eq hdyn] at counted
              -- the default has as many elements as are counted, all alike
              simp only [ofType, counted] at hd
              split at hd
              · next hf => cases hf
              · next hz =>
                  cases hz
                  cases hd
                  cases elements
                  exact .array counted (fun _ => rfl) .nil
              · next count _ hc =>
                  cases hc
                  split at hd
                  · next w hw =>
                      cases hd
                      exact .array counted (fun _ => List.length_replicate)
                        (writesElements_replicate (ne_null hnull _ hw) (ih inner agree hw) elements)
                  · cases hd
  | union discriminant enumName cases ih =>
      intro earlier siblings written v bs sound agree hd hw
      cases sound with
      | union _ hdisc _ inner =>
          cases hw with
          | union chosen case value =>
              have hl := (agree.label?_eq hdisc).trans chosen
              simp only [ofType, hl, ofCase_eq, case] at hd
              have hm := Fields.mem_of_get? case
              exact .union hl case (ih _ _ hm (inner _ _ hm) agree hd value)

theorem exact_ofFields {one : Fields → FieldType → Outcome Value}
    (hnull : ∀ built t v, one built t = .ok v → v.isNull = false)
    (hone : ∀ t, Exact schema t (one · t)) {fields : List (Text × FieldType)} :
    ∀ {earlier : Consistency.Earlier} {built all : Fields} {bs : Bits},
      schema.SoundFields fields earlier → ofFields one fields built = .ok all →
      WritesFields schema true all fields built bs →
      WritesFields schema false all fields built bs := by
  induction fields with
  | nil =>
      intro earlier built all bs _ _ hw
      cases hw
      exact .nil
  | cons head rest ih =>
      obtain ⟨name, t⟩ := head
      intro earlier built all bs sound hd hw
      have hname := (List.nodup_cons.mp sound.names.1).1
      obtain ⟨-, hsound, hrest⟩ := sound
      rw [ofFields] at hd
      split at hd
      · next v hv =>
          have hg := (get?_of_ofFields hname hd).trans Fields.get?_put_self
          cases hw with
          | cons stands first more =>
              rw [hg, Option.getD_some] at stands
              obtain rfl := stands.eq_of_ne_null (hnull _ _ _ hv)
              refine .cons ?_ (hone t hsound (fun _ _ _ _ => rfl) hv first) (ih hrest hd more)
              rw [hg]
              exact .given (hnull _ _ _ hv)
      · cases hd

/-- No member is built that is not declared. -/
theorem mem_of_ofFields {one : Fields → FieldType → Outcome Value} {name : Text} {all : Fields}
    {fields : List (Text × FieldType)} (h : ofFields one fields [] = .ok all)
    (hm : name ∈ all.map (·.1)) : name ∈ fields.map (·.1) := by
  refine Decidable.byContradiction fun hn => ?_
  have hs := Fields.isSome_get?_iff.mpr hm
  rw [get?_of_ofFields hn h] at hs
  cases hs

theorem exact_ofStruct (hc : schema.Consistent) {depth : Nat} :
    ∀ {building : List Text} (name : Text),
      Exact schema (.struct name) fun _ => ofStruct schema depth building name := by
  induction depth with
  | zero =>
      intro building name earlier siblings written v bs _ _ hd _
      obtain ⟨_, _, _, _, _, h₀, _⟩ := ofStruct_eq_ok hd
      cases h₀
  | succ depth ih =>
      intro building name earlier siblings written v bs _ _ hd hw
      obtain ⟨s, inner, all, hs, -, hi, hf, rfl⟩ := ofStruct_eq_ok hd
      cases hi
      cases hw with
      | struct declared _ fields =>
          cases hs.symm.trans declared
          have hnull : ∀ inside d,
              ofStruct schema depth (name :: building) inside = .ok d → d.isNull = false :=
            fun _ _ h => ofStruct_ne_null h
          exact .struct hs (fun _ _ hm => mem_of_ofFields hf hm)
            (exact_ofFields (fun _ t _ h => ne_null hnull t h) (fun t => exact_ofType hnull ih t)
              (hc.fields_sound hs) hf fields)

/-- **In a default nothing is missing.** What is written for it with gaps is written without. -/
theorem exact_defaultValue (hc : schema.Consistent) (t : FieldType) :
    Exact schema t fun siblings => schema.defaultValue t siblings :=
  exact_ofType (fun _ _ h => ofStruct_ne_null h) (exact_ofStruct hc) t

end Default

/-! ### What is written is the completion -/

namespace Complete

/-- A value is completed as the type that its label has. -/
theorem ofCase_eq (struct : Text → Value → Outcome Value) (siblings : Fields) (label : Text)
    (cases : List (Text × FieldType)) (v : Value) :
    ofCase schema struct siblings label cases v =
      ((Fields.get? cases label).map fun t => ofType schema struct siblings t v).getD (.ok v) :=
  Fields.first_eq (f := fun cases => ofCase schema struct siblings label cases v) rfl
    (fun _ _ _ => rfl) cases

theorem elements_cons {one : Value → Outcome Value} {default : Outcome Value} {count : Nat}
    {items cs : List Value} {c : Value}
    (hone : (if (items.headD .null).isNull then default else one (items.headD .null)) = .ok c)
    (hrest : elements one default count items.tail = .ok cs) :
    elements one default (count + 1) items = .ok (c :: cs) := by
  rw [elements]
  simp only [hone, hrest]
  rfl

theorem fields_cons {one : Fields → FieldType → Value → Outcome Value} {members completed : Fields}
    {name : Text} {t : FieldType} {rest : List (Text × FieldType)} {c : Value}
    (hone : (if ((Fields.get? members name).getD .null).isNull then schema.defaultValue t completed
      else one completed t ((Fields.get? members name).getD .null)) = .ok c) :
    fields schema one members ((name, t) :: rest) completed =
      fields schema one members rest (Fields.put completed name c) := by
  rw [fields]
  simp only [hone]

/-- Completing on changes no member that is complete. -/
theorem get?_of_fields {one : Fields → FieldType → Value → Outcome Value} {members all : Fields}
    {fields : List (Text × FieldType)} {name : Text} (hn : name ∉ fields.map (·.1)) :
    ∀ {completed : Fields}, Complete.fields schema one members fields completed = .ok all →
      Fields.get? all name = Fields.get? completed name := by
  induction fields with
  | nil =>
      intro completed h
      cases h
      rfl
  | cons head rest ih =>
      obtain ⟨other, t⟩ := head
      rw [List.map_cons, List.mem_cons, not_or] at hn
      intro completed h
      rw [Complete.fields] at h
      split at h
      · cases h
      · rw [ih hn.2 h, Fields.get?_put_of_ne hn.1]

/-- Only declared members are left. -/
theorem mem_of_fields {one : Fields → FieldType → Value → Outcome Value} {members all : Fields}
    {fields : List (Text × FieldType)} {name : Text}
    (h : Complete.fields schema one members fields [] = .ok all) (hm : name ∈ all.map (·.1)) :
    name ∈ fields.map (·.1) := by
  refine Decidable.byContradiction fun hn => ?_
  have hs := Fields.isSome_get?_iff.mpr hm
  rw [get?_of_fields hn h] at hs
  cases hs

/-- What stands for a value that may be missing is completed, a gap with the default that is
written for it. -/
theorem exact_of_stands (hc : schema.Consistent) {earlier : Consistency.Earlier}
    {completed written : Fields} {t : FieldType} {given v : Value} {bs : Bits}
    {one : Value → Outcome Value} (sound : schema.Sound earlier t)
    (agree : Siblings.Agree earlier completed written)
    (stands : Stands schema true written t given v) (hw : Writes schema true written t v bs)
    (hone : v = given →
      ∃ c, one v = .ok c ∧ Writes schema false completed t c bs ∧ (t.Selects → c = v)) :
    ∃ c, (if given.isNull then schema.defaultValue t completed else one given) = .ok c ∧
      Writes schema false completed t c bs ∧ (t.Selects → c = v) := by
  cases stands with
  | given hn =>
      rw [hn, if_neg Bool.false_ne_true]
      exact hone rfl
  | filled _ hn hd =>
      have hd' := (Default.ofType_congr sound agree).trans hd
      rw [hn, if_pos rfl]
      exact ⟨v, hd', Default.exact_defaultValue hc t sound agree hd' hw, fun _ => rfl⟩

mutual

/-- What is written with gaps is written without for the completion, and what can be looked up is
complete. -/
theorem exact_of_writes (hc : schema.Consistent) {written : Fields} {t : FieldType} {v : Value}
    {bs : Bits} : Writes schema true written t v bs →
    ∀ {earlier : Consistency.Earlier} {completed : Fields} {depth : Nat}, schema.Sound earlier t →
      Siblings.Agree earlier completed written → v.depth ≤ depth →
      ∃ c, ofType schema (ofStruct schema depth) completed t v = .ok c ∧
        Writes schema false completed t c bs ∧ (t.Selects → c = v)
  | .int, _, _, _, _, _, _ => ⟨_, rfl, .int, fun _ => rfl⟩
  | .single hx, _, _, _, _, _, _ => ⟨_, rfl, .single hx, fun _ => rfl⟩
  | .double hx, _, _, _, _, _, _ => ⟨_, rfl, .double hx, fun _ => rfl⟩
  | .text, _, _, _, _, _, _ => ⟨_, rfl, .text, fun _ => rfl⟩
  | .enum declared known, _, _, _, _, _, _ => ⟨_, rfl, .enum declared known, fun _ => rfl⟩
  | .struct declared _ fields, _, _, depth, _, _, hd => by
      obtain ⟨depth, rfl⟩ := Nat.exists_eq_succ_of_ne_zero (Nat.ne_zero_of_lt hd)
      obtain ⟨all, hall, hw⟩ := exact_of_writesFields hc fields (hc.fields_sound declared) .nil
        fun name v hv => Nat.le_of_lt_succ (Nat.lt_of_lt_of_le (Value.depth_lt_map hv) hd)
      refine ⟨.map all, ?_, .struct declared (fun _ _ hm => mem_of_fields hall hm) hw,
        fun hs => hs.elim⟩
      simp only [ofType, ofStruct, declared, hall]
      rfl
  | .array counted _ elements, _, _, depth, sound, agree, hd => by
      cases sound with
      | array hdyn inner =>
          rw [← agree.resolve_eq hdyn] at counted
          obtain ⟨cs, hcs, hl, hw⟩ := exact_of_writesElements hc elements inner agree fun v hv =>
            Nat.le_trans (Nat.le_of_lt (Value.depth_lt_list hv)) hd
          refine ⟨.list cs, ?_, .array counted (fun _ => hl) hw, fun hs => hs.elim⟩
          simp only [ofType, counted, hcs]
          rfl
  | .union chosen case value, _, _, _, sound, agree, hd => by
      cases sound with
      | union _ hdisc _ inner =>
          have hl := (agree.label?_eq hdisc).trans chosen
          obtain ⟨c, hcase, hw, -⟩ :=
            exact_of_writes hc value (inner _ _ (Fields.mem_of_get? case)) agree hd
          refine ⟨c, ?_, .union hl case hw, fun hs => hs.elim⟩
          simp only [ofType, hl, ofCase_eq, case]
          exact hcase

theorem exact_of_writesElements (hc : schema.Consistent) {written : Fields} {t : FieldType}
    {count : Nat} {items : List Value} {bs : Bits} :
    WritesElements schema true written t count items bs →
    ∀ {earlier : Consistency.Earlier} {completed : Fields} {depth : Nat}, schema.Sound earlier t →
      Siblings.Agree earlier completed written → (∀ v ∈ items, v.depth ≤ depth) →
      ∃ cs, elements (ofType schema (ofStruct schema depth) completed t)
          (schema.defaultValue t completed) count items = .ok cs ∧ cs.length = count ∧
        WritesElements schema false completed t count cs bs
  | .nil, _, _, _, _, _, _ => ⟨[], rfl, rfl, .nil⟩
  | .cons stands first rest, _, completed, depth, sound, agree, hd => by
      obtain ⟨cs, hcs, hl, hws⟩ := exact_of_writesElements hc rest sound agree
        fun v hv => hd v (List.mem_of_mem_tail hv)
      obtain ⟨c, hone, hw, -⟩ := exact_of_stands hc sound agree stands first fun he =>
        exact_of_writes hc first sound agree (he ▸ Value.depth_headD_le hd)
      exact ⟨c :: cs, elements_cons hone hcs, congrArg (· + 1) hl,
        .cons (.given hw.ne_null) hw hws⟩

theorem exact_of_writesFields (hc : schema.Consistent) {members : Fields}
    {fields : List (Text × FieldType)} {written : Fields} {bs : Bits} :
    WritesFields schema true members fields written bs →
    ∀ {earlier : Consistency.Earlier} {completed : Fields} {depth : Nat},
      schema.SoundFields fields earlier → Siblings.Agree earlier completed written →
      (∀ name v, Fields.get? members name = some v → v.depth ≤ depth) →
      ∃ all, Complete.fields schema (ofType schema (ofStruct schema depth)) members fields
          completed = .ok all ∧ WritesFields schema false all fields completed bs
  | .nil, _, completed, _, _, _, _ => ⟨completed, rfl, .nil⟩
  | .cons stands first rest, _, completed, depth, sound, agree, hd => by
      have hname := (List.nodup_cons.mp sound.names.1).1
      obtain ⟨-, hsound, hrest⟩ := sound
      obtain ⟨c, hone, hw, hsel⟩ := exact_of_stands hc hsound agree stands first fun he =>
        exact_of_writes hc first hsound agree (he ▸ Value.depth_getD_le (hd _))
      obtain ⟨all, hall, hws⟩ := exact_of_writesFields hc rest hrest (agree.put_both hsel) hd
      refine ⟨all, (fields_cons hone).trans hall, .cons ?_ hw hws⟩
      rw [(get?_of_fields hname hall).trans Fields.get?_put_self]
      exact .given hw.ne_null

end

end Complete

end WireSchema
