import WireSchema.Proofs.Codec.Writing
import WireSchema.Proofs.Consistency.Siblings

/-!
# Codec — What conforms

In a consistent schema the check of a value always has an answer (`Conform.exists_conforms`), and
the answer is yes exactly if the value is written without gaps (`Conform.conforms_iff_writes`).

The check looks labels and lengths up among all members of a struct, the encoder among those it has
written before. Both find the same, since the fields that are looked up come before
(`Siblings.Agree`).
-/

namespace WireSchema

variable {schema : Schema}

/-- Nothing that is written is null. -/
theorem Writes.ne_null {gaps : Bool} {siblings : Fields} {t : FieldType} {v : Value} {bs : Bits} :
    Writes schema gaps siblings t v bs → v.isNull = false
  | .int | .text | .enum .. | .struct .. | .array .. => rfl
  | .single hx | .double hx => Encode.ne_null_of_float? hx
  | .union _ _ value => value.ne_null

/-- A struct of which a value is written is declared, which is all that is asked of it. -/
theorem Writes.sound_struct {gaps : Bool} {siblings : Fields} {name : Text} {v : Value}
    {bs : Bits} (h : Writes schema gaps siblings (.struct name) v bs)
    {earlier : Consistency.Earlier} : schema.Sound earlier (.struct name) := by
  cases h with
  | struct declared => exact .struct declared

namespace Conform

/-! ### The parts of the check -/

theorem allPass_eq_true_iff {α : Type} {test : α → Outcome Bool} {as : List α} :
    allPass test as = .ok true ↔ ∀ a ∈ as, test a = .ok true := by
  induction as with
  | nil => exact iff_of_true rfl (List.forall_mem_nil _)
  | cons a as ih =>
      rw [allPass, List.forall_mem_cons]
      split
      · next ht => exact ⟨fun h => ⟨ht, ih.mp h⟩, fun h => ih.mpr h.2⟩
      · next ht => exact iff_of_false (fun h => nomatch h) (fun h => nomatch ht.symm.trans h.1)
      · next ht => exact iff_of_false (fun h => nomatch h) (fun h => nomatch ht.symm.trans h.1)

theorem exists_allPass {α : Type} {test : α → Outcome Bool} {as : List α}
    (h : ∀ a ∈ as, ∃ b, test a = .ok b) : ∃ b, allPass test as = .ok b := by
  induction as with
  | nil => exact ⟨true, rfl⟩
  | cons a as ih =>
      obtain ⟨b, hb⟩ := h a List.mem_cons_self
      rw [allPass, hb]
      cases b with
      | true => exact ih fun a hm => h a (List.mem_cons_of_mem _ hm)
      | false => exact ⟨false, rfl⟩

theorem sameNames_iff {xs ys : List Text} :
    sameNames xs ys = true ↔ (∀ x ∈ xs, x ∈ ys) ∧ ∀ y ∈ ys, y ∈ xs := by
  simp only [sameNames, Bool.and_eq_true, List.all_eq_true, List.contains_iff_mem]

/-- A number has the shape of a float. -/
theorem ofType_float {struct : Text → Value → Outcome Bool} {siblings : Fields}
    {width : FloatWidth} {default? : Option Binary64} {v : Value} {x : Binary64}
    (h : Encode.float? v = some x) :
    ofType schema struct siblings (.float width default?) v = .ok true := by
  cases v with
  | int i => rfl
  | float y => rfl
  | _ => cases h

/-- A value conforms to the type that its label has. -/
theorem ofCase_eq (struct : Text → Value → Outcome Bool) (siblings : Fields) (label : Text)
    (cases : List (Text × FieldType)) (v : Value) :
    ofCase schema struct siblings label cases v =
      ((Fields.get? cases label).map fun t => ofType schema struct siblings t v).getD
        (.ok false) :=
  Fields.first_eq (f := fun cases => ofCase schema struct siblings label cases v) rfl
    (fun _ _ _ => rfl) cases

/-! ### What conforms is written without gaps -/

theorem exists_writesElements {written : Fields} {t : FieldType} {items : List Value}
    (h : ∀ v ∈ items, ∃ bs, Writes schema false written t v bs) :
    ∃ bs, WritesElements schema false written t items.length items bs := by
  induction items with
  | nil => exact ⟨[], .nil⟩
  | cons v items ih =>
      obtain ⟨bs, hw⟩ := h v List.mem_cons_self
      obtain ⟨cs, hws⟩ := ih fun w hm => h w (List.mem_cons_of_mem _ hm)
      exact ⟨bs ++ cs, .cons (.given hw.ne_null) hw hws⟩

theorem exists_writesFields {members : Fields} {fields : List (Text × FieldType)}
    (h : ∀ name t, (name, t) ∈ fields → ∀ {earlier written}, schema.Sound earlier t →
      Siblings.Agree earlier members written →
      ∃ bs, Writes schema false written t ((Fields.get? members name).getD .null) bs) :
    ∀ {earlier : Consistency.Earlier} {written : Fields}, schema.SoundFields fields earlier →
      Siblings.Agree earlier members written →
      ∃ bs, WritesFields schema false members fields written bs := by
  induction fields with
  | nil => exact fun _ _ => ⟨[], .nil⟩
  | cons head fields ih =>
      obtain ⟨name, t⟩ := head
      intro earlier written sound agree
      obtain ⟨-, hsound, hrest⟩ := sound
      obtain ⟨bs, hw⟩ := h name t List.mem_cons_self hsound agree
      have hg := Encode.get?_of_getD hw.ne_null
      obtain ⟨cs, hws⟩ := ih (fun name t hm => h name t (List.mem_cons_of_mem _ hm)) hrest
        (agree.put fun _ => hg)
      exact ⟨bs ++ cs, .cons (.given hw.ne_null) hw hws⟩

theorem exists_writes {struct : Text → Value → Outcome Bool} {siblings : Fields}
    (hstruct : ∀ name v, struct name v = .ok true →
      ∀ written, ∃ bs, Writes schema false written (.struct name) v bs) (t : FieldType) :
    ∀ {v : Value} {earlier : Consistency.Earlier} {written : Fields}, schema.Sound earlier t →
      Siblings.Agree earlier siblings written → ofType schema struct siblings t v = .ok true →
      ∃ bs, Writes schema false written t v bs := by
  induction t with
  | int signed width default? =>
      intro v earlier written _ _ h
      cases v with
      | int i => exact ⟨_, .int⟩
      | _ => cases h
  | float width default? =>
      intro v earlier written _ _ h
      obtain ⟨x, hx⟩ : ∃ x, Encode.float? v = some x := by
        cases v with
        | int i => exact ⟨_, rfl⟩
        | float x => exact ⟨_, rfl⟩
        | _ => cases h
      cases width with
      | f32 => exact ⟨_, .single hx⟩
      | f64 => exact ⟨_, .double hx⟩
  | text charset default? =>
      intro v earlier written _ _ h
      cases v with
      | text s => exact ⟨_, .text⟩
      | _ => cases h
  | enum name signed width default? =>
      intro v earlier written sound _ h
      cases sound with
      | enum he _ _ =>
          cases v with
          | text label =>
              simp only [ofType, he, Except.ok.injEq] at h
              obtain ⟨code, hcode⟩ := Option.isSome_iff_exists.mp h
              exact ⟨_, .enum he hcode⟩
          | _ =>
              simp only [ofType, he] at h
              cases h
  | struct name => exact fun _ _ h => hstruct name _ h _
  | array element length ih =>
      intro v earlier written sound agree h
      cases sound with
      | array hdyn inner =>
          cases v with
          | list items =>
              rw [ofType] at h
              split at h
              · next count hc =>
                  split at h
                  · next hl =>
                      have hall := allPass_eq_true_iff.mp h
                      -- siblings given and written resolve to one length
                      obtain ⟨bs, hw⟩ := exists_writesElements fun v hm =>
                        ih inner agree (hall v hm)
                      rw [agree.resolve_eq hdyn, ← hl] at hc
                      exact ⟨bs, .array hc (fun _ => rfl) hw⟩
                  · cases h
              · cases h
          | _ => cases h
  | union discriminant enumName cases ih =>
      intro v earlier written sound agree h
      cases sound with
      | union _ hd _ inner =>
          rw [ofType, agree.label?_eq hd] at h
          split at h
          · cases h
          · next label hl =>
              rw [ofCase_eq] at h
              cases hu : Fields.get? cases label with
              | none => rw [hu] at h; cases h
              | some t =>
                  rw [hu] at h
                  have hm := Fields.mem_of_get? hu
                  obtain ⟨bs, hw⟩ := ih label t hm (inner label t hm) agree h
                  exact ⟨bs, .union hl hu hw⟩

/-- A value of the shape of a struct is a map of its fields, each of the shape of its type. -/
theorem ofStruct_eq_true {depth : Nat} {name : Text} {v : Value}
    (h : ofStruct schema depth name v = .ok true) :
    ∃ s members inner, schema.struct? name = some s ∧ v = .map members ∧ depth = inner + 1 ∧
      (∀ field ∈ members.map (·.1), field ∈ s.fieldNames) ∧
      ∀ field t, (field, t) ∈ s.fields → ofType schema (ofStruct schema inner) members t
        ((Fields.get? members field).getD .null) = .ok true := by
  cases hs : schema.struct? name with
  | none =>
      rw [ofStruct.eq_def] at h
      simp only [hs] at h
      cases h
  | some s =>
      rw [ofStruct.eq_def] at h
      simp only [hs] at h
      split at h
      · next members =>
          split at h
          · next hnames =>
              cases depth with
              | zero => cases h
              | succ inner =>
                  exact ⟨s, members, inner, rfl, rfl, rfl, (sameNames_iff.mp hnames).1,
                    fun field t hm => allPass_eq_true_iff.mp h (field, t) hm⟩
          · cases h
      · cases h

theorem exists_writes_struct (hc : schema.Consistent) {depth : Nat} :
    ∀ (name : Text) (v : Value), ofStruct schema depth name v = .ok true →
      ∀ written, ∃ bs, Writes schema false written (.struct name) v bs := by
  induction depth with
  | zero =>
      intro name v h
      obtain ⟨_, _, _, _, _, h₀, _⟩ := ofStruct_eq_true h
      cases h₀
  | succ depth ih =>
      intro name v h written
      obtain ⟨s, members, inner, hs, rfl, hinner, hnames, hall⟩ := ofStruct_eq_true h
      cases hinner
      obtain ⟨bs, hw⟩ := exists_writesFields
        (fun field t hm _ _ sound agree => exists_writes ih t sound agree (hall field t hm))
        (hc.fields_sound hs) .nil
      exact ⟨bs, .struct hs (fun _ => hnames) hw⟩

/-- **What conforms is written without gaps.** -/
theorem writes_of_conforms (hc : schema.Consistent) {root : Text} {v : Value}
    (h : schema.conforms (.struct root) v = .ok true) :
    ∃ bs, Writes schema false [] (.struct root) v bs :=
  exists_writes_struct hc root v h []

/-! ### There is always an answer -/

/-- A value has the shape of a sound type or it has not, among any siblings. -/
theorem exists_ofType {struct : Text → Value → Outcome Bool} {siblings : Fields} {depth : Nat}
    (hstruct : ∀ name s v, schema.struct? name = some s → v.depth ≤ depth →
      ∃ b, struct name v = .ok b) (t : FieldType) :
    ∀ {earlier : Consistency.Earlier} {v : Value}, schema.Sound earlier t → v.depth ≤ depth →
      ∃ b, ofType schema struct siblings t v = .ok b := by
  induction t with
  | int signed width default? =>
      intro earlier v _ _
      cases v with
      | int i => exact ⟨true, rfl⟩
      | _ => exact ⟨false, rfl⟩
  | float width default? =>
      intro earlier v _ _
      cases v with
      | int i => exact ⟨true, rfl⟩
      | float x => exact ⟨true, rfl⟩
      | _ => exact ⟨false, rfl⟩
  | text charset default? =>
      intro earlier v _ _
      cases v with
      | text s => exact ⟨true, rfl⟩
      | _ => exact ⟨false, rfl⟩
  | enum name signed width default? =>
      intro earlier v sound _
      cases sound with
      | enum declared _ _ =>
          cases v with
          | text label =>
              simp only [ofType, declared]
              exact ⟨_, rfl⟩
          | _ =>
              simp only [ofType, declared]
              exact ⟨false, rfl⟩
  | struct name =>
      intro earlier v sound hd
      cases sound with
      | struct declared => exact hstruct name _ v declared hd
  | array element length ih =>
      intro earlier v sound hd
      cases sound with
      | array _ inner =>
          cases v with
          | list items =>
              rw [ofType]
              split
              · split
                · exact exists_allPass fun w hm =>
                    ih inner (Nat.le_trans (Nat.le_of_lt (Value.depth_lt_list hm)) hd)
                · exact ⟨false, rfl⟩
              · exact ⟨false, rfl⟩
          | _ => exact ⟨false, rfl⟩
  | union discriminant enumName cases ih =>
      intro earlier v sound hd
      cases sound with
      | union _ _ _ inner =>
          rw [ofType]
          split
          · exact ⟨false, rfl⟩
          · next label hl =>
              rw [ofCase_eq]
              cases hu : Fields.get? cases label with
              | none => exact ⟨false, rfl⟩
              | some t =>
                  have hm := Fields.mem_of_get? hu
                  exact ih label t hm (inner label t hm) hd

theorem exists_ofStruct (hc : schema.Consistent) {depth : Nat} :
    ∀ name s v, schema.struct? name = some s → v.depth ≤ depth →
      ∃ b, ofStruct schema depth name v = .ok b := by
  induction depth with
  | zero =>
      intro name s v declared hd
      rw [ofStruct, declared]
      cases v with
      | map members => cases hd
      | _ => exact ⟨false, rfl⟩
  | succ depth ih =>
      intro name s v declared hd
      rw [ofStruct, declared]
      cases v with
      | map members =>
          dsimp only
          split
          · refine exists_allPass fun f hm => ?_
            obtain ⟨earlier, sound⟩ := (hc.fields_sound declared).exists_sound hm
            have := Value.depth_member_lt members f.1
            exact exists_ofType ih f.2 sound (by omega)
          · exact ⟨false, rfl⟩
      | _ => exact ⟨false, rfl⟩

/-- **The check of a value has an answer.** -/
theorem exists_conforms (hc : schema.Consistent) {root : Text} {s : StructDef}
    (declared : schema.struct? root = some s) (v : Value) :
    ∃ b, schema.conforms (.struct root) v = .ok b :=
  exists_ofStruct hc root s v declared (Nat.le_refl _)

/-! ### What is written without gaps conforms -/

/-- Every field of which something is written without gaps is a member. -/
theorem mem_of_writesFields {members : Fields} {fields : List (Text × FieldType)}
    {written : Fields} {bs : Bits} {name : Text} :
    WritesFields schema false members fields written bs → name ∈ fields.map (·.1) →
    name ∈ members.map (·.1)
  | .nil, hm => nomatch hm
  | .cons stands _ rest, hm => by
      rcases List.mem_cons.mp hm with rfl | hm
      · have hg := Encode.get?_of_getD stands.ne_null_of_exact
        exact Fields.isSome_get?_iff.mp (Option.isSome_of_eq_some hg)
      · exact mem_of_writesFields rest hm

mutual

/-- What is written without gaps has the shape of its type, among all siblings that agree with those
it was written behind. -/
theorem conforms_of_writes (hc : schema.Consistent) {written : Fields} {t : FieldType} {v : Value}
    {bs : Bits} : Writes schema false written t v bs →
    ∀ {earlier : Consistency.Earlier} {siblings : Fields} {depth : Nat}, schema.Sound earlier t →
      Siblings.Agree earlier siblings written → v.depth ≤ depth →
      ofType schema (ofStruct schema depth) siblings t v = .ok true
  | .int, _, _, _, _, _, _ => rfl
  | .single hx, _, _, _, _, _, _ => ofType_float hx
  | .double hx, _, _, _, _, _, _ => ofType_float hx
  | .text, _, _, _, _, _, _ => rfl
  | .enum declared known, _, _, _, _, _, _ => by
      simp only [ofType, declared, known, Option.isSome_some]
  | .struct declared exact fields, _, _, depth, _, _, hd => by
      obtain ⟨depth, rfl⟩ := Nat.exists_eq_succ_of_ne_zero (Nat.ne_zero_of_lt hd)
      rw [ofType, ofStruct, declared]
      dsimp only
      rw [if_pos (sameNames_iff.mpr ⟨exact rfl, fun _ => mem_of_writesFields fields⟩)]
      refine allPass_eq_true_iff.mpr (conforms_of_writesFields hc fields
        (hc.fields_sound declared) .nil fun name v hv => ?_)
      exact Nat.le_of_lt_succ (Nat.lt_of_lt_of_le (Value.depth_lt_map hv) hd)
  | .array counted exact elements, _, _, _, sound, agree, hd => by
      cases sound with
      | array hdyn inner =>
          rw [ofType, agree.resolve_eq hdyn, counted]
          dsimp only
          rw [if_pos (exact rfl)]
          exact allPass_eq_true_iff.mpr (conforms_of_writesElements hc elements (exact rfl) inner
            agree fun v hv => Nat.le_trans (Nat.le_of_lt (Value.depth_lt_list hv)) hd)
  | .union chosen case value, _, _, _, sound, agree, hd => by
      cases sound with
      | union _ hdis _ inner =>
          rw [ofType, agree.label?_eq hdis, chosen]
          dsimp only
          rw [ofCase_eq, case]
          exact conforms_of_writes hc value (inner _ _ (Fields.mem_of_get? case)) agree hd

theorem conforms_of_writesElements (hc : schema.Consistent) {written : Fields} {t : FieldType}
    {count : Nat} {items : List Value} {bs : Bits} :
    WritesElements schema false written t count items bs → items.length = count →
    ∀ {earlier : Consistency.Earlier} {siblings : Fields} {depth : Nat}, schema.Sound earlier t →
      Siblings.Agree earlier siblings written → (∀ v ∈ items, v.depth ≤ depth) →
      ∀ v ∈ items, ofType schema (ofStruct schema depth) siblings t v = .ok true
  | .nil, hl, _, _, _, _, _, _ => by
      rw [List.length_eq_zero_iff.mp hl]
      exact fun _ hm => nomatch hm
  | .cons stands first rest, hl, _, _, _, sound, agree, hd => by
      have hv := stands.eq_of_ne_null stands.ne_null_of_exact
      have hlen := List.length_tail.trans (congrArg (· - 1) hl)
      rw [← Encode.cons_headD_tail hl, ← hv]
      refine List.forall_mem_cons.mpr ⟨conforms_of_writes hc first sound agree ?_,
        conforms_of_writesElements hc rest hlen sound agree
          fun v hm => hd v (List.mem_of_mem_tail hm)⟩
      rw [hv]
      exact hd _ (Encode.headD_mem hl)

theorem conforms_of_writesFields (hc : schema.Consistent) {members : Fields}
    {fields : List (Text × FieldType)} {written : Fields} {bs : Bits} :
    WritesFields schema false members fields written bs →
    ∀ {earlier : Consistency.Earlier} {depth : Nat}, schema.SoundFields fields earlier →
      Siblings.Agree earlier members written →
      (∀ name v, Fields.get? members name = some v → v.depth ≤ depth) →
      ∀ f ∈ fields, ofType schema (ofStruct schema depth) members f.2
        ((Fields.get? members f.1).getD .null) = .ok true
  | .nil, _, _, _, _, _ => fun _ hm => nomatch hm
  | .cons stands first rest, _, _, sound, agree, hd => by
      obtain ⟨-, hsound, hrest⟩ := sound
      have hg := Encode.get?_of_getD stands.ne_null_of_exact
      have hv := stands.eq_of_ne_null stands.ne_null_of_exact
      refine List.forall_mem_cons.mpr ⟨?_, conforms_of_writesFields hc rest hrest
        (agree.put fun _ => hg.trans (congrArg some hv.symm)) hd⟩
      dsimp only
      rw [← hv]
      exact conforms_of_writes hc first hsound agree (hv ▸ hd _ _ hg)

end

/-- **A value conforms if and only if it is written without gaps.** -/
theorem conforms_iff_writes (hc : schema.Consistent) {root : Text} {v : Value} :
    schema.conforms (.struct root) v = .ok true ↔
      ∃ bs, Writes schema false [] (.struct root) v bs :=
  ⟨writes_of_conforms hc, fun ⟨_, h⟩ =>
    conforms_of_writes hc h h.sound_struct .nil (Nat.le_refl _)⟩

end Conform

end WireSchema
