import WireSchema.Proofs.Codec.Conforming
import WireSchema.Proofs.Codec.Reading

/-!
# Codec — What is cut short has a hole

What could be read of data that ends early cannot be written without gaps
(`Decode.not_writes_of_run`), wherever in the message the data ended.

Where a scalar is cut nothing has been read, and nothing is never written. Around the cut every list
and every map lacks its next entry or holds a part of it as the last, and such a part has a hole
itself (`Decode.Holed`). The entries before it are those that the next one would be written behind,
so it is the same type that is cut and that would have to be written.
-/

namespace WireSchema

namespace Decode

variable {schema : Schema}

/-- What is read of a type that is cut is not written without gaps. -/
def Holed (schema : Schema) (read : Fields) (t : FieldType) (one : Path → Cursor → Decoding) :
    Prop :=
  ∀ path c v? rest notices, one path c = .cut v? rest notices →
    ∀ bs, ¬ Writes schema false read t (v?.getD .null) bs

theorem not_writes_null {read : Fields} {t : FieldType} {bs : Bits} :
    ¬ Writes schema false read t .null bs :=
  fun h => nomatch h.ne_null

/-- Of a scalar that is cut nothing is read. -/
theorem not_writes_of_ofTaken {α : Type} {c rest : Cursor} {toValue : α → Value}
    {taken : Option (α × Cursor)} {v? : Option Value} {notices : List Notice}
    (h : Decoding.ofTaken c toValue taken = .cut v? rest notices) {read : Fields} {t : FieldType}
    (bs : Bits) : ¬ Writes schema false read t (v?.getD .null) bs := by
  cases taken with
  | none =>
      cases h
      exact not_writes_null
  | some _ => cases h

/-- The elements that are read of an array that is cut are not all of it. -/
theorem holed_elements {read : Fields} {t : FieldType} {one : Path → Cursor → Decoding}
    (hone : Holed schema read t one) {path : Path} {length count : Nat} :
    ∀ {before : List Value} {c rest : Cursor} {v? : Option Value} {notices : List Notice},
      elements one path length count before c = .cut v? rest notices →
      ∃ more, (∀ items, v?.getD .null = .list items → items = before.reverse ++ more) ∧
        ∀ bs, ¬ WritesElements schema false read t count more bs := by
  induction count with
  | zero =>
      intro before c rest v? notices h
      cases h
  | succ count ih =>
      intro before c rest v? notices h
      rw [elements] at h
      split at h
      · next v c' hv =>
          obtain ⟨more, hitems, hnot⟩ := ih h
          refine ⟨v :: more, fun items hi => ?_, fun bs hw => ?_⟩
          · rw [hitems items hi, List.reverse_cons, List.append_assoc, List.singleton_append]
          · cases hw with
            | cons _ _ rest => exact hnot _ rest
      · next w? c' later hw =>
          cases h
          refine ⟨w?.toList, fun items hi => ?_, fun bs hws => ?_⟩
          · split at hi
            · cases hi
            · cases hi
              rw [List.reverse_append]
              cases w? <;> rfl
          · cases hws with
            | cons stands first _ =>
                -- a part of the element is here, or null
                have hhead : w?.toList.headD .null = w?.getD .null := by cases w? <;> rfl
                rw [hhead] at stands
                rw [stands.eq_of_ne_null stands.ne_null_of_exact] at first
                exact hone _ _ _ _ _ hw _ first
      · cases h

/-- Where a struct is cut, the next field is missing, or there is a part of it. -/
theorem get?_of_cut {read members : Fields} {name : Text} {w? : Option Value}
    (hfree : Fields.get? read name = none)
    (h : let next := match w? with
          | some w => Fields.put read name w
          | none => read
        (if next.isEmpty then none else some (Value.map next)).getD .null = .map members) :
    (Fields.get? members name).getD .null = w?.getD .null ∧
      ∀ other, other ≠ name → Fields.get? members other = Fields.get? read other := by
  cases w? with
  | none =>
      dsimp only at h
      split at h
      · cases h
      · cases h
        exact ⟨by rw [hfree], fun _ _ => rfl⟩
  | some w =>
      dsimp only at h
      split at h
      · cases h
      · cases h
        exact ⟨by rw [Fields.get?_put_self], fun _ hne => Fields.get?_put_of_ne hne⟩

/-- The fields that are read of a struct that is cut are not all of it. -/
theorem holed_fields {one : Fields → FieldType → Path → Cursor → Decoding}
    (hone : ∀ read t, Holed schema read t (one read t)) {path : Path}
    {left : List (Text × FieldType)} :
    ∀ {read : Fields} {c rest : Cursor} {members : Fields} {v? : Option Value}
      {notices : List Notice}, (left.map (·.1)).Nodup →
      (∀ name ∈ left.map (·.1), Fields.get? read name = none) →
      Decode.fields one path left read c = .cut v? rest notices →
      v?.getD .null = .map members →
      (∀ name ∉ left.map (·.1), Fields.get? members name = Fields.get? read name) ∧
        ∀ bs, ¬ WritesFields schema false members left read bs := by
  induction left with
  | nil =>
      intro read c rest members v? notices _ _ h
      cases h
  | cons head left ih =>
      obtain ⟨name, t⟩ := head
      intro read c rest members v? notices hn hfree h hv
      obtain ⟨hname, hn⟩ := List.nodup_cons.mp hn
      rw [Decode.fields] at h
      split at h
      · next v c' hone' =>
          have hfree' : ∀ other ∈ left.map (·.1),
              Fields.get? (Fields.put read name v) other = none := by
            intro other hm
            have hne : other ≠ name := fun he => hname (he ▸ hm)
            rw [Fields.get?_put_of_ne hne]
            exact hfree other (List.mem_cons_of_mem _ hm)
          -- what is read stays in the struct, as no later field has its name
          obtain ⟨hkeep, hnot⟩ := ih hn hfree' h hv
          refine ⟨fun other hm => ?_, fun bs hw => ?_⟩
          · rw [List.map_cons, List.mem_cons, not_or] at hm
            rw [hkeep other hm.2, Fields.get?_put_of_ne hm.1]
          · cases hw with
            | cons stands first rest =>
                rw [(hkeep name hname).trans Fields.get?_put_self] at stands
                rw [stands.eq_of_ne_null stands.ne_null_of_exact] at rest
                exact hnot _ rest
      · next w? c' later hw =>
          cases h
          obtain ⟨hself, hother⟩ := get?_of_cut (hfree name List.mem_cons_self) hv
          refine ⟨fun other hm => hother other fun he => hm (he ▸ List.mem_cons_self),
            fun bs hws => ?_⟩
          cases hws with
          | cons stands first _ =>
              rw [hself] at stands
              rw [stands.eq_of_ne_null stands.ne_null_of_exact] at first
              exact hone _ _ _ _ _ _ _ hw _ first
      · cases h

theorem holed_ofType {struct : Text → Path → Cursor → Decoding} {read : Fields}
    (hstruct : ∀ name, Holed schema read (.struct name) (struct name)) (t : FieldType) :
    Holed schema read t (ofType schema struct read t) := by
  induction t with
  | int signed width default? =>
      intro path c v? rest notices h
      rw [ofType, integer_eq] at h
      exact not_writes_of_ofTaken h
  | float width default? =>
      intro path c v? rest notices h
      cases width with
      | f32 => exact not_writes_of_ofTaken h
      | f64 => exact not_writes_of_ofTaken h
  | text charset default? => exact fun _ _ _ _ _ h => not_writes_of_ofTaken h
  | enum name signed width default? =>
      intro path c v? rest notices h
      rw [ofType] at h
      split at h
      · cases h
      · split at h
        · cases h
        · cases h
          exact fun _ => not_writes_null
        · split at h <;> cases h
  | struct name => exact hstruct name
  | array element length ih =>
      intro path c v? rest notices h bs hw
      rw [ofType] at h
      split at h
      · cases h
      · next count hc =>
          obtain ⟨more, hitems, hnot⟩ := holed_elements ih h
          generalize hv : v?.getD .null = v at hw
          cases hw with
          | array counted exact elements =>
              cases hc.symm.trans counted
              cases hitems _ hv
              exact hnot _ elements
  | union discriminant enumName cases ih =>
      intro path c v? rest notices h bs hw
      rw [ofType] at h
      split at h
      · cases h
      · next label hl =>
          rw [ofCase_eq] at h
          cases hu : Fields.get? cases label with
          | none =>
              rw [hu] at h
              cases h
          | some t =>
              rw [hu] at h
              cases hw with
              | union chosen case value =>
                  cases hl.symm.trans chosen
                  cases hu.symm.trans case
                  exact ih label t (Fields.mem_of_get? hu) path c v? rest notices h _ value

theorem holed_ofStruct (hc : schema.Consistent) {depth : Nat} : ∀ (read : Fields) (name : Text),
    Holed schema read (.struct name) (ofStruct schema depth name) := by
  induction depth with
  | zero =>
      intro read name path c v? rest notices h
      rw [ofStruct] at h
      split at h <;> cases h
  | succ depth ih =>
      intro read name path c v? rest notices h bs hw
      rw [ofStruct] at h
      split at h
      · cases h
      · next s hs =>
          generalize hv : v?.getD .null = v at hw
          cases hw with
          | struct declared exact fields =>
              cases hs.symm.trans declared
              exact (holed_fields (fun read t => holed_ofType (ih read) t)
                (hc.names_nodup s (Schema.struct?_mem hs)) (fun _ _ => rfl) h hv).2 _ fields

/-- **What is cut short has a hole.** -/
theorem not_writes_of_run (hc : schema.Consistent) {data : Array UInt8} {root : Text}
    {v? : Option Value} {rest : Cursor} {notices : List Notice}
    (h : run schema data root = .cut v? rest notices) (bs : Bits) :
    ¬ Writes schema false [] (.struct root) (v?.getD .null) bs :=
  holed_ofStruct hc [] root _ _ _ _ _ h bs

end Decode

end WireSchema
