import WireSchema.Codec.Default
import WireSchema.Proofs.Consistency.Acyclic
import WireSchema.Proofs.Consistency.Siblings

/-!
# Codec — Defaults

No default is null, so what is filled is filled once and for all; and what is built for a field that
can be looked up can be looked up (`Default.offers`).

In a consistent schema building a default fails only at a struct that would contain itself
(`Default.endless_of_default`). The struct at which it fails has no default anywhere else either:
the structs under way when its own default is begun can be left out, for building goes on just as it
did (`Default.keeps_ofStruct`).
-/

namespace WireSchema

variable {schema : Schema}

namespace Default

/-! ### What is built -/

/-- The default of a case is that of the type that its label has. -/
theorem ofCase_eq (struct : Text → Outcome Value) (siblings : Fields)
    (discriminant label : Text) (cases : List (Text × FieldType)) :
    ofCase schema struct siblings discriminant label cases =
      ((Fields.get? cases label).map fun t => ofType schema struct siblings t).getD
        (.fail (.noDefaultCase discriminant (some label))) :=
  Fields.first_eq (f := fun cases => ofCase schema struct siblings discriminant label cases) rfl
    (fun _ _ _ => rfl) cases

theorem ofCase_eq_ok {struct : Text → Outcome Value} {siblings : Fields}
    {discriminant label : Text} {d : Value} {cases : List (Text × FieldType)}
    (h : ofCase schema struct siblings discriminant label cases = .ok d) :
    ∃ t, Fields.get? cases label = some t ∧ ofType schema struct siblings t = .ok d := by
  rw [ofCase_eq] at h
  cases hu : Fields.get? cases label with
  | none => rw [hu] at h; cases h
  | some t => exact ⟨t, rfl, by rwa [hu] at h⟩

/-- The default of an array that is not empty is the default of its elements, over and over. -/
theorem exists_of_array {struct : Text → Outcome Value} {siblings : Fields} {element : FieldType}
    {length : ArrayLength} {count : Nat} {items : List Value}
    (counted : length.resolve siblings = .ok count) (hpos : 0 < count)
    (h : ofType schema struct siblings (.array element length) = .ok (.list items)) :
    ∃ d, ofType schema struct siblings element = .ok d ∧ items = List.replicate count d := by
  obtain ⟨n, rfl⟩ := Nat.exists_eq_succ_of_ne_zero (Nat.ne_zero_of_lt hpos)
  rw [ofType, counted] at h
  cases hd : ofType schema struct siblings element with
  | ok d =>
      rw [hd] at h
      cases h
      exact ⟨d, rfl, rfl⟩
  | error e =>
      rw [hd] at h
      cases h

/-- The default of a union is that of the case that its label chooses. -/
theorem case_of_union {struct : Text → Outcome Value} {siblings : Fields}
    {discriminant enumName label : Text} {cases : List (Text × FieldType)} {t : FieldType}
    {d : Value} (chosen : siblings.label? discriminant = some label)
    (case : Fields.get? cases label = some t)
    (h : ofType schema struct siblings (.union discriminant enumName cases) = .ok d) :
    ofType schema struct siblings t = .ok d := by
  rw [ofType, chosen] at h
  obtain ⟨t', ht', h⟩ := ofCase_eq_ok h
  cases case.symm.trans ht'
  exact h

/-- No default is null. -/
theorem ne_null {struct : Text → Outcome Value} {siblings : Fields}
    (hstruct : ∀ name d, struct name = .ok d → d.isNull = false) (t : FieldType) :
    ∀ {d : Value}, ofType schema struct siblings t = .ok d → d.isNull = false := by
  induction t with
  | int | float | text =>
      intro d h
      cases h
      rfl
  | enum name signed width default? =>
      intro d h
      rw [ofType] at h
      split at h
      · cases h
      · split at h <;> cases h <;> rfl
  | struct name => exact fun h => hstruct name _ h
  | array element length =>
      intro d h
      rw [ofType] at h
      split at h
      · cases h
        rfl
      · cases h
        rfl
      · split at h <;> cases h
        rfl
  | union discriminant enumName cases ih =>
      intro d h
      rw [ofType] at h
      split at h
      · obtain ⟨t, hu, ht⟩ := ofCase_eq_ok h
        exact ih _ t (Fields.mem_of_get? hu) ht
      · split at h
        · cases h
        · split at h
          · obtain ⟨t, hu, ht⟩ := ofCase_eq_ok h
            exact ih _ t (Fields.mem_of_get? hu) ht
          · cases h

theorem ofStruct_eq_ok {depth : Nat} {building : List Text} {name : Text} {d : Value}
    (h : ofStruct schema depth building name = .ok d) :
    ∃ s inner all, schema.struct? name = some s ∧ name ∉ building ∧ depth = inner + 1 ∧
      ofFields (ofType schema (ofStruct schema inner (name :: building))) s.fields [] = .ok all ∧
      d = .map all := by
  cases hs : schema.struct? name with
  | none =>
      rw [ofStruct.eq_def] at h
      simp only [hs] at h
      cases h
  | some s =>
      cases depth with
      | zero =>
          rw [ofStruct, hs] at h
          dsimp only at h
          split at h <;> cases h
      | succ inner =>
          rw [ofStruct, hs] at h
          dsimp only at h
          split at h
          · cases h
          · next hb =>
              cases hf : ofFields (ofType schema (ofStruct schema inner (name :: building)))
                  s.fields [] with
              | error e => rw [hf] at h; cases h
              | ok all =>
                  rw [hf] at h
                  exact ⟨s, inner, all, rfl, hb, rfl, hf, (Except.ok.inj h).symm⟩

theorem ofStruct_ne_null {depth : Nat} {building : List Text} {name : Text} {d : Value}
    (h : ofStruct schema depth building name = .ok d) : d.isNull = false := by
  obtain ⟨s, inner, all, -, -, -, -, rfl⟩ := ofStruct_eq_ok h
  rfl

/-- Building on changes no field that has been built. -/
theorem get?_of_ofFields {one : Fields → FieldType → Outcome Value} {name : Text} {all : Fields}
    {fields : List (Text × FieldType)} (hn : name ∉ fields.map (·.1)) :
    ∀ {built : Fields}, ofFields one fields built = .ok all →
      Fields.get? all name = Fields.get? built name := by
  induction fields with
  | nil =>
      intro built h
      cases h
      rfl
  | cons head rest ih =>
      obtain ⟨other, t⟩ := head
      rw [List.map_cons, List.mem_cons, not_or] at hn
      intro built h
      rw [ofFields] at h
      split at h
      · rw [ih hn.2 h, Fields.get?_put_of_ne hn.1]
      · cases h

/-- What is built for an integer is one, and what is built for an enum is one of its labels. -/
theorem offers {struct : Text → Outcome Value} {siblings : Fields} {earlier : Consistency.Earlier}
    {t : FieldType} {v : Value} (sound : schema.Sound earlier t)
    (h : ofType schema struct siblings t = .ok v) : t.Offers schema v := by
  cases sound with
  | int =>
      cases h
      exact ⟨_, rfl⟩
  | @enum name signed width default? e declared _ known =>
      rw [ofType, declared] at h
      dsimp only at h
      split at h
      · next label =>
          cases h
          exact ⟨e, label, declared, EnumDef.isSome_codeOf?_iff.mp (known label rfl), rfl⟩
      · next label hf =>
          cases h
          exact ⟨e, label, declared, List.mem_of_head? hf, rfl⟩
      · cases h
  | _ => trivial

/-! ### Fewer structs under way -/

/-- Unless the first fails in another way, the second is the first. -/
def Keeps {α : Type} (failure : Failure) (a b : Outcome α) : Prop :=
  (∀ e, a = .error e → e = failure) → b = a

theorem keeps_ofType {struct other : Text → Outcome Value} {siblings : Fields}
    {failure : Failure} (hstruct : ∀ name, Keeps failure (struct name) (other name))
    (t : FieldType) :
    Keeps failure (ofType schema struct siblings t) (ofType schema other siblings t) := by
  induction t with
  | int | float | text | enum => exact fun _ => rfl
  | struct name => exact hstruct name
  | array element length ih =>
      intro h
      rw [ofType] at h ⊢
      rw [ofType]
      cases hl : length.resolve siblings with
      | error => rfl
      | ok count =>
          cases count with
          | zero => rfl
          | succ count =>
              rw [hl] at h
              rw [ih fun e he => h e (by rw [he]; rfl)]
  | union discriminant enumName cases ih =>
      have hcase : ∀ label, Keeps failure (ofCase schema struct siblings discriminant label cases)
          (ofCase schema other siblings discriminant label cases) := by
        intro label
        rw [ofCase_eq, ofCase_eq]
        cases hu : Fields.get? cases label with
        | none => exact fun _ => rfl
        | some t => exact ih label t (Fields.mem_of_get? hu)
      intro h
      rw [ofType] at h ⊢
      rw [ofType]
      split
      · next label hl =>
          rw [hl] at h
          exact hcase label h
      · next hl =>
          rw [hl] at h
          dsimp only at h
          split
          · rfl
          · next e he =>
              rw [he] at h
              dsimp only at h
              split
              · next label hf =>
                  rw [hf] at h
                  exact hcase label h
              · rfl

theorem keeps_ofFields {one other : Fields → FieldType → Outcome Value} {failure : Failure}
    (hone : ∀ built t, Keeps failure (one built t) (other built t))
    {fields : List (Text × FieldType)} :
    ∀ {built : Fields},
      Keeps failure (ofFields one fields built) (ofFields other fields built) := by
  induction fields with
  | nil => exact fun _ => rfl
  | cons head rest ih =>
      obtain ⟨name, t⟩ := head
      intro built h
      rw [ofFields] at h ⊢
      rw [ofFields]
      rw [hone built t fun e he => h e (by rw [he])]
      cases hv : one built t with
      | ok v =>
          rw [hv] at h
          exact ih h
      | error e => rfl

/-- With fewer structs under way, and room for more, a default is built as before, unless it failed
at one of those that are left out. -/
theorem keeps_ofStruct {name : Text} {depth : Nat} :
    ∀ {more : Nat} {building fewer : List Text} {outer : Text}, depth ≤ more →
      fewer ⊆ building → (name ∈ building → name ∈ fewer) →
      Keeps (.fault (.endlessDefault name) none) (ofStruct schema depth building outer)
        (ofStruct schema more fewer outer) := by
  induction depth with
  | zero =>
      intro more building fewer outer _ hsub hname h
      rw [ofStruct] at h ⊢
      rw [ofStruct]
      split
      · rfl
      · next s hs =>
          rw [hs] at h
          dsimp only at h
          split at h
          · next hb =>
              cases h _ rfl
              rw [if_pos (hname hb), if_pos hb]
          · cases h _ rfl
  | succ depth ih =>
      intro more building fewer outer hle hsub hname h
      obtain ⟨more, rfl⟩ := Nat.exists_eq_add_of_le' (Nat.lt_of_lt_of_le (Nat.succ_pos _) hle)
      rw [ofStruct] at h ⊢
      rw [ofStruct]
      split
      · rfl
      · next s hs =>
          rw [hs] at h
          dsimp only at h
          split at h
          · next hb =>
              cases h _ rfl
              rw [if_pos (hname hb), if_pos hb]
          · next hb =>
              -- what is not under way on the left is not on the right, which knows fewer
              rw [if_neg hb, if_neg fun hm => hb (hsub hm)]
              have hinner : ∀ inner, Keeps (.fault (.endlessDefault name) none)
                  (ofStruct schema depth (outer :: building) inner)
                  (ofStruct schema more (outer :: fewer) inner) := by
                intro inner
                refine ih (Nat.le_of_succ_le_succ hle) (List.cons_subset_cons _ hsub) fun hm => ?_
                rcases List.mem_cons.mp hm with rfl | hm
                · exact List.mem_cons_self
                · exact List.mem_cons_of_mem _ (hname hm)
              exact congrArg (Value.map <$> ·)
                (keeps_ofFields (fun _ t => keeps_ofType hinner t)
                  fun e he => h e (by rw [he]; rfl))

/-! ### Where building fails -/

section

variable {struct : Text → Outcome Value} {earlier : Consistency.Earlier} {failure : Failure}

/-- Of a sound type whose siblings are there, building fails only at a struct. -/
theorem failed_ofType (hc : schema.Consistent) (hlabels : schema.LabelsNonempty)
    {siblings : Fields} {t : FieldType} (sound : schema.Sound earlier t)
    (held : Siblings.Held schema earlier siblings)
    (h : ofType schema struct siblings t = .error failure) :
    ∃ name s, schema.struct? name = some s ∧ struct name = .error failure := by
  induction sound with
  | int | float | text => cases h
  | @enum name signed width default? e declared _ known =>
      rw [ofType, declared] at h
      dsimp only at h
      split at h
      · cases h
      · cases h
      · next hf => exact absurd (List.head?_eq_none_iff.mp hf) (hc.labels_ne_nil declared)
  | struct declared => exact ⟨_, _, declared, h⟩
  | array counted inner ih =>
      rw [ofType] at h
      split at h
      · cases h
      · cases h
      · split at h
        · cases h
        · next e he =>
            cases h
            exact ih he
  | union declared discriminated complete inner ih =>
      obtain ⟨label, t, hl, ht⟩ :=
        held.exists_case hlabels (.union declared discriminated complete inner)
      rw [ofType, hl] at h
      dsimp only at h
      rw [ofCase_eq, ht] at h
      exact ih _ _ (Fields.mem_of_get? ht) h

theorem failed_ofFields (hc : schema.Consistent) (hlabels : schema.LabelsNonempty)
    {fields : List (Text × FieldType)} :
    ∀ {earlier : Consistency.Earlier} {built : Fields}, schema.SoundFields fields earlier →
      Siblings.Held schema earlier built →
      ofFields (ofType schema struct) fields built = .error failure →
      ∃ name s, schema.struct? name = some s ∧ struct name = .error failure := by
  induction fields with
  | nil => exact fun _ _ h => (nomatch h)
  | cons head rest ih =>
      obtain ⟨name, t⟩ := head
      intro earlier built sound held h
      rw [ofFields] at h
      split at h
      · next v hv => exact ih sound.2.2 (held.put (offers sound.2.1 hv)) h
      · next e he =>
          cases h
          exact failed_ofType hc hlabels sound.2.1 held he

end

/-- A struct that has no default, for it would contain itself. -/
def Endless (schema : Schema) (name : Text) : Prop :=
  schema.defaultValue (.struct name) = .error (.fault (.endlessDefault name) none)

/-- Of a declared struct, building fails at one that is under way, or at one without a default. -/
theorem endless_of_ofStruct (hc : schema.Consistent) (hlabels : schema.LabelsNonempty)
    {depth : Nat} : ∀ {building : List Text} {outer : Text} {s : StructDef} {failure : Failure},
      schema.struct? outer = some s → building.Nodup →
      (∀ name ∈ building, name ∈ schema.structNames) →
      schema.structs.length ≤ depth + building.length → depth ≤ schema.structs.length →
      ofStruct schema depth building outer = .error failure →
      ∃ name, failure = .fault (.endlessDefault name) none ∧
        (name ∈ building ∨ Endless schema name) := by
  induction depth with
  | zero =>
      intro building outer s failure hs hn hdeclared hd _ h
      rw [ofStruct, hs] at h
      dsimp only at h
      split at h
      · next hb =>
          cases h
          exact ⟨outer, rfl, .inl hb⟩
      · next hb =>
          -- as many structs as there are would already be under way
          have := Schema.length_le_of_nodup (List.nodup_cons.mpr ⟨hb, hn⟩)
            (List.forall_mem_cons.mpr ⟨Schema.mem_structNames hs, hdeclared⟩)
          rw [List.length_cons] at this
          omega
  | succ depth ih =>
      intro building outer s failure hs hn hdeclared hd hle hfail
      have h := hfail
      rw [ofStruct, hs] at h
      dsimp only at h
      split at h
      · next hb =>
          cases h
          exact ⟨outer, rfl, .inl hb⟩
      · next hb =>
          cases hf : ofFields (ofType schema (ofStruct schema depth (outer :: building)))
              s.fields [] with
          | ok all => rw [hf] at h; cases h
          | error e =>
              rw [hf] at h
              cases h
              obtain ⟨inner, s', hs', he⟩ :=
                failed_ofFields hc hlabels (hc.fields_sound hs) .nil hf
              obtain ⟨name, rfl, hname⟩ := ih hs' (List.nodup_cons.mpr ⟨hb, hn⟩)
                (List.forall_mem_cons.mpr ⟨Schema.mem_structNames hs, hdeclared⟩)
                (by rw [List.length_cons]; omega) (Nat.le_of_succ_le hle) he
              refine ⟨name, rfl, ?_⟩
              rcases hname with hname | hname
              · rcases List.mem_cons.mp hname with rfl | hname
                · -- it was begun here, and would end here with nothing else under way
                  refine .inr
                    ((keeps_ofStruct hle (List.nil_subset _) (absurd · hb) ?_).trans hfail)
                  exact fun e he => Except.error.inj (he.symm.trans hfail)
                · exact .inl hname
              · exact .inr hname

/-- **Defaults.** In a consistent schema building the default of a sound type fails only at a struct
that has none. -/
theorem endless_of_default (hc : schema.Consistent) (hlabels : schema.LabelsNonempty)
    {earlier : Consistency.Earlier} {siblings : Fields} {t : FieldType} {failure : Failure}
    (sound : schema.Sound earlier t) (held : Siblings.Held schema earlier siblings)
    (h : schema.defaultValue t siblings = .error failure) :
    ∃ name, failure = .fault (.endlessDefault name) none ∧ Endless schema name := by
  obtain ⟨outer, s, hs, he⟩ := failed_ofType hc hlabels sound held h
  obtain ⟨name, hf, hname⟩ := endless_of_ofStruct hc hlabels hs List.nodup_nil
    (fun _ h => nomatch h) (Nat.le_add_right _ _) (Nat.le_refl _) he
  exact ⟨name, hf, hname.resolve_left List.not_mem_nil⟩

end Default

end WireSchema
