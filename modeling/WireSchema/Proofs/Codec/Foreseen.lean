import WireSchema.Proofs.Codec.Defaults
import WireSchema.Proofs.Codec.Extent

/-!
# Codec — A default is measured without its value

Without a value the estimator measures, in default mode, what the default takes
(`Size.foresees_default`). The two are measured by different rules: for a default its fields are
given and its elements are there one by one, without it the siblings are filled as it goes along,
an element is measured once and multiplied, and structs are visited.

They meet in what the default is built from: the estimator walks the structs that the builder does,
and those that a default is being built for are at most those that are visited; and either way the
siblings agree with what has been built in all that can be looked up. So one number is the size
both ways (`Size.Foresees`), whatever the bound on the nesting of structs, if it is one for the
builder.
-/

namespace WireSchema

variable {schema : Schema}

namespace Size

/-! ### One field -/

/-- A field that is given is measured as it is. -/
theorem fields_given {mode : Mode} {one : Fields → FieldType → Value → Outcome Extent}
    {name : Text} {t : FieldType} {rest : List (Text × FieldType)} {siblings : Fields}
    {v : Value} {n total : Nat} (hg : Fields.get? siblings name = some v) (hn : v.isNull = false)
    (hone : one siblings t v = .ok (.finite n)) :
    fields schema mode one addUp ((name, t) :: rest) siblings (.finite total) =
      fields schema mode one addUp rest siblings (.finite (total + n)) := by
  rw [fields]
  simp only [hg, Option.getD_some, hn, Bool.false_and, Bool.false_eq_true, if_false, pure_bind,
    hone]
  rfl

/-- A field that is missing is measured with its default beside it. -/
theorem fields_filled {one : Fields → FieldType → Value → Outcome Extent} {name : Text}
    {t : FieldType} {rest : List (Text × FieldType)} {siblings : Fields} {d : Value}
    {n total : Nat} (hg : (Fields.get? siblings name).getD .null = .null)
    (hd : siblingDefault schema t = .ok d)
    (hone : one (standing siblings name d) t .null = .ok (.finite n)) :
    fields schema .default one addUp ((name, t) :: rest) siblings (.finite total) =
      fields schema .default one addUp rest (standing siblings name d) (.finite (total + n)) := by
  rw [fields]
  simp only [hg, hd]
  show (do let size ← one (standing siblings name d) t .null
           fields schema .default one addUp rest (standing siblings name d)
             (← addUp (.finite total) name size)) = _
  rw [hone]
  rfl

/-- What counts as the sibling is the default, in all that can be looked up. -/
theorem siblingDefault_of_default {struct : Text → Outcome Value} {built : Fields} {t : FieldType}
    {v : Value} (h : Default.ofType schema struct built t = .ok v) :
    ∃ d, siblingDefault schema t = .ok d ∧ (t.Selects → d = v ∧ v.isNull = false) := by
  cases t with
  | int signed width default? =>
      cases h
      exact ⟨_, rfl, fun _ => ⟨rfl, rfl⟩⟩
  | enum name signed width default? =>
      cases he : schema.enum? name with
      | none =>
          simp only [Default.ofType, he] at h
          cases h
      | some e =>
          cases default? with
          | some label =>
              simp only [Default.ofType, he] at h
              cases h
              exact ⟨_, rfl, fun _ => ⟨rfl, rfl⟩⟩
          | none =>
              cases hf : e.firstLabel? with
              | none =>
                  simp only [Default.ofType, he, hf] at h
                  cases h
              | some label =>
                  simp only [Default.ofType, he, hf] at h
                  cases h
                  refine ⟨.text label, ?_, fun _ => ⟨rfl, rfl⟩⟩
                  simp only [siblingDefault, he, hf]
  | _ => exact ⟨.null, rfl, fun hs => hs.elim⟩

section

variable {earlier : Consistency.Earlier} {siblings built : Fields} {name : Text} {t : FieldType}
  {d v : Value}

/-- A default that stands in for a field not yet seen changes nothing that was seen. -/
theorem agree_standing (hname : Fields.get? earlier name = none)
    (agree : Siblings.Agree earlier siblings built) :
    Siblings.Agree earlier (standing siblings name d) built := by
  intro other u hu hs
  have hne : other ≠ name := fun e => by rw [e, hname] at hu; cases hu
  rw [get?_standing_of_ne hne]
  exact agree other u hu hs

/-- Behind a field that is filled in, siblings agree if what may select a case is the same. -/
theorem agree_standing_put (hname : Fields.get? earlier name = none)
    (agree : Siblings.Agree earlier siblings built) (hd : t.Selects → d = v ∧ v.isNull = false) :
    Siblings.Agree (Fields.put earlier name t) (standing siblings name d)
      (Fields.put built name v) := by
  refine (agree_standing hname agree).put fun hs => ?_
  obtain ⟨rfl, hn⟩ := hd hs
  rw [standing, hn, if_neg Bool.false_ne_true, Fields.get?_put_self]

end

/-! ### Elements -/

/-- The size of elements: of those given one by one, and of those missing all at once. -/
theorem elements_eq {one : Value → Outcome Extent} {count k f : Nat} {items : List Value}
    (hpos : 0 < count)
    (hsum : ∀ total, sumOf one (items.take count) (.finite total) = .ok (.finite (total + k)))
    (hnull : (items.take count).length < count → one .null = .ok (.finite f)) :
    elements one count items = .ok (.finite (k + (count - (items.take count).length) * f)) := by
  rw [elements]
  split
  · next hnone =>
      have hk := hsum 0
      rw [hnone] at hk hnull ⊢
      have hk : 0 = 0 + k := Extent.finite.inj (Except.ok.inj hk)
      rw [hnull hpos, List.length_nil, Nat.sub_zero, ← Nat.zero_add k, ← hk, Nat.zero_add]
      rfl
  · rw [hsum 0, Nat.zero_add]
    show (if _ < count then _ else _) = _
    split
    · next hlt =>
        rw [hnull hlt]
        rfl
    · next hge =>
        rw [Nat.sub_eq_zero_of_le (Nat.not_lt.mp hge), Nat.zero_mul]
        rfl

section

variable {one : Value → Outcome Extent} {v : Value} {count n : Nat}

/-- A list without items is as large as so many defaults. -/
theorem elements_nil (hpos : 0 < count) (h : one .null = .ok (.finite n)) :
    elements one count [] = .ok (.finite (count * n)) := by
  rw [elements_eq (k := 0) hpos (fun _ => by rw [List.take_nil]; rfl) fun _ => h, List.take_nil,
    List.length_nil, Nat.sub_zero, Nat.zero_add]

theorem sumOf_replicate (h : one v = .ok (.finite n)) (count : Nat) :
    ∀ total, sumOf one (List.replicate count v) (.finite total) =
      .ok (.finite (total + count * n)) := by
  induction count with
  | zero =>
      intro total
      rw [Nat.zero_mul]
      rfl
  | succ count ih =>
      intro total
      rw [List.replicate_succ, sumOf, h, Nat.succ_mul, Nat.add_comm (count * n), ← Nat.add_assoc]
      exact ih (total + n)

/-- So many items of one value are so many times as large. -/
theorem elements_replicate (hpos : 0 < count) (h : one v = .ok (.finite n)) :
    elements one count (List.replicate count v) = .ok (.finite (count * n)) := by
  have htake : (List.replicate count v).take count = List.replicate count v :=
    List.take_of_length_le (List.length_replicate ..).le
  have hlength : ((List.replicate count v).take count).length = count := by
    rw [htake, List.length_replicate]
  rw [elements_eq (f := 0) hpos (fun total => by rw [htake]; exact sumOf_replicate h count total)
    (fun hlt => absurd hlt (by rw [hlength]; exact lt_irrefl count)), Nat.mul_zero, Nat.add_zero]

end

/-! ### Defaults -/

/-- A value takes as many bits as are measured in place of it. -/
def Foresees (one : Value → Outcome Extent) (v : Value) (n : Nat) : Prop :=
  one .null = .ok (.finite n) ∧ one v = .ok (.finite n)

section

variable {structD : Text → Outcome Value} {measures : (Text → Value → Outcome Extent) → Prop}

/-- Every default of a type takes as many bits as are measured in place of it, among whatever is the
same for the type as the siblings that it is built from. -/
def ForeseenAs (schema : Schema) (structD : Text → Outcome Value)
    (measures : (Text → Value → Outcome Extent) → Prop) (t : FieldType) : Prop :=
  ∀ {built : Fields} {v : Value}, Default.ofType schema structD built t = .ok v →
    ∃ n, ∀ f siblings, measures f → Siblings.SameFor schema siblings built t →
      Foresees (ofType schema .default f siblings t) v n

/-- An array is foreseen if its elements are. -/
theorem foreseenAs_array {element : FieldType} {length : ArrayLength}
    (h : ForeseenAs schema structD measures element) :
    ForeseenAs schema structD measures (.array element length) := by
  intro built v hd
  cases hres : length.resolve built with
  | error field =>
      refine ⟨0, fun f siblings _ same => ?_⟩
      constructor <;> simp only [ofType, same.resolve_eq, hres]
  | ok count =>
      cases count with
      | zero =>
          refine ⟨0, fun f siblings _ same => ?_⟩
          constructor <;> simp only [ofType, same.resolve_eq, hres]
      | succ count =>
          simp only [Default.ofType, hres] at hd
          split at hd
          · next w hw =>
              cases hd
              obtain ⟨n, hn⟩ := h hw
              refine ⟨(count + 1) * n, fun f siblings hf same => ?_⟩
              obtain ⟨hnull, hvalue⟩ := hn f siblings hf same.element
              have hres' := same.resolve_eq.trans hres
              rw [Foresees, ofType_array_succ hres', ofType_array_succ hres']
              exact ⟨elements_nil (Nat.succ_pos count) hnull,
                elements_replicate (Nat.succ_pos count) hvalue⟩
          · cases hd

/-- A union is foreseen if its cases are. -/
theorem foreseenAs_union {discriminant enumName : Text} {cases : List (Text × FieldType)}
    (h : ∀ label t, (label, t) ∈ cases → ForeseenAs schema structD measures t) :
    ForeseenAs schema structD measures (.union discriminant enumName cases) := by
  intro built v hd
  cases hl : built.label? discriminant with
  | some label =>
      simp only [Default.ofType, hl] at hd
      obtain ⟨u, hu, hd⟩ := Default.ofCase_eq_ok hd
      have hm := Fields.mem_of_get? hu
      obtain ⟨n, hn⟩ := h label u hm hd
      refine ⟨n, fun f siblings hf same => ?_⟩
      have hcase : ∀ w, ofType schema .default f siblings (.union discriminant enumName cases) w =
          ofType schema .default f siblings u w := fun w => by
        simp only [ofType, same.label?_eq, hl, ofCase_eq, hu]
        rfl
      rw [Foresees, hcase, hcase]
      exact hn f siblings hf (same.case hm)
  | none =>
      simp only [Default.ofType, hl] at hd
      split at hd
      · cases hd
      · next e he =>
          split at hd
          · next label hf =>
              obtain ⟨u, hu, hd⟩ := Default.ofCase_eq_ok hd
              have hm := Fields.mem_of_get? hu
              obtain ⟨n, hn⟩ := h label u hm hd
              refine ⟨n, fun f siblings hmeasures same => ?_⟩
              -- whatever is given, the first case is measured without it
              have hcase : ∀ w,
                  ofType schema .default f siblings (.union discriminant enumName cases) w =
                    ofType schema .default f siblings u .null := fun w => by
                simp only [ofType, same.label?_eq, hl, he, hf, ofCase_eq, hu]
                rfl
              have hnull := (hn f siblings hmeasures (same.case hm)).1
              exact ⟨(hcase _).trans hnull, (hcase _).trans hnull⟩
          · cases hd

/-- A type is foreseen if the structs in it are. -/
theorem foresees_ofType
    (hstruct : ∀ name d, structD name = .ok d → ∃ n, ∀ f, measures f → Foresees (f name) d n)
    (t : FieldType) : ForeseenAs schema structD measures t := by
  induction t with
  | int signed width default? =>
      intro built v hd
      cases hd
      exact ⟨width.bits, fun _ _ _ _ => ⟨rfl, rfl⟩⟩
  | float width default? =>
      intro built v hd
      cases hd
      exact ⟨width.bits, fun _ _ _ _ => ⟨rfl, rfl⟩⟩
  | text charset default? =>
      intro built v hd
      cases hd
      cases default? with
      | some s => exact ⟨_, fun _ _ _ _ => ⟨rfl, rfl⟩⟩
      | none => exact ⟨8, fun _ _ _ _ => ⟨rfl, by cases charset <;> rfl⟩⟩
  | enum name signed width default? =>
      intro built v hd
      cases he : schema.enum? name with
      | none =>
          simp only [Default.ofType, he] at hd
          cases hd
      | some e =>
          refine ⟨width.bits, fun _ _ _ _ => ⟨?_, ?_⟩⟩
          · simp only [ofType, he]
          · simp only [ofType, he]
  | struct name =>
      intro built v hd
      obtain ⟨n, hn⟩ := hstruct name v hd
      exact ⟨n, fun f _ hf _ => hn f hf⟩
  | array element length ih => exact foreseenAs_array ih
  | union discriminant enumName cases ih => exact foreseenAs_union ih

/-- Fields take as much with the defaults among the siblings as without, or with some of them. -/
theorem foresees_fields
    (hstruct : ∀ name d, structD name = .ok d → ∃ n, ∀ f, measures f → Foresees (f name) d n)
    (hnull : ∀ name d, structD name = .ok d → d.isNull = false)
    {fields : List (Text × FieldType)} :
    ∀ {earlier : Consistency.Earlier} {built all : Fields}, schema.SoundFields fields earlier →
      Default.ofFields (Default.ofType schema structD) fields built = .ok all →
      ∃ n, ∀ f siblings total, measures f → Siblings.Agree earlier siblings built →
        (∀ name ∈ fields.map (·.1), Fields.get? siblings name = none ∨
          Fields.get? siblings name = Fields.get? all name) →
        Size.fields schema .default (ofType schema .default f) addUp fields siblings
          (.finite total) = .ok (.finite (total + n)) := by
  induction fields with
  | nil => exact fun _ _ => ⟨0, fun _ _ _ _ _ _ => rfl⟩
  | cons head rest ih =>
      obtain ⟨name, t⟩ := head
      intro earlier built all sound hd
      have hname := (List.nodup_cons.mp sound.names.1).1
      obtain ⟨hfresh, hsound, hrest⟩ := sound
      rw [Default.ofFields] at hd
      split at hd
      · next v hv =>
          have hg := (Default.get?_of_ofFields hname hd).trans Fields.get?_put_self
          obtain ⟨n, hn⟩ := foresees_ofType hstruct t hv
          obtain ⟨m, hm⟩ := ih hrest hd
          refine ⟨n + m, fun f siblings total hf agree hsib => ?_⟩
          have hothers := fun other ho => hsib other (List.mem_cons_of_mem _ ho)
          rw [← Nat.add_assoc]
          rcases hsib name List.mem_cons_self with hnone | hgiven
          · -- the field is filled with what it counts as
            obtain ⟨d, hcounts, hsel⟩ := siblingDefault_of_default hv
            have hone := (hn f _ hf (.of_sound hsound (agree_standing (d := d) hfresh agree))).1
            rw [fields_filled (by rw [hnone, Option.getD_none]) hcounts hone]
            refine hm f _ _ hf (agree_standing_put hfresh agree hsel) fun other ho => ?_
            rw [get?_standing_of_ne fun e => hname (by rw [← e]; exact ho)]
            exact hothers other ho
          · -- the field is given as its default
            have hgiven := hgiven.trans hg
            have hone := (hn f _ hf (.of_sound hsound agree)).2
            rw [fields_given hgiven (Default.ne_null hnull t hv) hone]
            exact hm f _ _ hf (agree.put fun _ => hgiven) hothers
      · cases hd

end

/-- The measurers of structs that go as deep as a default is built and visit no more structs than it
is being built for. -/
def Measures (schema : Schema) (depth : Nat) (building : List Text)
    (f : Text → Value → Outcome Extent) : Prop :=
  ∃ bound visiting, depth ≤ bound ∧ visiting ⊆ building ∧
    f = ofStruct schema .default bound visiting

/-- A struct is foreseen by every measure that goes as deep as its default does. -/
theorem foresees_ofStruct (hc : schema.Consistent) {depth : Nat} :
    ∀ {building : List Text} {name : Text} {d : Value},
      Default.ofStruct schema depth building name = .ok d →
      ∃ n, ∀ f, Measures schema depth building f → Foresees (f name) d n := by
  induction depth with
  | zero =>
      intro building name d hd
      -- without a bound no struct has a default
      obtain ⟨_, _, _, _, _, h₀, _⟩ := Default.ofStruct_eq_ok hd
      cases h₀
  | succ depth ih =>
      intro building name d hd
      obtain ⟨s, inner, all, hs, hfresh, hi, hf, rfl⟩ := Default.ofStruct_eq_ok hd
      cases hi
      obtain ⟨n, hn⟩ := foresees_fields (fun _ _ hd => ih hd)
        (fun _ _ h => Default.ofStruct_ne_null h) (hc.fields_sound hs) hf
      refine ⟨n, ?_⟩
      rintro _ ⟨bound, visiting, hb, hv, rfl⟩
      obtain ⟨bound, rfl⟩ := Nat.exists_eq_succ_of_ne_zero (Nat.ne_zero_of_lt hb)
      have hb := Nat.le_of_succ_le_succ hb
      rw [← Nat.zero_add n]
      refine ⟨?_, ?_⟩
      · have hunknown : ∀ members, Value.null ≠ .map members := fun _ h => nomatch h
        rw [ofStruct_of_enters hs (.unknown hunknown fun hm => hfresh (hv hm))]
        exact hn _ _ 0 ⟨bound, _, hb, List.cons_subset_cons name hv, rfl⟩ .nil
          fun _ _ => Or.inl Fields.get?_nil
      · rw [ofStruct_of_enters hs .known]
        exact hn _ _ 0 ⟨bound, _, hb, List.subset_cons_of_subset name hv, rfl⟩ .nil
          fun _ _ => Or.inr rfl

/-- **A default is measured without its value** as it is with it, with whatever bound on the nesting
of structs that the schema allows for. -/
theorem foresees_default (hc : schema.Consistent) {t : FieldType} {built : Fields} {v : Value}
    (hd : schema.defaultValue t built = .ok v) :
    ∃ n, ∀ bound siblings, schema.structs.length ≤ bound →
      Siblings.SameFor schema siblings built t →
      Foresees (ofType schema .default (ofStruct schema .default bound []) siblings t) v n := by
  obtain ⟨n, hn⟩ := foresees_ofType (fun _ _ hd => foresees_ofStruct hc hd) t hd
  exact ⟨n, fun bound siblings hb same =>
    hn _ siblings ⟨bound, [], hb, List.Subset.refl [], rfl⟩ same⟩

end Size

end WireSchema
