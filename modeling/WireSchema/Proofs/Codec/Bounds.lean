import WireSchema.Proofs.Codec.Extent
import WireSchema.Proofs.Consistency.Sound
import WireSchema.Proofs.Value

/-!
# Codec — The less is known, the wider the bounds

Of a value and a part of it, the size measured of the part in `min` mode is not greater, and in
`max` mode not less (`Size.bounds_ofStruct`). The size of the value may be that in the same mode, or
in default mode, if the schema is consistent (`Size.Mode.Spans`): a default is a value like any
other.

For types this is a comparison of two walks over the same type (`Size.bounded_ofType`). In default
mode the siblings of the whole are filled, which only makes more of them known, and a union without
a label is measured as its first case, which the bound on all cases covers.

For structs the part may be at a disadvantage: where it says nothing, structs that lie in themselves
are cut off, and what the value says may have led deeper. In `max` mode a cut only widens the bound.
In `min` mode it would narrow it; but a struct that is cut off has been entered without a value
further up, and there the value of the inner one would have done as well, and is no greater
(`Size.Escapes`).
-/

namespace WireSchema

namespace Size

/-- What a size says of another in a mode: `min` that it is not greater, `max` that it is not less.
-/
def Mode.Bounds : Mode → ℕ∞ → ℕ∞ → Prop
  | .min, a, b => a ≤ b
  | .max, a, b => b ≤ a
  | .default, a, b => a = b

namespace Mode.Bounds

variable {mode : Mode} {a b c d : ℕ∞}

theorem refl (mode : Mode) (a : ℕ∞) : mode.Bounds a a := by
  cases mode
  · exact le_rfl
  · exact le_rfl
  · rfl

theorem trans (h : mode.Bounds a b) (h' : mode.Bounds b c) : mode.Bounds a c := by
  cases mode
  · exact le_trans h h'
  · exact le_trans h' h
  · exact Eq.trans h h'

theorem add (h : mode.Bounds a b) (h' : mode.Bounds c d) : mode.Bounds (a + c) (b + d) := by
  cases mode
  · exact add_le_add h h'
  · exact add_le_add h h'
  · exact congrArg₂ _ h h'

end Mode.Bounds

/-- The modes whose sizes a mode bounds: its own, and the default one where what is measured is
sound. -/
def Mode.Spans (mode other : Mode) (sound : Prop) : Prop := other = mode ∨ other = .default ∧ sound

theorem Mode.Spans.imp {mode other : Mode} {sound sound' : Prop} (h : mode.Spans other sound)
    (himp : sound → sound') : mode.Spans other sound' :=
  Or.imp_right (And.imp_right himp) h

/-- A bound on a size, or a way out of giving one. -/
def Bounded (mode : Mode) (escape : ℕ∞ → Prop) (a b : ℕ∞) : Prop := mode.Bounds a b ∨ escape b

variable {schema : Schema} {mode other : Mode} {escape : ℕ∞ → Prop}

namespace Bounded

variable {a b c d : ℕ∞}

theorem of_bounds (h : mode.Bounds a b) : Bounded mode escape a b := Or.inl h

theorem refl (a : ℕ∞) : Bounded mode escape a a := Or.inl (.refl mode a)

theorem trans (h' : Bounded mode escape b c) (h : mode.Bounds a b) : Bounded mode escape a c :=
  h'.imp_left h.trans

theorem add (hup : ∀ {a b}, escape a → a ≤ b → escape b) (h : Bounded mode escape a b)
    (h' : Bounded mode escape c d) : Bounded mode escape (a + c) (b + d) := by
  rcases h with h | h
  · rcases h' with h' | h'
    · exact Or.inl (h.add h')
    · exact Or.inr (hup h' le_add_self)
  · exact Or.inr (hup h le_self_add)

end Bounded

/-! ### Types -/

section

variable {struct : Text → Value → Outcome Extent} {siblings : Fields}
  {combine : Extent → Extent → Extent}

/-- A combined size bounds both, and is one of them. -/
def Combines (mode : Mode) (combine : Extent → Extent → Extent) : Prop :=
  ∀ a b, (combine a b = a ∨ combine a b = b) ∧
    mode.Bounds (combine a b).bits a.bits ∧ mode.Bounds (combine a b).bits b.bits

theorem bounds_of_ofCases_some (hcombine : Combines mode combine)
    {cases : List (Text × FieldType)} {e : Extent} :
    ∀ {before : Extent}, ofCases schema mode struct siblings combine (some before) cases = .ok e →
      mode.Bounds e.bits before.bits ∧
      (∀ label t, (label, t) ∈ cases → ∃ size,
        ofType schema mode struct siblings t .null = .ok size ∧ mode.Bounds e.bits size.bits) ∧
      (e = before ∨ ∃ label t,
        (label, t) ∈ cases ∧ ofType schema mode struct siblings t .null = .ok e) := by
  induction cases with
  | nil =>
      intro before h
      cases h
      exact ⟨.refl mode _, fun _ _ hm => (nomatch hm), Or.inl rfl⟩
  | cons head cases ih =>
      obtain ⟨l, t⟩ := head
      intro before h
      rw [ofCases] at h
      split at h
      · cases h
      · next size hsize =>
          obtain ⟨hsofar, hcases, hone⟩ := ih h
          obtain ⟨hchoice, hbefore, hhead⟩ := hcombine before size
          refine ⟨hsofar.trans hbefore, fun label u hm => ?_, ?_⟩
          · rcases List.mem_cons.mp hm with he | hm
            · cases he
              exact ⟨size, hsize, hsofar.trans hhead⟩
            · exact hcases label u hm
          · rcases hone with he | ⟨label, u, hm, hu⟩
            · rcases hchoice with hb | hs
              · exact Or.inl (he.trans hb)
              · exact Or.inr ⟨l, t, List.mem_cons_self, hsize.trans (congrArg _ (he.trans hs).symm)⟩
            · exact Or.inr ⟨label, u, List.mem_cons_of_mem _ hm, hu⟩

/-- What is measured of a union whose label is not known bounds each of its cases, and is the size
of one, if there is any. -/
theorem bounds_of_ofCases (hcombine : Combines mode combine) {cases : List (Text × FieldType)}
    {e : Extent} (h : ofCases schema mode struct siblings combine none cases = .ok e) :
    (∀ label t, (label, t) ∈ cases → ∃ size,
      ofType schema mode struct siblings t .null = .ok size ∧ mode.Bounds e.bits size.bits) ∧
    (cases = [] ∧ e = .finite 0 ∨ ∃ label t,
      (label, t) ∈ cases ∧ ofType schema mode struct siblings t .null = .ok e) := by
  cases cases with
  | nil =>
      cases h
      exact ⟨fun _ _ hm => (nomatch hm), Or.inl ⟨rfl, rfl⟩⟩
  | cons head cases =>
      obtain ⟨l, t⟩ := head
      rw [ofCases] at h
      split at h
      · cases h
      · next size hsize =>
          obtain ⟨hfirst, hcases, hone⟩ := bounds_of_ofCases_some hcombine h
          refine ⟨fun label u hm => ?_, Or.inr ?_⟩
          · rcases List.mem_cons.mp hm with he | hm
            · cases he
              exact ⟨size, hsize, hfirst⟩
            · exact hcases label u hm
          · rcases hone with rfl | ⟨label, u, hm, hu⟩
            · exact ⟨l, t, List.mem_cons_self, hsize⟩
            · exact ⟨label, u, List.mem_cons_of_mem _ hm, hu⟩

/-- The case of the first label of an enum. -/
def FirstCase (schema : Schema) (enumName : Text) (cases : List (Text × FieldType))
    (t : FieldType) : Prop :=
  ∃ e label, schema.enum? enumName = some e ∧ e.firstLabel? = some label ∧
    Fields.get? cases label = some t

theorem FirstCase.unique {enumName : Text} {cases : List (Text × FieldType)}
    {t u : FieldType} (h : FirstCase schema enumName cases t)
    (h' : FirstCase schema enumName cases u) : t = u := by
  obtain ⟨e, label, he, hf, ht⟩ := h
  obtain ⟨e', label', he', hf', hu⟩ := h'
  cases he.symm.trans he'
  cases hf.symm.trans hf'
  exact Option.some.inj (ht.symm.trans hu)

/-- In a consistent schema every label of a union has a case, and there is a first one. -/
theorem exists_firstCase {discriminant enumName : Text} {cases : List (Text × FieldType)}
    (h : schema.Placed (.union discriminant enumName cases)) :
    ∃ t, FirstCase schema enumName cases t := by
  obtain ⟨hc, earlier, sound⟩ := h
  cases sound with
  | @union _ _ _ e declared _ complete _ =>
      obtain ⟨label, labels, hl⟩ := List.exists_cons_of_ne_nil (hc.labels_ne_nil declared)
      obtain ⟨t, ht⟩ := Option.isSome_iff_exists.mp (complete label (hl ▸ List.mem_cons_self))
      exact ⟨t, e, label, declared, congrArg List.head? hl, ht⟩

/-- A union whose label is not known is measured by its cases combined. -/
theorem ofType_union_none (hmode : mode ≠ .default) {discriminant enumName : Text}
    {cases : List (Text × FieldType)} {v : Value} (hl : siblings.label? discriminant = none) :
    ∃ combine, Combines mode combine ∧
      ofType schema mode struct siblings (.union discriminant enumName cases) v =
        ofCases schema mode struct siblings combine none cases := by
  cases mode with
  | min =>
      refine ⟨Extent.min, fun a b => Extent.min_cases a b, ?_⟩
      simp only [ofType, hl]
  | max =>
      refine ⟨Extent.max, fun a b => Extent.max_cases a b, ?_⟩
      simp only [ofType, hl]
  | default => exact absurd rfl hmode

/-- In default mode a union whose label is not known is measured as the case of the first label, if
there is one. -/
theorem ofType_union_default {discriminant enumName : Text} {cases : List (Text × FieldType)}
    {v : Value} {a : Extent} (hl : siblings.label? discriminant = none)
    (ha : ofType schema .default struct siblings (.union discriminant enumName cases) v = .ok a) :
    (∃ t, FirstCase schema enumName cases t ∧
        ofType schema .default struct siblings t .null = .ok a) ∨
      (¬ ∃ t, FirstCase schema enumName cases t) ∧ a = .finite 0 := by
  simp only [ofType, hl] at ha
  split at ha
  · cases ha
  · next e he =>
      split at ha
      · next hf =>
          cases ha
          refine Or.inr ⟨?_, rfl⟩
          rintro ⟨_, _, _, he', hf', -⟩
          cases he.symm.trans he'
          cases hf.symm.trans hf'
      · next label hf =>
          rw [ofCase_eq] at ha
          cases ht : Fields.get? cases label with
          | none =>
              rw [ht] at ha
              cases ha
              refine Or.inr ⟨?_, rfl⟩
              rintro ⟨_, _, _, he', hf', ht'⟩
              cases he.symm.trans he'
              cases hf.symm.trans hf'
              cases ht.symm.trans ht'
          | some t =>
              rw [ht] at ha
              exact Or.inl ⟨t, ⟨e, label, he, hf, ht⟩, ha⟩

end

/-- A text of which nothing is known may be empty, and it may be of any length. -/
theorem ofType_unknown_text (schema : Schema) (hmode : mode ≠ .default) (charset : Charset)
    (default? : Option Text) :
    ∃ e, (∀ struct siblings v, (∀ s, v ≠ .text s) →
        ofType schema mode struct siblings (.text charset default?) v = .ok e) ∧
      ∀ s, mode.Bounds e.bits (ofText charset s).bits := by
  cases mode with
  | min =>
      refine ⟨.finite 8, fun struct siblings v hv => ?_,
        fun s => Nat.cast_le.mpr (Nat.le_mul_of_pos_right 8 (Nat.succ_pos _))⟩
      cases v with
      | text s => exact absurd rfl (hv s)
      | _ => rfl
  | max =>
      refine ⟨.infinite, fun struct siblings v hv => ?_, fun s => le_top⟩
      cases v with
      | text s => exact absurd rfl (hv s)
      | _ => rfl
  | default => exact absurd rfl hmode

/-- In default mode some text is measured, the empty one if no other is known. -/
theorem exists_ofType_text (schema : Schema) (struct : Text → Value → Outcome Extent)
    (siblings : Fields) (charset : Charset) (default? : Option Text) (v : Value) :
    ∃ s, ofType schema .default struct siblings (.text charset default?) v =
      .ok (ofText charset s) := by
  have hempty : Extent.finite 8 = ofText charset "" := by cases charset <;> rfl
  cases v with
  | text s => exact ⟨s, rfl⟩
  | _ =>
      cases default? with
      | some s => exact ⟨s, rfl⟩
      | none => exact ⟨"", congrArg Except.ok hempty⟩

/-- An array whose length is not known may be empty, and it may be of any length. -/
theorem ofType_unknown_array (hmode : mode ≠ .default) {struct : Text → Value → Outcome Extent}
    {siblings : Fields} {element : FieldType} {length : ArrayLength} {field : Text}
    (hl : length.resolve siblings = .error field) :
    ∃ e, (∀ v, ofType schema mode struct siblings (.array element length) v = .ok e) ∧
      ∀ b, mode.Bounds e.bits b := by
  cases mode with
  | min =>
      refine ⟨.finite 0, fun v => ?_, fun b => zero_le⟩
      simp only [ofType, hl]
  | max =>
      refine ⟨.infinite, fun v => ?_, fun b => le_top⟩
      simp only [ofType, hl]
  | default => exact absurd rfl hmode

section

variable {f g : Text → Value → Outcome Extent}

theorem bounded_of_addUp (hup : ∀ {a b}, escape a → a ≤ b → escape b)
    {one two : Value → Outcome Extent}
    (hone : ∀ x y a b, x.PartOf y → one x = .ok a → two y = .ok b →
      Bounded mode escape a.bits b.bits) {count : Nat} :
    ∀ {xs ys : List Value} {a b : ℕ∞}, (∀ i, (xs.getD i .null).PartOf (ys.getD i .null)) →
      AddUp one count xs a → AddUp two count ys b → Bounded mode escape a b := by
  induction count with
  | zero =>
      intro xs ys a b _ ha hb
      rw [AddUp] at ha hb
      rw [ha, hb]
      exact .refl 0
  | succ count ih =>
      intro xs ys a b hpart ha hb
      obtain ⟨e, a', he, ha', rfl⟩ := ha
      obtain ⟨f, b', hf, hb', rfl⟩ := hb
      have hhead : (xs.headD .null).PartOf (ys.headD .null) := by
        rw [List.headD_eq_getD, List.headD_eq_getD]
        exact hpart 0
      have htail : ∀ i, (xs.tail.getD i .null).PartOf (ys.tail.getD i .null) := fun i => by
        rw [List.getD_eq_getElem?_getD, List.getD_eq_getElem?_getD, List.getElem?_tail,
          List.getElem?_tail, ← List.getD_eq_getElem?_getD, ← List.getD_eq_getElem?_getD]
        exact hpart (i + 1)
      exact (hone _ _ _ _ hhead he hf).add hup (ih htail ha' hb')

/-- The size of a part, with one measurer of structs, bounds that of the whole, with another one, if
both are measured of this type. -/
def BoundedAs (schema : Schema) (mode other : Mode) (escape : ℕ∞ → Prop)
    (f g : Text → Value → Outcome Extent) (t : FieldType) : Prop :=
  ∀ {siblings others : Fields} {x y : Value} {a b : Extent}, mode.Spans other (schema.Placed t) →
    Fields.PartOf siblings others → x.PartOf y → ofType schema mode f siblings t x = .ok a →
    ofType schema other g others t y = .ok b → Bounded mode escape a.bits b.bits

theorem boundedAs_text (hmode : mode ≠ .default) (charset : Charset) (default? : Option Text) :
    BoundedAs schema mode other escape f g (.text charset default?) := by
  intro siblings others x y a b hspans _ hxy ha hb
  by_cases hx : ∀ s, x ≠ .text s
  · obtain ⟨e, hunknown, hbound⟩ := ofType_unknown_text schema hmode charset default?
    cases ha.symm.trans (hunknown f siblings x hx)
    rcases hspans with rfl | ⟨rfl, -⟩
    · by_cases hy : ∀ s, y ≠ .text s
      · cases hb.symm.trans (hunknown g others y hy)
        exact .refl _
      · push Not at hy
        obtain ⟨s, rfl⟩ := hy
        cases hb
        exact .of_bounds (hbound s)
    · obtain ⟨s, hs⟩ := exists_ofType_text schema g others charset default? y
      cases hb.symm.trans hs
      exact .of_bounds (hbound s)
  · push Not at hx
    obtain ⟨s, rfl⟩ := hx
    cases hxy
    cases ha
    cases hb
    exact .refl _

theorem boundedAs_array (hmode : mode ≠ .default) (hup : ∀ {a b}, escape a → a ≤ b → escape b)
    {element : FieldType} {length : ArrayLength}
    (h : BoundedAs schema mode other escape f g element) :
    BoundedAs schema mode other escape f g (.array element length) := by
  intro siblings others x y a b hspans hsib hxy ha hb
  cases hres : length.resolve siblings with
  | error field =>
      obtain ⟨e, hunknown, hbound⟩ := ofType_unknown_array hmode hres
      cases ha.symm.trans (hunknown x)
      exact .of_bounds (hbound _)
  | ok count =>
      have hres' := hsib.resolve_eq hres
      cases count with
      | zero =>
          simp only [ofType, hres] at ha
          simp only [ofType, hres'] at hb
          cases ha
          cases hb
          exact .refl _
      | succ count =>
          rw [ofType_array_succ hres] at ha
          rw [ofType_array_succ hres'] at hb
          exact bounded_of_addUp hup
            (fun _ _ _ _ hp => h (hspans.imp Schema.Placed.element) hsib hp) hxy.items_partOf
            (addUp_of_elements (Nat.succ_pos count) ha) (addUp_of_elements (Nat.succ_pos count) hb)

/-- What bounds every case of a union bounds the union, whichever case it has. -/
theorem bounded_of_cases (hmode : mode ≠ .default) {discriminant enumName : Text}
    {cases : List (Text × FieldType)} {others : Fields} {y : Value} {a b : Extent}
    (hspans : mode.Spans other (schema.Placed (.union discriminant enumName cases)))
    (hcase : ∀ label t z, (label, t) ∈ cases → ofType schema other g others t z = .ok b →
      Bounded mode escape a.bits b.bits) (hnone : cases = [] → a = .finite 0)
    (hb : ofType schema other g others (.union discriminant enumName cases) y = .ok b) :
    Bounded mode escape a.bits b.bits := by
  cases hl : others.label? discriminant with
  | some label =>
      simp only [ofType, hl] at hb
      obtain ⟨u, hu, hb⟩ := ofCase_eq_ok hb
      exact hcase label u y (Fields.mem_of_get? hu) hb
  | none =>
      rcases hspans with rfl | ⟨rfl, hplaced⟩
      · obtain ⟨combine, hcombine, hcases⟩ := ofType_union_none hmode hl
        rw [hcases] at hb
        rcases (bounds_of_ofCases hcombine hb).2 with ⟨hempty, rfl⟩ | ⟨label, u, hm, hu⟩
        · rw [hnone hempty]
          exact .refl _
        · exact hcase label u .null hm hu
      · rcases ofType_union_default hl hb with ⟨u, ⟨_, label, _, _, hu⟩, hb⟩ | ⟨hfirst, -⟩
        · exact hcase label u .null (Fields.mem_of_get? hu) hb
        · exact absurd (exists_firstCase hplaced) hfirst

theorem boundedAs_union (hmode : mode ≠ .default) {discriminant enumName : Text}
    {cases : List (Text × FieldType)}
    (h : ∀ label t, (label, t) ∈ cases → BoundedAs schema mode other escape f g t) :
    BoundedAs schema mode other escape f g (.union discriminant enumName cases) := by
  intro siblings others x y a b hspans hsib hxy ha hb
  have hinner : ∀ label t, (label, t) ∈ cases → mode.Spans other (schema.Placed t) :=
    fun _ _ hm => hspans.imp fun hplaced => hplaced.case hm
  cases hl : siblings.label? discriminant with
  | some label =>
      simp only [ofType, hl] at ha
      simp only [ofType, hsib.label?_eq hl] at hb
      obtain ⟨t, ht, ha⟩ := ofCase_eq_ok ha
      obtain ⟨u, hu, hb⟩ := ofCase_eq_ok hb
      cases ht.symm.trans hu
      have hm := Fields.mem_of_get? ht
      exact h _ t hm (hinner _ t hm) hsib hxy ha hb
  | none =>
      obtain ⟨combine, hcombine, hcases⟩ := ofType_union_none hmode hl
      rw [hcases] at ha
      obtain ⟨hevery, hsome⟩ := bounds_of_ofCases hcombine ha
      refine bounded_of_cases hmode hspans (fun label t z hm hz => ?_) (fun hempty => ?_) hb
      · obtain ⟨size, hsize, hbound⟩ := hevery label t hm
        exact (h label t hm (hinner label t hm) hsib .null hsize hz).trans hbound
      · rcases hsome with ⟨-, ha⟩ | ⟨label, t, hm, -⟩
        · exact ha
        · rw [hempty] at hm
          cases hm

/-- The sizes of a part and of the whole, measured of the same type. -/
theorem bounded_ofType (hmode : mode ≠ .default) (hup : ∀ {a b}, escape a → a ≤ b → escape b)
    (hstruct : ∀ name x y a b, x.PartOf y → f name x = .ok a → g name y = .ok b →
      Bounded mode escape a.bits b.bits) (t : FieldType) :
    BoundedAs schema mode other escape f g t := by
  induction t with
  | int | float =>
      intro siblings others x y a b _ _ _ ha hb
      cases ha
      cases hb
      exact .refl _
  | enum name signed width default? =>
      intro siblings others x y a b _ _ _ ha hb
      rw [ofType] at ha hb
      split at ha
      · next he =>
          rw [he] at hb
          cases ha
          cases hb
          exact .refl _
      · cases ha
  | text charset default? => exact boundedAs_text hmode charset default?
  | struct name => exact fun _ _ hxy ha hb => hstruct name _ _ _ _ hxy ha hb
  | array element length ih => exact boundedAs_array hmode hup ih
  | union discriminant enumName cases ih => exact boundedAs_union hmode ih

/-- Where nothing is given, what a field counts as is no less than what is known. -/
theorem Passes.partOf {known siblings behind : Fields} {name : Text} {t : FieldType}
    (h : Passes schema mode siblings name t behind) (hpart : Fields.PartOf known siblings) :
    Fields.PartOf known behind := by
  cases h with
  | given => exact hpart
  | filled hnull =>
      intro field
      by_cases he : field = name
      · have hknown := hpart field
        rw [he, Value.eq_null_of_isNull (Bool.and_eq_true_iff.mp hnull).1] at hknown
        rw [he, hknown.eq_null]
        exact .null
      · rw [get?_standing_of_ne he]
        exact hpart field

theorem bounded_of_fields (hmode : mode ≠ .default) (hup : ∀ {a b}, escape a → a ≤ b → escape b)
    (hstruct : ∀ name x y a b, x.PartOf y → f name x = .ok a → g name y = .ok b →
      Bounded mode escape a.bits b.bits) {known : Fields} {fields : List (Text × FieldType)} :
    ∀ {siblings : Fields} {total total' a b : Extent},
      (∀ name t, (name, t) ∈ fields → mode.Spans other (schema.Placed t)) →
      Fields.PartOf known siblings → Bounded mode escape total.bits total'.bits →
      Size.fields schema mode (ofType schema mode f) addUp fields known total = .ok a →
      Size.fields schema other (ofType schema other g) addUp fields siblings total' = .ok b →
      Bounded mode escape a.bits b.bits := by
  induction fields with
  | nil =>
      intro siblings total total' a b _ _ htotal ha hb
      cases ha
      cases hb
      exact htotal
  | cons head fields ih =>
      obtain ⟨name, t⟩ := head
      intro siblings total total' a b hspans hpart htotal ha hb
      rw [fields_cons hmode] at ha
      obtain ⟨size, hsize, ha⟩ := eq_ok_of_bind ha
      obtain ⟨next, hnext, ha⟩ := eq_ok_of_bind ha
      obtain ⟨behind, size', next', hpasses, hsize', hnext', hb⟩ := fields_eq_ok hb
      have hbehind := hpasses.partOf hpart
      refine ih (fun name t hm => hspans name t (List.mem_cons_of_mem _ hm)) hbehind ?_ ha hb
      rw [Extent.bits_of_add hnext, Extent.bits_of_add hnext']
      exact htotal.add hup (bounded_ofType hmode hup hstruct t
        (hspans name t List.mem_cons_self) hbehind (hpart name) hsize hsize')

end

/-! ### Structs -/

/-- A struct that is cut off can be had with no more bits, no deeper than so many structs. -/
def Escapes (schema : Schema) (mode : Mode) (visiting : List Text) (depth : Nat) (bits : ℕ∞) :
    Prop :=
  ∃ name ∈ visiting, ∃ inner ≤ depth, ∃ around v e,
    ofStruct schema mode inner around name v = .ok e ∧ e.bits ≤ bits

theorem Escapes.mono {visiting : List Text} {inner depth : Nat} {a b : ℕ∞}
    (h : Escapes schema mode visiting inner a) (hd : inner ≤ depth) (hab : a ≤ b) :
    Escapes schema mode visiting depth b := by
  obtain ⟨name, hm, least, hl, around, v, e, he, hbits⟩ := h
  exact ⟨name, hm, least, hl.trans hd, around, v, e, he, hbits.trans hab⟩

/-- The least size of a part is no greater than that of the whole, unless a struct that is cut off
would have led to less. -/
theorem least_ofStruct (hspans : Mode.min.Spans other schema.Consistent) {depth : Nat} :
    ∀ {depth' : Nat} {around visiting : List Text} {name : Text} {x y : Value} {a b : Extent},
      x.PartOf y → ofStruct schema .min depth' visiting name x = .ok a →
      ofStruct schema other depth around name y = .ok b →
      Bounded .min (Escapes schema other visiting depth) a.bits b.bits := by
  induction depth using Nat.strongRecOn with
  | _ depth ih =>
      intro depth' around visiting name x y a b hxy ha hb
      rcases ofStruct_eq_ok ha with ⟨-, hm, rfl⟩ | ⟨s, inner', inside, hs, rfl, henters, hfa⟩
      · -- the part is cut off here, and the whole is what escapes
        exact Or.inr ⟨name, hm, depth, le_rfl, around, y, b, hb, le_rfl⟩
      · rcases ofStruct_eq_ok hb with ⟨-, -, rfl⟩ | ⟨s', inner, inside', hs', rfl, -, hfb⟩
        · exact Or.inl le_top
        · cases hs.symm.trans hs'
          have hmode : Mode.min ≠ .default := nofun
          have hup : ∀ {a b}, Escapes schema other inside inner a → a ≤ b →
              Escapes schema other inside inner b := fun h hab => h.mono le_rfl hab
          have hbounded : Bounded .min (Escapes schema other inside inner) a.bits b.bits :=
            bounded_of_fields (f := ofStruct schema .min inner' inside)
              (g := ofStruct schema other inner inside') hmode hup
              (fun _ _ _ _ _ hp => ih inner (Nat.lt_succ_self inner) hp)
              (fun _ _ hm => hspans.imp fun hc => .of_field hc hs hm) hxy.members_partOf
              (.refl _) hfa hfb
          cases henters with
          | known => exact hbounded.imp_right fun h => h.mono (Nat.le_succ inner) le_rfl
          | unknown hunknown fresh =>
              rcases hbounded with h | ⟨other, hm, least, hl, around, w, e, he, hbits⟩
              · exact Or.inl h
              · rcases List.mem_cons.mp hm with rfl | hm
                · -- the struct lies in itself: what lies deeper would have done here
                  rw [ofStruct_eq_null hunknown] at ha
                  have hleast := ih least (Nat.lt_succ_of_le hl) .null ha he
                  rcases hleast with h | h
                  · exact Or.inl (le_trans h hbits)
                  · exact Or.inr (h.mono (hl.trans (Nat.le_succ inner)) hbits)
                · exact Or.inr ⟨other, hm, least, hl.trans (Nat.le_succ inner), around, w, e, he,
                    hbits⟩

/-- The greatest size of a part is no less than that of the whole, if no less is cut off. -/
theorem greatest_ofStruct (hspans : Mode.max.Spans other schema.Consistent) {depth : Nat} :
    ∀ {depth' : Nat} {around visiting : List Text} {name : Text} {x y : Value} {a b : Extent},
      around ⊆ visiting → x.PartOf y → ofStruct schema .max depth' visiting name x = .ok a →
      ofStruct schema other depth around name y = .ok b →
      Bounded .max (fun _ => False) a.bits b.bits := by
  induction depth using Nat.strongRecOn with
  | _ depth ih =>
      intro depth' around visiting name x y a b hsub hxy ha hb
      rcases ofStruct_eq_ok ha with ⟨-, -, rfl⟩ | ⟨s, inner', inside, hs, rfl, henters, hfa⟩
      · exact Or.inl le_top
      · rcases ofStruct_eq_ok hb with ⟨hy, hm, -⟩ | ⟨s', inner, inside', hs', rfl, henters', hfb⟩
        · -- where the whole is cut off, the part is so too
          cases henters with
          | known =>
              cases hxy
              exact absurd rfl (hy _)
          | unknown _ fresh => exact absurd (hsub hm) fresh
        · cases hs.symm.trans hs'
          have hinside : inside' ⊆ inside := by
            cases henters with
            | known =>
                cases hxy
                cases henters' with
                | known => exact hsub
                | unknown hunknown => exact absurd rfl (hunknown _)
            | unknown =>
                cases henters' with
                | known => exact List.subset_cons_of_subset name hsub
                | unknown => exact List.cons_subset_cons name hsub
          have hmode : Mode.max ≠ .default := nofun
          exact bounded_of_fields (f := ofStruct schema .max inner' inside)
            (g := ofStruct schema other inner inside') hmode (fun h _ => h)
            (fun _ _ _ _ _ hp => ih inner (Nat.lt_succ_self inner) hinside hp)
            (fun _ _ hm => hspans.imp fun hc => .of_field hc hs hm) hxy.members_partOf
            (.refl _) hfa hfb

/-- **The less is known, the wider the bounds.** The size measured of a part of a value bounds the
size measured of the value, in the same mode or in default mode. -/
theorem bounds_ofStruct (hmode : mode ≠ .default) (hspans : mode.Spans other schema.Consistent)
    {depth depth' : Nat} {name : Text} {x y : Value} {a b : Extent} (hxy : x.PartOf y)
    (ha : ofStruct schema mode depth' [] name x = .ok a)
    (hb : ofStruct schema other depth [] name y = .ok b) : mode.Bounds a.bits b.bits := by
  cases mode with
  | min =>
      rcases least_ofStruct hspans hxy ha hb with h | ⟨_, hm, _⟩
      · exact h
      · cases hm
  | max => exact (greatest_ofStruct hspans (List.Subset.refl []) hxy ha hb).resolve_right id
  | default => exact absurd rfl hmode

end Size

end WireSchema
