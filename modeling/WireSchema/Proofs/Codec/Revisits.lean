import WireSchema.Proofs.Codec.Listed

/-!
# Codec — Sizes with one more struct visited

The estimator cuts a struct off where nothing is known of it and it is being visited already. If one
more struct counts as visited from the start, that one is cut off too, wherever the estimator comes
to it without a value, and nothing else changes.

`Size.Revisits` says that the estimator comes to the struct in this way at a place that counts: of a
union whose label is not known, that it does so in the case of the default, in some case where the
greatest size is sought, and in every case of the least size where that is sought.

So the size with one more struct visited is the same exactly if the struct is not come to, or the
size is infinite in any case; and it is never less (`Size.compare_ofStruct`).
-/

namespace WireSchema

namespace Size

section

variable (schema : Schema) (mode : Mode) (root : Text)

/-- In the least size a type takes without a value, no case takes less. -/
def Least (visiting : List Text) (siblings : Fields) (cases : List (Text × FieldType))
    (t : FieldType) : Prop :=
  ∃ e, Takes schema .min visiting siblings t .null e ∧ ∀ label u f, (label, u) ∈ cases →
    Takes schema .min visiting siblings u .null f → e ≤ f

mutual

/-- Measuring a value comes, at a place that counts, to the struct without a value of it. -/
inductive Revisits : List Text → Fields → FieldType → Value → Prop
  | here {visiting siblings v} (unknown : ∀ members, v ≠ .map members) (fresh : root ∉ visiting) :
      Revisits visiting siblings (.struct root) v
  | inside {visiting siblings name s v inside} (declared : schema.struct? name = some s)
      (enters : Enters visiting name v inside) (fields : RevisitsFields inside s.fields v.members) :
      Revisits visiting siblings (.struct name) v
  | element {visiting siblings element length count v i}
      (counted : length.resolve siblings = .ok count) (lt : i < count)
      (item : Revisits visiting siblings element (v.items.getD i .null)) :
      Revisits visiting siblings (.array element length) v
  | case {visiting siblings discriminant enumName cases label t v}
      (chosen : siblings.label? discriminant = some label) (case : Fields.get? cases label = some t)
      (value : Revisits visiting siblings t v) :
      Revisits visiting siblings (.union discriminant enumName cases) v
  | first {visiting siblings discriminant enumName cases t v} (hmode : mode = .default)
      (unknown : siblings.label? discriminant = none) (case : FirstCase schema enumName cases t)
      (value : Revisits visiting siblings t .null) :
      Revisits visiting siblings (.union discriminant enumName cases) v
  | some {visiting siblings discriminant enumName cases label t v} (hmode : mode = .max)
      (unknown : siblings.label? discriminant = none) (mem : (label, t) ∈ cases)
      (value : Revisits visiting siblings t .null) :
      Revisits visiting siblings (.union discriminant enumName cases) v
  | every {visiting siblings discriminant enumName cases v} (hmode : mode = .min)
      (unknown : siblings.label? discriminant = none) (ne_nil : cases ≠ [])
      (least : ∀ label t, (label, t) ∈ cases → Least schema visiting siblings cases t →
        Revisits visiting siblings t .null) :
      Revisits visiting siblings (.union discriminant enumName cases) v

/-- Measuring fields comes to the struct in one of them. -/
inductive RevisitsFields : List Text → List (Text × FieldType) → Fields → Prop
  | first {visiting name t rest siblings behind}
      (passes : Passes schema mode siblings name t behind)
      (field : Revisits visiting behind t ((Fields.get? siblings name).getD .null)) :
      RevisitsFields visiting ((name, t) :: rest) siblings
  | rest {visiting name t rest siblings behind}
      (passes : Passes schema mode siblings name t behind)
      (others : RevisitsFields visiting rest behind) :
      RevisitsFields visiting ((name, t) :: rest) siblings

end

end

namespace Revisits

variable {schema : Schema} {mode : Mode} {root : Text} {visiting : List Text}
  {siblings : Fields} {v : Value}

theorem not_array {element : FieldType} {length : ArrayLength} {field : Text}
    (unknown : length.resolve siblings = .error field) :
    ¬ Revisits schema mode root visiting siblings (.array element length) v := by
  intro h
  cases h with
  | element counted => cases unknown.symm.trans counted

theorem array_iff {element : FieldType} {length : ArrayLength} {count : Nat}
    (counted : length.resolve siblings = .ok count) :
    Revisits schema mode root visiting siblings (.array element length) v ↔
      ∃ i < count, Revisits schema mode root visiting siblings element
        (v.items.getD i .null) := by
  constructor
  · intro h
    cases h with
    | element counted' hi item =>
        cases counted.symm.trans counted'
        exact ⟨_, hi, item⟩
  · rintro ⟨i, hi, item⟩
    exact .element counted hi item

variable {discriminant enumName : Text} {cases : List (Text × FieldType)}

theorem union_iff {label : Text} {t : FieldType}
    (chosen : siblings.label? discriminant = Option.some label)
    (case : Fields.get? cases label = Option.some t) :
    Revisits schema mode root visiting siblings (.union discriminant enumName cases) v ↔
      Revisits schema mode root visiting siblings t v := by
  refine ⟨fun h => ?_, .case chosen case⟩
  cases h with
  | case chosen' case' value =>
      cases chosen.symm.trans chosen'
      cases case.symm.trans case'
      exact value
  | first _ unknown | some _ unknown | every _ unknown => cases chosen.symm.trans unknown

variable (unknown : siblings.label? discriminant = none)

include unknown

theorem union_min_iff :
    Revisits schema .min root visiting siblings (.union discriminant enumName cases) v ↔
      cases ≠ [] ∧ ∀ label t, (label, t) ∈ cases → Least schema visiting siblings cases t →
        Revisits schema .min root visiting siblings t .null := by
  refine ⟨fun h => ?_, fun h => .every rfl unknown h.1 h.2⟩
  cases h with
  | case chosen => cases unknown.symm.trans chosen
  | first hmode | some hmode => cases hmode
  | every _ _ ne_nil least => exact ⟨ne_nil, least⟩

theorem union_max_iff :
    Revisits schema .max root visiting siblings (.union discriminant enumName cases) v ↔
      ∃ label t, (label, t) ∈ cases ∧
        Revisits schema .max root visiting siblings t .null := by
  constructor
  · intro h
    cases h with
    | case chosen => cases unknown.symm.trans chosen
    | first hmode | every hmode => cases hmode
    | some _ _ mem value => exact ⟨_, _, mem, value⟩
  · rintro ⟨_, _, mem, value⟩
    exact .some rfl unknown mem value

theorem union_default_iff :
    Revisits schema .default root visiting siblings (.union discriminant enumName cases) v ↔
      ∃ t, FirstCase schema enumName cases t ∧
        Revisits schema .default root visiting siblings t .null := by
  constructor
  · intro h
    cases h with
    | case chosen => cases unknown.symm.trans chosen
    | first _ _ case value => exact ⟨_, case, value⟩
    | some hmode | every hmode => cases hmode
  · rintro ⟨t, case, value⟩
    exact .first rfl unknown case value

end Revisits

/-! ### Comparing sizes -/

/-- What becomes of a size in which a struct is cut off: the least size grows, the others are
infinite. -/
def Mode.Rises : Mode → ℕ∞ → ℕ∞ → Prop
  | .min, a, b => a = ⊤ ∨ a < b
  | _, _, b => b = ⊤

/-- Of two sizes, the second is not less, and rises if and only if the struct is come to. -/
structure Compare (mode : Mode) (revisits : Prop) (a b : ℕ∞) : Prop where
  le : a ≤ b
  eq : ¬ revisits → b = a
  rises : revisits → mode.Rises a b

namespace Mode

variable {mode : Mode} {a b c d : ℕ∞}

theorem Rises.to_top : mode.Rises a ⊤ := by
  cases mode
  · exact or_iff_not_imp_left.mpr lt_top_iff_ne_top.mpr
  · rfl
  · rfl

theorem Rises.add_left (h : mode.Rises a b) (hcd : c ≤ d) : mode.Rises (a + c) (b + d) := by
  cases mode
  · by_cases hc : c = ⊤
    · exact Or.inl (by rw [hc, add_top])
    · rcases h with h | h
      · exact Or.inl (by rw [h, top_add])
      · exact Or.inr (ENat.add_lt_add_of_lt_of_le hc h hcd)
  · exact (congrArg (· + d) h).trans (top_add d)
  · exact (congrArg (· + d) h).trans (top_add d)

theorem Rises.add_right (hab : a ≤ b) (h : mode.Rises c d) : mode.Rises (a + c) (b + d) := by
  rw [add_comm a, add_comm b]
  exact h.add_left hab

end Mode

namespace Compare

variable {mode : Mode} {m n : Prop} {a b c d : ℕ∞}

theorem refl (hm : ¬ m) : Compare mode m a a := ⟨le_rfl, fun _ => rfl, fun h => absurd h hm⟩

theorem congr (h : Compare mode m a b) (hmn : m ↔ n) : Compare mode n a b :=
  ⟨h.le, fun hn => h.eq (mt hmn.mp hn), fun hn => h.rises (hmn.mpr hn)⟩

/-- The size is cut off only the second time. -/
theorem cut (hm : m) : Compare mode m a ⊤ := ⟨le_top, fun h => absurd hm h, fun _ => .to_top⟩

/-- What is infinite stays so. -/
theorem top : Compare mode m ⊤ ⊤ := ⟨le_rfl, fun _ => rfl, fun _ => .to_top⟩

theorem add (h : Compare mode m a b) (h' : Compare mode n c d) :
    Compare mode (m ∨ n) (a + c) (b + d) := by
  refine ⟨add_le_add h.le h'.le, fun hmn => ?_, fun hmn => ?_⟩
  · rw [h.eq fun hm => hmn (Or.inl hm), h'.eq fun hn => hmn (Or.inr hn)]
  · rcases hmn with hm | hn
    · exact (h.rises hm).add_left h'.le
    · exact (h'.rises hn).add_right h.le

/-- The sizes are the same exactly if they are infinite or the struct is not come to. -/
theorem eq_iff (h : Compare mode m a b) : b = a ↔ a = ⊤ ∨ ¬ m := by
  refine ⟨fun he => ?_, fun ho => ?_⟩
  · by_cases hm : m
    · have hr := h.rises hm
      rw [he] at hr
      cases mode
      · exact Or.inl (hr.resolve_right (lt_irrefl a))
      · exact Or.inl hr
      · exact Or.inl hr
    · exact Or.inr hm
  · rcases ho with ha | hm
    · exact ha ▸ top_le_iff.mp (ha ▸ h.le)
    · exact h.eq hm

end Compare

variable {schema : Schema} {mode : Mode} {root : Text}

/-! ### Types -/

section

variable {f g : Text → Value → Outcome Extent} {visiting : List Text} {siblings : Fields}

/-- Elements are come to one by one. -/
theorem compare_of_addUp {one two : Value → Outcome Extent} {revisits : Value → Prop}
    (h : ∀ v a b, one v = .ok a → two v = .ok b → Compare mode (revisits v) a.bits b.bits)
    {count : Nat} : ∀ {items : List Value} {a b : ℕ∞}, AddUp one count items a →
      AddUp two count items b →
      Compare mode (∃ i < count, revisits (items.getD i .null)) a b := by
  induction count with
  | zero =>
      intro items a b ha hb
      rw [AddUp] at ha hb
      rw [ha, hb]
      refine .refl fun h => ?_
      obtain ⟨_, hi, -⟩ := h
      exact Nat.not_lt_zero _ hi
  | succ count ih =>
      intro items a b ha hb
      obtain ⟨e, a', he, ha', rfl⟩ := ha
      obtain ⟨f, b', hf, hb', rfl⟩ := hb
      refine ((h _ _ _ he hf).add (ih ha' hb')).congr ?_
      have htail : ∀ i, items.tail.getD i .null = items.getD (i + 1) .null := fun i => by
        rw [List.getD_eq_getElem?_getD, List.getElem?_tail, ← List.getD_eq_getElem?_getD]
      rw [List.headD_eq_getD]
      simp only [htail]
      constructor
      · rintro (hv | ⟨i, hi, hv⟩)
        · exact ⟨0, Nat.succ_pos count, hv⟩
        · exact ⟨i + 1, Nat.succ_lt_succ hi, hv⟩
      · rintro ⟨i, hi, hv⟩
        cases i with
        | zero => exact Or.inl hv
        | succ i => exact Or.inr ⟨i, Nat.lt_of_succ_lt_succ hi, hv⟩

/-- The greatest of some sizes rises if one of them does. -/
theorem compare_of_greatest {cases : List (Text × FieldType)} {a b : Extent}
    {revisits : FieldType → Prop}
    (h : ∀ label t, (label, t) ∈ cases → ∀ a b, ofType schema .max f siblings t .null = .ok a →
      ofType schema .max g siblings t .null = .ok b → Compare .max (revisits t) a.bits b.bits)
    (ha : ofCases schema .max f siblings Extent.max none cases = .ok a)
    (hb : ofCases schema .max g siblings Extent.max none cases = .ok b) :
    Compare .max (∃ label t, (label, t) ∈ cases ∧ revisits t) a.bits b.bits := by
  have hcombine : Combines .max Extent.max := fun a b => Extent.max_cases a b
  obtain ⟨hevery, hsome⟩ := bounds_of_ofCases hcombine ha
  obtain ⟨hevery', hsome'⟩ := bounds_of_ofCases hcombine hb
  have hab : a.bits ≤ b.bits := by
    rcases hsome with ⟨-, rfl⟩ | ⟨label, t, hm, ht⟩
    · exact zero_le
    · obtain ⟨size, hsize, hle⟩ := hevery' label t hm
      exact (h label t hm _ _ ht hsize).le.trans hle
  refine ⟨hab, fun hnone => le_antisymm ?_ hab, fun ⟨label, t, hm, ht⟩ => ?_⟩
  · rcases hsome' with ⟨-, rfl⟩ | ⟨label, t, hm, ht⟩
    · exact zero_le
    · obtain ⟨size, hsize, hle⟩ := hevery label t hm
      rw [(h label t hm _ _ hsize ht).eq fun hr => hnone ⟨label, t, hm, hr⟩]
      exact hle
  · obtain ⟨size, hsize, -⟩ := hevery label t hm
    obtain ⟨size', hsize', hle⟩ := hevery' label t hm
    have hrise : size'.bits = ⊤ := (h label t hm _ _ hsize hsize').rises ht
    exact top_le_iff.mp (hrise ▸ hle)

/-- The least of some sizes rises if all of the least do. -/
theorem compare_of_least {depth : Nat} {cases : List (Text × FieldType)} {a b : Extent}
    {revisits : FieldType → Prop}
    (h : ∀ label t, (label, t) ∈ cases → ∀ a b,
      ofType schema .min (ofStruct schema .min depth visiting) siblings t .null = .ok a →
      ofType schema .min g siblings t .null = .ok b → Compare .min (revisits t) a.bits b.bits)
    (ha : ofCases schema .min (ofStruct schema .min depth visiting) siblings Extent.min none cases =
      .ok a)
    (hb : ofCases schema .min g siblings Extent.min none cases = .ok b) :
    Compare .min (cases ≠ [] ∧ ∀ label t, (label, t) ∈ cases →
      Least schema visiting siblings cases t → revisits t) a.bits b.bits := by
  have hcombine : Combines .min Extent.min := fun a b => Extent.min_cases a b
  obtain ⟨hevery, hsome⟩ := bounds_of_ofCases hcombine ha
  obtain ⟨hevery', hsome'⟩ := bounds_of_ofCases hcombine hb
  have hbound : ∀ label t e, (label, t) ∈ cases → Takes schema .min visiting siblings t .null e →
      a.bits ≤ e.bits := by
    intro label t e hm he
    obtain ⟨size, hsize, hle⟩ := hevery label t hm
    rwa [he.unique ⟨depth, hsize⟩]
  have hab : a.bits ≤ b.bits := by
    rcases hsome' with ⟨hnil, rfl⟩ | ⟨label, t, hm, ht⟩
    · subst hnil
      cases ha
      exact le_rfl
    · obtain ⟨size, hsize, hle⟩ := hevery label t hm
      exact hle.trans (h label t hm _ _ hsize ht).le
  -- the sizes are the same if a least case keeps its size, and the second is infinite if none does
  refine ⟨hab, fun hnone => le_antisymm ?_ hab, fun ⟨hne, hall⟩ => ?_⟩
  · rcases hsome with ⟨hnil, rfl⟩ | ⟨label, t, hm, ht⟩
    · subst hnil
      cases hb
      exact le_rfl
    · -- some case of the least size is not come to
      have hne : cases ≠ [] := List.ne_nil_of_mem hm
      push Not at hnone
      obtain ⟨l, u, hu, ⟨e, he, hleast⟩, hr⟩ := hnone hne
      obtain ⟨size, hsize, -⟩ := hevery l u hu
      obtain ⟨size', hsize', hle'⟩ := hevery' l u hu
      cases he.unique ⟨depth, hsize⟩
      refine hle'.trans ?_
      rw [(h l u hu _ _ hsize hsize').eq hr]
      exact hleast label t a hm ⟨depth, ht⟩
  · rcases hsome' with ⟨hnil, -⟩ | ⟨label, t, hm, ht⟩
    · exact absurd hnil hne
    · obtain ⟨size, hsize, hle⟩ := hevery label t hm
      have hcase := h label t hm _ _ hsize ht
      rcases eq_or_lt_of_le (hle : a.bits ≤ size.bits) with he | hlt
      · -- the case is of the least size, so it rises
        have hleast : Least schema visiting siblings cases t :=
          ⟨size, ⟨depth, hsize⟩, fun l u f hu hf => he.symm.le.trans (hbound l u f hu hf)⟩
        rw [he]
        exact hcase.rises (hall label t hm hleast)
      · exact Or.inr (hlt.trans_le hcase.le)

/-- In default mode both sizes are those of the same case, or of none. -/
theorem compare_of_default {discriminant enumName : Text} {cases : List (Text × FieldType)}
    {v : Value} {a b : Extent} {revisits : FieldType → Prop}
    (unknown : siblings.label? discriminant = none)
    (h : ∀ label t, (label, t) ∈ cases → ∀ a b, ofType schema .default f siblings t .null = .ok a →
      ofType schema .default g siblings t .null = .ok b →
      Compare .default (revisits t) a.bits b.bits)
    (ha : ofType schema .default f siblings (.union discriminant enumName cases) v = .ok a)
    (hb : ofType schema .default g siblings (.union discriminant enumName cases) v = .ok b) :
    Compare .default (∃ t, FirstCase schema enumName cases t ∧ revisits t) a.bits b.bits := by
  rcases ofType_union_default unknown ha with ⟨t, ht, ha⟩ | ⟨hnone, rfl⟩
  · rcases ofType_union_default unknown hb with ⟨u, hu, hb⟩ | ⟨hnone, -⟩
    · cases ht.unique hu
      obtain ⟨_, label, -, -, hm⟩ := id ht
      refine (h label t (Fields.mem_of_get? hm) _ _ ha hb).congr ⟨fun hr => ⟨t, ht, hr⟩, ?_⟩
      rintro ⟨u, hu, hr⟩
      cases ht.unique hu
      exact hr
    · exact absurd ⟨t, ht⟩ hnone
  · rcases ofType_union_default unknown hb with ⟨u, hu, -⟩ | ⟨-, rfl⟩
    · exact absurd ⟨u, hu⟩ hnone
    · exact .refl fun h => hnone (h.imp fun _ => And.left)

end

section

variable {depth : Nat} {visiting : List Text} {g : Text → Value → Outcome Extent}
  {siblings : Fields} {v : Value} {a b : Extent}

theorem compare_array {element : FieldType} {length : ArrayLength}
    (ih : ∀ {v : Value} {a b : Extent},
      ofType schema mode (ofStruct schema mode depth visiting) siblings element v = .ok a →
      ofType schema mode g siblings element v = .ok b →
      Compare mode (Revisits schema mode root visiting siblings element v) a.bits b.bits)
    (ha : ofType schema mode (ofStruct schema mode depth visiting) siblings
      (.array element length) v = .ok a)
    (hb : ofType schema mode g siblings (.array element length) v = .ok b) :
    Compare mode (Revisits schema mode root visiting siblings (.array element length) v)
      a.bits b.bits := by
  cases hres : length.resolve siblings with
  | error field =>
      simp only [ofType, hres] at ha hb
      cases mode <;> cases ha <;> cases hb <;> exact .refl (Revisits.not_array hres)
  | ok count =>
      refine Compare.congr ?_ (Revisits.array_iff hres).symm
      cases count with
      | zero =>
          simp only [ofType, hres] at ha hb
          cases ha
          cases hb
          refine .refl fun h => ?_
          obtain ⟨_, hi, -⟩ := h
          exact Nat.not_lt_zero _ hi
      | succ count =>
          rw [ofType_array_succ hres] at ha hb
          exact compare_of_addUp (fun _ _ _ => ih) (addUp_of_elements (Nat.succ_pos count) ha)
            (addUp_of_elements (Nat.succ_pos count) hb)

theorem compare_union {discriminant enumName : Text} {cases : List (Text × FieldType)}
    (ih : ∀ label t, (label, t) ∈ cases → ∀ {v : Value} {a b : Extent},
      ofType schema mode (ofStruct schema mode depth visiting) siblings t v = .ok a →
      ofType schema mode g siblings t v = .ok b →
      Compare mode (Revisits schema mode root visiting siblings t v) a.bits b.bits)
    (ha : ofType schema mode (ofStruct schema mode depth visiting) siblings
      (.union discriminant enumName cases) v = .ok a)
    (hb : ofType schema mode g siblings (.union discriminant enumName cases) v = .ok b) :
    Compare mode (Revisits schema mode root visiting siblings
      (.union discriminant enumName cases) v) a.bits b.bits := by
  cases hl : siblings.label? discriminant with
  | some label =>
      simp only [ofType, hl] at ha hb
      obtain ⟨t, ht, ha⟩ := ofCase_eq_ok ha
      obtain ⟨u, hu, hb⟩ := ofCase_eq_ok hb
      cases ht.symm.trans hu
      exact (ih label t (Fields.mem_of_get? ht) ha hb).congr (Revisits.union_iff hl ht).symm
  | none =>
      have hcase : ∀ label t, (label, t) ∈ cases → ∀ a b,
          ofType schema mode (ofStruct schema mode depth visiting) siblings t .null = .ok a →
          ofType schema mode g siblings t .null = .ok b →
          Compare mode (Revisits schema mode root visiting siblings t .null) a.bits b.bits :=
        fun label t hm _ _ => ih label t hm
      cases mode with
      | min =>
          simp only [ofType, hl] at ha hb
          exact (compare_of_least hcase ha hb).congr (Revisits.union_min_iff hl).symm
      | max =>
          simp only [ofType, hl] at ha hb
          exact (compare_of_greatest hcase ha hb).congr (Revisits.union_max_iff hl).symm
      | default =>
          exact (compare_of_default hl hcase ha hb).congr (Revisits.union_default_iff hl).symm

end

/-- The sizes of a value as a type, if those of structs compare. -/
theorem compare_ofType {depth : Nat} {visiting : List Text}
    {g : Text → Value → Outcome Extent}
    (hstruct : ∀ siblings name v a b, ofStruct schema mode depth visiting name v = .ok a →
      g name v = .ok b →
      Compare mode (Revisits schema mode root visiting siblings (.struct name) v) a.bits b.bits)
    (t : FieldType) :
    ∀ {siblings : Fields} {v : Value} {a b : Extent},
      ofType schema mode (ofStruct schema mode depth visiting) siblings t v = .ok a →
      ofType schema mode g siblings t v = .ok b →
      Compare mode (Revisits schema mode root visiting siblings t v) a.bits b.bits := by
  induction t with
  | int | float | text | enum =>
      intro siblings v a b ha hb
      cases ha.symm.trans hb
      exact .refl fun h => by cases h
  | struct name => exact fun ha hb => hstruct _ name _ _ _ ha hb
  | array element length ih => exact fun ha hb => compare_array ih ha hb
  | union discriminant enumName cases ih =>
      exact fun ha hb => compare_union (fun label t hm => ih label t hm) ha hb

/-! ### Structs -/

/-- The sizes of fields, if those of types compare. -/
theorem compare_of_listed {one two : Fields → FieldType → Value → Outcome Extent}
    {visiting : List Text}
    (h : ∀ siblings t v a b, one siblings t v = .ok a → two siblings t v = .ok b →
      Compare mode (Revisits schema mode root visiting siblings t v) a.bits b.bits)
    {fields : List (Text × FieldType)} {siblings : Fields} {sizes : List (Text × Extent)}
    (hs : Listed schema mode one fields siblings sizes) :
    ∀ {others : List (Text × Extent)}, Listed schema mode two fields siblings others →
      Compare mode (RevisitsFields schema mode root visiting fields siblings) (total sizes)
        (total others) := by
  induction hs with
  | nil =>
      intro others ho
      cases ho
      exact .refl fun h => by cases h
  | cons passes first _ ih =>
      intro others ho
      cases ho with
      | cons passes' first' rest' =>
          cases passes.unique passes'
          rw [total, total, List.map_cons, List.map_cons, List.sum_cons, List.sum_cons]
          refine ((h _ _ _ _ _ first first').add (ih rest')).congr
            ⟨fun hr => hr.elim (.first passes) (.rest passes), fun hr => ?_⟩
          cases hr with
          | first passes' field =>
              cases passes.unique passes'
              exact Or.inl field
          | rest passes' others =>
              cases passes.unique passes'
              exact Or.inr others

theorem Enters.mem_iff {visiting visiting' inside inside' : List Text} {name : Text} {v : Value}
    (hvisiting : ∀ other, other ∈ visiting' ↔ other ∈ visiting ∨ other = root)
    (h : Enters visiting name v inside) (h' : Enters visiting' name v inside') :
    ∀ other, other ∈ inside' ↔ other ∈ inside ∨ other = root := by
  cases h with
  | known =>
      cases h' with
      | known => exact hvisiting
      | unknown hv => exact absurd rfl (hv _)
  | unknown hv =>
      cases h' with
      | known => exact absurd rfl (hv _)
      | unknown =>
          intro other
          rw [List.mem_cons, List.mem_cons, hvisiting, or_assoc]

/-- What is cut off already is cut off with one more struct visited. -/
theorem compare_of_cut {visiting visiting' : List Text} {name : Text} {v : Value} {depth : Nat}
    {m : Prop} {s : StructDef} {b : Extent} (declared : schema.struct? name = some s)
    (hvisiting : ∀ other, other ∈ visiting' ↔ other ∈ visiting ∨ other = root)
    (hv : ∀ members, v ≠ .map members) (hm : name ∈ visiting)
    (hb : ofStruct schema mode depth visiting' name v = .ok b) :
    Compare mode m Extent.infinite.bits b.bits := by
  cases (ofStruct_cut declared hv ((hvisiting name).mpr (Or.inl hm)) depth).symm.trans hb
  exact .top

/-- **One more struct visited.** Where one more struct counts as visited, no size is less, and one
is the same exactly if it is infinite or the struct is not come to. -/
theorem compare_ofStruct {depth : Nat} :
    ∀ {depth' : Nat} {visiting visiting' : List Text},
      (∀ other, other ∈ visiting' ↔ other ∈ visiting ∨ other = root) →
      ∀ siblings name v a b, ofStruct schema mode depth visiting name v = .ok a →
        ofStruct schema mode depth' visiting' name v = .ok b →
        Compare mode (Revisits schema mode root visiting siblings (.struct name) v) a.bits
          b.bits := by
  induction depth with
  | zero =>
      intro depth' visiting visiting' hvisiting siblings name v a b ha hb
      obtain ⟨s, declared⟩ := declared_of_ofStruct ha
      rcases ofStruct_eq_ok ha with ⟨hv, hm, rfl⟩ | ⟨_, _, _, _, h₀, _⟩
      · exact compare_of_cut declared hvisiting hv hm hb
      · cases h₀
  | succ depth ih =>
      intro depth' visiting visiting' hvisiting siblings name v a b ha hb
      obtain ⟨s, declared⟩ := declared_of_ofStruct ha
      rcases ofStruct_eq_ok ha with ⟨hv, hm, rfl⟩ | ⟨_, _, inside, declared', hd, enters, hf⟩
      · exact compare_of_cut declared hvisiting hv hm hb
      · cases hd
        cases declared.symm.trans declared'
        rcases ofStruct_eq_ok hb with ⟨hv, hm, rfl⟩ | ⟨_, _, inside', declared', _, enters', hf'⟩
        · -- it is cut off now and was not before: this is the one more struct
          cases enters with
          | known => exact absurd rfl (hv _)
          | unknown _ fresh =>
              obtain rfl := ((hvisiting name).mp hm).resolve_left fresh
              exact .cut (.here hv fresh)
        · cases declared.symm.trans declared'
          obtain ⟨sizes, hs, ha⟩ := listed_of_addUp hf
          obtain ⟨others, ho, hb⟩ := listed_of_addUp hf'
          have hfields : Compare mode (RevisitsFields schema mode root inside _ v.members) _ _ :=
            compare_of_listed
              (fun _ t _ _ _ => compare_ofType (ih (enters.mem_iff hvisiting enters')) t) hs ho
          rw [ha, hb, show Extent.bits (.finite 0) = 0 from rfl, zero_add, zero_add]
          refine hfields.congr ⟨.inside declared enters, fun h => ?_⟩
          cases h with
          | here hv =>
              cases enters' with
              | known => exact absurd rfl (hv _)
              | unknown _ fresh => exact absurd ((hvisiting _).mpr (Or.inr rfl)) fresh
          | inside declared' enters' fields =>
              cases declared.symm.trans declared'
              cases enters.unique enters'
              exact fields

end Size

end WireSchema
