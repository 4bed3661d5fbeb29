import WireSchema.Proofs.Codec.Bounds
import WireSchema.Proofs.Codec.Measure

/-!
# Codec — The sizes of the fields of a struct

The estimator goes through the fields of a struct and either adds their sizes up or lists them.
`Size.Listed` says what the sizes are; the sum is that of the list (`Size.listed_of_addUp`), and the
list has every field under its name, if no name is repeated (`Size.listed_of_list`).

A bound on the nesting of structs only ever cuts: a size that is had with some bound is had with a
greater one (`Size.extends_ofStruct`). So a type has one size among given siblings, `Size.Takes`,
whatever the bound.
-/

namespace WireSchema

namespace Size

variable {schema : Schema} {mode : Mode}

/-! ### Sizes are had with a greater bound -/

/-- What the one measures the other measures too. -/
def Extends {α : Type} (one two : α → Outcome Extent) : Prop :=
  ∀ a e, one a = .ok e → two a = .ok e

section

variable {one two : Value → Outcome Extent}

/-- A sum of sizes is the same with a greater bound. -/
theorem extends_sumOf (h : Extends one two) {items : List Value} :
    ∀ {total e : Extent}, sumOf one items total = .ok e → sumOf two items total = .ok e := by
  induction items with
  | nil => exact id
  | cons v items ih =>
      intro total e he
      obtain ⟨size, hsize, he⟩ := eq_ok_of_bind he
      obtain ⟨next, hnext, he⟩ := eq_ok_of_bind he
      rw [sumOf, h v size hsize, ok_bind, hnext, ok_bind]
      exact ih he

theorem extends_elements (h : Extends one two) {count : Nat} {items : List Value} {e : Extent}
    (he : elements one count items = .ok e) : elements two count items = .ok e := by
  rw [elements] at he ⊢
  split at he
  · obtain ⟨size, hsize, he⟩ := eq_ok_of_bind he
    rw [h _ _ hsize]
    exact he
  · obtain ⟨known, hknown, he⟩ := eq_ok_of_bind he
    rw [extends_sumOf h hknown, ok_bind]
    split at he
    · next hlt =>
        obtain ⟨size, hsize, he⟩ := eq_ok_of_bind he
        rw [if_pos hlt, h _ _ hsize]
        exact he
    · next hge =>
        rw [if_neg hge]
        exact he

end

section

variable {f g : Text → Value → Outcome Extent}

/-- The range of the sizes of cases is the same with a greater bound. -/
theorem extends_ofCases {siblings : Fields} {combine : Extent → Extent → Extent}
    {cases : List (Text × FieldType)}
    (h : ∀ label t, (label, t) ∈ cases →
      Extends (ofType schema mode f siblings t) (ofType schema mode g siblings t)) :
    ∀ {before? : Option Extent} {e : Extent},
      ofCases schema mode f siblings combine before? cases = .ok e →
      ofCases schema mode g siblings combine before? cases = .ok e := by
  induction cases with
  | nil => exact id
  | cons head cases ih =>
      obtain ⟨label, t⟩ := head
      intro before? e he
      rw [ofCases] at he ⊢
      split at he
      · cases he
      · next size hsize =>
          rw [h label t List.mem_cons_self _ _ hsize]
          exact ih (fun label t hm => h label t (List.mem_cons_of_mem _ hm)) he

/-- The size of the case that is chosen is the same with a greater bound. -/
theorem extends_ofCase {siblings : Fields} {absent : Outcome Extent} {label : Text}
    {cases : List (Text × FieldType)} {v : Value} {e : Extent}
    (h : ∀ label t, (label, t) ∈ cases →
      Extends (ofType schema mode f siblings t) (ofType schema mode g siblings t))
    (he : ofCase schema mode f siblings absent label cases v = .ok e) :
    ofCase schema mode g siblings absent label cases v = .ok e := by
  rw [ofCase_eq] at he ⊢
  cases hu : Fields.get? cases label with
  | none =>
      rw [hu] at he
      exact he
  | some t =>
      rw [hu] at he
      exact h label t (Fields.mem_of_get? hu) v e he

/-- A type that has a size has the same with a greater bound. -/
theorem extends_ofType (h : ∀ name, Extends (f name) (g name)) (t : FieldType) :
    ∀ siblings, Extends (ofType schema mode f siblings t) (ofType schema mode g siblings t) := by
  induction t with
  | int | float | text | enum => exact fun _ _ _ he => he
  | struct name => exact fun _ => h name
  | array element length ih =>
      intro siblings v e he
      cases hres : length.resolve siblings with
      | error field =>
          simp only [ofType, hres] at he ⊢
          cases mode <;> exact he
      | ok count =>
          cases count with
          | zero =>
              simp only [ofType, hres] at he ⊢
              exact he
          | succ count =>
              rw [ofType_array_succ hres] at he ⊢
              exact extends_elements (ih siblings) he
  | union discriminant enumName cases ih =>
      intro siblings v e he
      have hcases := fun label t hm => ih label t hm siblings
      cases hl : siblings.label? discriminant with
      | some label =>
          simp only [ofType, hl] at he ⊢
          exact extends_ofCase hcases he
      | none =>
          simp only [ofType, hl] at he ⊢
          cases mode with
          | min => exact extends_ofCases hcases he
          | max => exact extends_ofCases hcases he
          | default =>
              dsimp only at he ⊢
              split at he
              · exact he
              · split at he
                · exact he
                · exact extends_ofCase hcases he

end

/-! ### Fields -/

section

variable {σ : Type} {one : Fields → FieldType → Value → Outcome Extent}
  {note : σ → Text → Extent → Outcome σ}

/-- Fields that have sizes have the same with a greater bound. -/
theorem extends_fields {two : Fields → FieldType → Value → Outcome Extent} {all : σ}
    (h : ∀ siblings t, Extends (one siblings t) (two siblings t))
    {left : List (Text × FieldType)} :
    ∀ {siblings : Fields} {noted : σ}, fields schema mode one note left siblings noted = .ok all →
      fields schema mode two note left siblings noted = .ok all := by
  induction left with
  | nil => exact id
  | cons head left ih =>
      obtain ⟨name, t⟩ := head
      intro siblings noted hall
      obtain ⟨behind, size, next, hp, hsize, hnext, hall⟩ := fields_eq_ok hall
      rw [fields_of_passes hp, h _ _ _ _ hsize, ok_bind, hnext, ok_bind]
      exact ih hall

end

/-! ### Structs -/

/-- **The size does not depend on the bound** on the nesting of structs, if there is one. -/
theorem extends_ofStruct {depth : Nat} :
    ∀ {more : Nat}, depth ≤ more → ∀ (visiting : List Text) (name : Text),
      Extends (ofStruct schema mode depth visiting name)
        (ofStruct schema mode more visiting name) := by
  induction depth with
  | zero =>
      intro more _ visiting name v e he
      obtain ⟨s, declared⟩ := declared_of_ofStruct he
      rcases ofStruct_eq_ok he with ⟨hv, hm, rfl⟩ | ⟨_, _, _, _, h₀, _⟩
      · exact ofStruct_cut declared hv hm more
      · cases h₀
  | succ depth ih =>
      intro more hle visiting name v e he
      obtain ⟨s, declared⟩ := declared_of_ofStruct he
      rcases ofStruct_eq_ok he with ⟨hv, hm, rfl⟩ | ⟨s', inner, inside, declared', hd, enters, hf⟩
      · exact ofStruct_cut declared hv hm more
      · cases hd
        obtain ⟨more, rfl⟩ := Nat.exists_eq_succ_of_ne_zero (Nat.ne_zero_of_lt hle)
        rw [ofStruct_of_enters declared' enters]
        exact extends_fields
          (fun siblings t => extends_ofType (ih (Nat.le_of_succ_le_succ hle) inside) t siblings) hf

/-- The size of a type, with whatever bound on the nesting of structs. -/
def Takes (schema : Schema) (mode : Mode) (visiting : List Text) (siblings : Fields)
    (t : FieldType) (v : Value) (e : Extent) : Prop :=
  ∃ depth, ofType schema mode (ofStruct schema mode depth visiting) siblings t v = .ok e

/-- With whatever bound, a value has one size. -/
theorem Takes.unique {visiting : List Text} {siblings : Fields} {t : FieldType} {v : Value}
    {a b : Extent} (ha : Takes schema mode visiting siblings t v a)
    (hb : Takes schema mode visiting siblings t v b) : a = b := by
  obtain ⟨m, ha⟩ := ha
  obtain ⟨n, hb⟩ := hb
  have ha' := extends_ofType (extends_ofStruct (Nat.le_max_left m n) visiting) t siblings v a ha
  have hb' := extends_ofType (extends_ofStruct (Nat.le_max_right m n) visiting) t siblings v b hb
  exact Except.ok.inj (ha'.symm.trans hb')

/-! ### Lists of sizes -/

/-- The sizes of the fields of a struct, under their names. -/
inductive Listed (schema : Schema) (mode : Mode)
    (one : Fields → FieldType → Value → Outcome Extent) :
    List (Text × FieldType) → Fields → List (Text × Extent) → Prop
  | nil {siblings} : Listed schema mode one [] siblings []
  | cons {name t rest siblings behind size sizes}
      (passes : Passes schema mode siblings name t behind)
      (first : one behind t ((Fields.get? siblings name).getD .null) = .ok size)
      (others : Listed schema mode one rest behind sizes) :
      Listed schema mode one ((name, t) :: rest) siblings ((name, size) :: sizes)

/-- The sum of sizes, infinity included. -/
def total (sizes : List (Text × Extent)) : ℕ∞ := (sizes.map (·.2.bits)).sum

namespace Listed

variable {one : Fields → FieldType → Value → Outcome Extent} {fields : List (Text × FieldType)}

/-- There is a size for every field, in their order. -/
theorem names {siblings : Fields} {sizes : List (Text × Extent)}
    (h : Listed schema mode one fields siblings sizes) :
    sizes.map (·.1) = fields.map (·.1) := by
  induction h with
  | nil => rfl
  | cons _ _ _ ih => exact congrArg (_ :: ·) ih

/-- There is one list of the sizes of fields. -/
theorem unique {siblings : Fields} {sizes : List (Text × Extent)}
    (h : Listed schema mode one fields siblings sizes) :
    ∀ {others : List (Text × Extent)}, Listed schema mode one fields siblings others →
      sizes = others := by
  induction h with
  | nil =>
      intro others h'
      cases h'
      rfl
  | cons passes first _ ih =>
      intro others h'
      cases h' with
      | cons passes' first' rest' =>
          cases passes.unique passes'
          cases first.symm.trans first'
          rw [ih rest']

end Listed

variable {one : Fields → FieldType → Value → Outcome Extent}

/-- What is added up is listed. -/
theorem listed_of_addUp {left : List (Text × FieldType)} :
    ∀ {siblings : Fields} {before e : Extent},
      fields schema mode one addUp left siblings before = .ok e →
      ∃ sizes, Listed schema mode one left siblings sizes ∧ e.bits = before.bits + total sizes := by
  induction left with
  | nil =>
      intro siblings before e h
      cases h
      exact ⟨[], .nil, (add_zero _).symm⟩
  | cons head left ih =>
      obtain ⟨name, t⟩ := head
      intro siblings before e h
      obtain ⟨behind, size, next, hp, hsize, hnext, h⟩ := fields_eq_ok h
      obtain ⟨sizes, hs, he⟩ := ih h
      refine ⟨(name, size) :: sizes, .cons hp hsize hs, ?_⟩
      rw [he, Extent.bits_of_add hnext, total, total, List.map_cons, List.sum_cons, add_assoc]

/-- What is listed stands under names that are not repeated, behind what was listed before. -/
theorem listed_of_list {left : List (Text × FieldType)} :
    ∀ {siblings : Fields} {before all : List (Text × Extent)},
      (before.map (·.1) ++ left.map (·.1)).Nodup →
      fields schema mode one list left siblings before = .ok all →
      ∃ sizes, Listed schema mode one left siblings sizes ∧ all = before ++ sizes := by
  induction left with
  | nil =>
      intro siblings before all _ h
      cases h
      exact ⟨[], .nil, (List.append_nil _).symm⟩
  | cons head left ih =>
      obtain ⟨name, t⟩ := head
      intro siblings before all hn h
      obtain ⟨behind, size, next, hp, hsize, hnext, h⟩ := fields_eq_ok h
      have hname : name ∉ before.map (·.1) := fun hm =>
        (List.nodup_append.mp hn).2.2 name hm name List.mem_cons_self rfl
      -- a name that is new is put at the end
      have hput : next = before ++ [(name, size)] :=
        (Except.ok.inj hnext).symm.trans (Fields.put_of_notMem hname)
      subst hput
      obtain ⟨sizes, hs, rfl⟩ := ih (by simpa using hn) h
      exact ⟨(name, size) :: sizes, .cons hp hsize hs, by rw [List.append_assoc]; rfl⟩

end Size

end WireSchema
