import WireSchema.Proofs.Codec.Bounds
import WireSchema.Proofs.Codec.Canonical
import WireSchema.Proofs.Consistency.Acyclic

/-!
# Codec — Parts of conforming values are measured

In a consistent schema the size of every part of a conforming value is measured, in `min` and in
`max` mode, unless the reckoning overflows (`Size.measured_ofStruct`). No label is without a case:
it is one of the conforming value, and where that one does not go, the union is complete. No nesting
is too deep: a struct that is gone into is either given, and the value goes down, or joins those
that are visited, which are declared and do not repeat.
-/

namespace WireSchema

namespace Size

variable {schema : Schema} {mode : Mode}

/-- Nothing, or a part of a value that conforms. -/
def Part (conforms : Value → Outcome Bool) (p : Value) : Prop :=
  p = .null ∨ ∃ v, conforms v = .ok true ∧ p.PartOf v

/-! ### Elements and cases -/

/-- A sum over items is measured if each item is. -/
theorem measured_sumOf {one : Value → Outcome Extent} {items : List Value}
    (h : ∀ v ∈ items, Measured (one v)) : ∀ {total : Extent}, Measured (sumOf one items total) := by
  induction items with
  | nil => exact .ok
  | cons v items ih =>
      refine (h v List.mem_cons_self).bind fun _ _ => Measured.add.bind fun _ _ => ?_
      exact ih fun w hm => h w (List.mem_cons_of_mem v hm)

/-- The elements of an array are measured: the items given, and null in place of those that are
missing. -/
theorem measured_elements {one : Value → Outcome Extent} {count : Nat} {items : List Value}
    (hnull : Measured (one .null)) (h : ∀ v ∈ items, Measured (one v)) :
    Measured (elements one count items) := by
  rw [elements]
  split
  · exact hnull.bind fun _ _ => .times
  · refine (measured_sumOf fun v hm => h v (List.mem_of_mem_take hm)).bind fun _ _ => ?_
    split
    · exact hnull.bind fun _ _ => .addTimes
    · exact .ok

theorem measured_ofCases {struct : Text → Value → Outcome Extent} {siblings : Fields}
    {combine : Extent → Extent → Extent} {cases : List (Text × FieldType)}
    (h : ∀ label t, (label, t) ∈ cases → Measured (ofType schema mode struct siblings t .null)) :
    ∀ {before? : Option Extent},
      Measured (ofCases schema mode struct siblings combine before? cases) := by
  induction cases with
  | nil => exact .ok
  | cons head cases ih =>
      obtain ⟨label, t⟩ := head
      intro before?
      have hrest := @ih fun label t hm => h label t (List.mem_cons_of_mem _ hm)
      rw [ofCases]
      rcases h label t List.mem_cons_self with ⟨e, he⟩ | he
      · rw [he]
        exact hrest
      · rw [he]
        exact Or.inr rfl

/-- The items of a part of a list that conforms are parts of what its items have to be. -/
theorem part_of_mem_items {conform : Text → Value → Outcome Bool} {others : Fields}
    {element : FieldType} {length : ArrayLength} {p x : Value}
    (h : Part (Conform.ofType schema conform others (.array element length)) p)
    (hx : x ∈ p.items) : Part (Conform.ofType schema conform others element) x := by
  rcases h with rfl | ⟨v, hv, hpart⟩
  · cases hx
  · cases hpart with
    | null => cases hx
    | @list xs ys hlength hitems =>
        rw [Conform.ofType] at hv
        split at hv
        · next count hc =>
            split at hv
            · obtain ⟨i, hi⟩ : ∃ i, xs[i]? = some x := List.mem_iff_getElem?.mp hx
              -- the whole has an item in the same place
              have hlt : i < ys.length :=
                Nat.lt_of_lt_of_le (List.getElem?_eq_some_iff.mp hi).1 hlength
              have hy : (ys.getD i .null) ∈ ys := by
                rw [List.getD_eq_getElem?_getD, List.getElem?_eq_getElem hlt]
                exact List.getElem_mem hlt
              have hp := hitems i
              rw [List.getD_eq_getElem?_getD, hi] at hp
              exact Or.inr ⟨_, Conform.allPass_eq_true_iff.mp hv _ hy, hp⟩
            · cases hv
        · cases hv
    | _ => cases hx

/-! ### Types -/

/-- Every label among the siblings is one of its enum. -/
def Known (schema : Schema) (earlier : Consistency.Earlier) (siblings : Fields) : Prop :=
  ∀ {field enumName signed width default? e label},
    Fields.get? earlier field = some (.enum enumName signed width default?) →
    schema.enum? enumName = some e → siblings.label? field = some label → label ∈ e.labels

/-- In the bounding modes every part of a value that conforms is measured, among siblings that
conform as well. The induction is on the type. -/
theorem measured_ofType (hmode : mode ≠ .default) {struct : Text → Value → Outcome Extent}
    {conform : Text → Value → Outcome Bool} {bound : Nat}
    (hstruct : ∀ name s p, schema.struct? name = some s → Part (conform name) p → p.depth ≤ bound →
      Measured (struct name p)) (t : FieldType) :
    ∀ {earlier : Consistency.Earlier} {siblings others : Fields} {p : Value},
      schema.Sound earlier t → Fields.PartOf siblings others → Known schema earlier siblings →
      Part (Conform.ofType schema conform others t) p → p.depth ≤ bound →
      Measured (ofType schema mode struct siblings t p) := by
  induction t with
  | int | float => exact fun _ _ _ _ _ => .ok
  | text charset default? =>
      intro earlier siblings others p _ _ _ _ _
      simp only [ofType]
      split
      · exact .ok
      · exact .ok
      · exact .ok
      · exact .ok
  | enum name signed width default? =>
      intro earlier siblings others p sound _ _ _ _
      cases sound with
      | enum declared =>
          simp only [ofType, declared]
          exact .ok
  | struct name =>
      intro earlier siblings others p sound _ _ hpart hd
      cases sound with
      | struct declared => exact hstruct name _ p declared hpart hd
  | array element length ih =>
      intro earlier siblings others p sound hsib known hpart hd
      cases sound with
      | array _ inner =>
          cases hres : length.resolve siblings with
          | error field =>
              -- without a length the array is measured by its mode
              obtain ⟨e, he, -⟩ := ofType_unknown_array hmode hres
              rw [he]
              exact .ok
          | ok count =>
              cases count with
              | zero =>
                  simp only [ofType, hres]
                  exact .ok
              | succ count =>
                  rw [ofType_array_succ hres]
                  refine measured_elements (ih inner hsib known (Or.inl rfl) (Nat.zero_le bound))
                    fun x hx => ih inner hsib known (part_of_mem_items hpart hx) ?_
                  exact (Value.depth_le_of_items hx).trans hd
  | union discriminant enumName cases ih =>
      intro earlier siblings others p sound hsib known hpart hd
      cases sound with
      | union declared discriminated complete inner =>
          cases hl : siblings.label? discriminant with
          | none =>
              -- without a label every case is measured, as if nothing were given
              obtain ⟨combine, -, hcases⟩ := ofType_union_none hmode hl
              rw [hcases]
              exact measured_ofCases fun label t hm =>
                ih label t hm (inner label t hm) hsib known (Or.inl rfl) (Nat.zero_le bound)
          | some label =>
              -- a label of the enum has a case, as the schema is consistent
              obtain ⟨signed, width, default?, hg⟩ := Consistency.get?_of_isEnum discriminated
              obtain ⟨t, ht⟩ := Option.isSome_iff_exists.mp (complete label (known hg declared hl))
              have hm := Fields.mem_of_get? ht
              simp only [ofType, hl, ofCase_eq, ht]
              refine ih label t hm (inner label t hm) hsib known ?_ hd
              rcases hpart with rfl | ⟨v, hv, hp⟩
              · exact Or.inl rfl
              · simp only [Conform.ofType, hsib.label?_eq hl, Conform.ofCase_eq, ht] at hv
                exact Or.inr ⟨v, hv, hp⟩

/-! ### Structs -/

theorem Known.nil {siblings : Fields} : Known schema [] siblings := by
  intro field enumName signed width default? e label hg
  cases hg

/-- A field joins the earlier ones: if it is an enum, what is given of it is a label of the enum. -/
theorem Known.put {earlier : Consistency.Earlier} {siblings others : Fields}
    {conform : Text → Value → Outcome Bool} {name : Text} {t : FieldType}
    (h : Known schema earlier siblings)
    (hpart : Part (Conform.ofType schema conform others t)
      ((Fields.get? siblings name).getD .null)) :
    Known schema (Fields.put earlier name t) siblings := by
  intro field enumName signed width default? e label hg he hl
  rcases Fields.get?_put_cases hg with ⟨rfl, rfl⟩ | ⟨-, hg⟩
  · rw [Fields.label?] at hl
    split at hl
    · next s hs =>
        split at hl
        · cases hl
        · cases hl
          rw [hs, Option.getD_some] at hpart
          rcases hpart with hnull | ⟨v, hv, hp⟩
          · cases hnull
          · cases hp
            simp only [Conform.ofType, he, Except.ok.injEq] at hv
            exact EnumDef.isSome_codeOf?_iff.mp hv
    · cases hl
  · exact h hg he hl

/-- The fields of a struct are measured one after the other, each among the types declared before
it. -/
theorem measured_fields (hmode : mode ≠ .default) {struct : Text → Value → Outcome Extent}
    {conform : Text → Value → Outcome Bool} {bound : Nat}
    (hstruct : ∀ name s p, schema.struct? name = some s → Part (conform name) p → p.depth ≤ bound →
      Measured (struct name p)) {siblings others : Fields} (hsib : Fields.PartOf siblings others)
    (hd : ∀ name, ((Fields.get? siblings name).getD .null).depth ≤ bound)
    {fields : List (Text × FieldType)}
    (hpart : ∀ name t, (name, t) ∈ fields →
      Part (Conform.ofType schema conform others t) ((Fields.get? siblings name).getD .null)) :
    ∀ {earlier : Consistency.Earlier} {total : Extent}, schema.SoundFields fields earlier →
      Known schema earlier siblings →
      Measured
        (Size.fields schema mode (ofType schema mode struct) addUp fields siblings total) := by
  induction fields with
  | nil => exact fun _ _ => .ok
  | cons head fields ih =>
      obtain ⟨name, t⟩ := head
      intro earlier total sound known
      obtain ⟨-, hsound, hrest⟩ := sound
      have hthis := hpart name t List.mem_cons_self
      rw [fields_cons hmode]
      refine (measured_ofType hmode hstruct t hsound hsib known hthis (hd name)).bind fun _ _ => ?_
      refine Measured.add.bind fun _ _ => ?_
      exact ih (fun name t hm => hpart name t (List.mem_cons_of_mem _ hm)) hrest (known.put hthis)

/-- **Parts of conforming values are measured**, with whatever structs around them of which nothing
is known, if the bound on the nesting allows for the value and for the structs that are left. -/
theorem measured_ofStruct (hc : schema.Consistent) (hmode : mode ≠ .default) {depth : Nat} :
    ∀ {depth' : Nat} {visiting : List Text} {name : Text} {s : StructDef} {p : Value},
      visiting.Nodup → (∀ other ∈ visiting, other ∈ schema.structNames) →
      schema.struct? name = some s → Part (Conform.ofStruct schema depth' name) p →
      p.depth + (schema.structs.length - visiting.length) < depth →
      Measured (ofStruct schema mode depth visiting name p) := by
  induction depth with
  | zero => exact fun _ _ _ _ hd => absurd hd (Nat.not_lt_zero _)
  | succ depth ih =>
      intro depth' visiting name s p hnodup hdeclared hs hpart hd
      -- without a value the struct joins those that are visited, and one fewer is left
      have hnull : Measured (ofStruct schema mode (depth + 1) visiting name .null) := by
        by_cases hm : name ∈ visiting
        · simp only [ofStruct, hs, if_pos hm]
          exact .ok
        · have hinside : (name :: visiting).Nodup := List.nodup_cons.mpr ⟨hm, hnodup⟩
          have hall : ∀ other ∈ name :: visiting, other ∈ schema.structNames :=
            List.forall_mem_cons.mpr ⟨Schema.mem_structNames hs, hdeclared⟩
          have hroom : visiting.length + 1 ≤ schema.structs.length :=
            Schema.length_le_of_nodup hinside hall
          have hstruct : ∀ other s q, schema.struct? other = some s →
              Part (Conform.ofStruct schema 0 other) q → q.depth ≤ 0 →
              Measured (ofStruct schema mode depth (name :: visiting) other q) := by
            intro other s q hs hq hle
            refine ih hinside hall hs hq ?_
            rw [List.length_cons]
            omega
          have hempty : Fields.PartOf [] [] := fun _ => .null
          simp only [ofStruct, hs, if_neg hm]
          exact measured_fields hmode hstruct hempty (fun _ => le_rfl) (fun _ _ _ => Or.inl rfl)
            (hc.fields_sound hs) Known.nil
      rcases hpart with rfl | ⟨v, hv, hp⟩
      · exact hnull
      · obtain ⟨s', members, inner, hs', rfl, -, -, hall⟩ := Conform.ofStruct_eq_true hv
        cases hs.symm.trans hs'
        cases hp with
        | null => exact hnull
        | @map given _ hmembers =>
            -- with a value the bound goes down with its depth
            rw [Value.depth] at hd
            have hstruct : ∀ other s q, schema.struct? other = some s →
                Part (Conform.ofStruct schema inner other) q →
                  q.depth ≤ Value.depthOfMembers given →
                    Measured (ofStruct schema mode depth visiting other q) := by
              intro other s q hs hq hle
              refine ih hnodup hdeclared hs hq ?_
              omega
            have hdepth : ∀ field, ((Fields.get? given field).getD .null).depth ≤
                Value.depthOfMembers given := by
              intro field
              cases hg : Fields.get? given field with
              | none => exact Nat.zero_le _
              | some w => exact Value.depth_le_of_mem_members (Fields.mem_of_get? hg)
            simp only [ofStruct, hs]
            exact measured_fields hmode hstruct hmembers hdepth
              (fun field t hm => Or.inr ⟨_, hall field t hm, hmembers field⟩) (hc.fields_sound hs)
              Known.nil

end Size

end WireSchema
