import WireSchema.Proofs.Codec.Conforming

/-!
# Codec — Whether what is written conforms

Of what is written, with gaps or without, it can be told in any schema whether it conforms
(`Conform.exists_conforms_of_writes`). The check asks for what is declared where the encoder does:
what it finds among all members of a struct, the encoder has found among those before, if they are
given (`Fields.Keeps`), and where a field is missing it goes no further than the encoder, which
fills it.
-/

namespace WireSchema

/-! ### What is written of what is given -/

/-- What is written for a field is what is given for it, if anything is. -/
def Fields.Keeps (written given : Fields) : Prop :=
  ∀ name w v, get? written name = some w → get? given name = some v → v.isNull = false → v = w

namespace Fields.Keeps

variable {schema : Schema} {gaps : Bool} {written given : Fields}

theorem nil : Keeps [] given := fun _ _ _ h => nomatch h

/-- What is put in behind a value given keeps to it. -/
theorem put (h : Keeps written given) {name : Text} {t : FieldType} {v : Value}
    (stands : Stands schema gaps written t ((get? given name).getD .null) v) :
    Keeps (Fields.put written name v) given := by
  intro other w u hw hu hn
  rcases get?_put_cases hw with ⟨rfl, rfl⟩ | ⟨-, hw⟩
  · rw [hu, Option.getD_some] at stands
    exact (stands.eq_of_ne_null hn).symm
  · exact h other w u hw hu hn

/-- A label that is looked up on both sides is the same one. -/
theorem label?_eq (h : Keeps written given) {field label label' : Text}
    (hgiven : given.label? field = some label) (hwritten : written.label? field = some label') :
    label = label' := by
  have hv := h field _ _ (exists_of_label? hwritten).1 (exists_of_label? hgiven).1 rfl
  cases hv
  rfl

theorem count?_eq (h : Keeps written given) {field : Text} {count count' : Nat}
    (hgiven : given.count? field = some count) (hwritten : written.count? field = some count') :
    count = count' := by
  obtain ⟨i, hi, rfl⟩ := exists_of_count? hgiven
  obtain ⟨j, hj, rfl⟩ := exists_of_count? hwritten
  cases h field _ _ hj hi rfl
  rfl

/-- A length that is looked up on both sides is the same one. -/
theorem resolve_eq (h : Keeps written given) {length : ArrayLength} {count count' : Nat}
    (hgiven : length.resolve given = .ok count) (hwritten : length.resolve written = .ok count') :
    count = count' := by
  cases length with
  | static =>
      cases hgiven
      cases hwritten
      rfl
  | dynamic field =>
      rw [ArrayLength.resolve_dynamic_eq_ok_iff] at hgiven hwritten
      exact h.count?_eq hgiven hwritten

end Fields.Keeps

namespace Conform

variable {schema : Schema} {gaps : Bool}

/-! ### The check has an answer -/

/-- What is given for a value that is written: the value, or nothing. -/
def InPlace (given v : Value) : Prop := v = given ∨ given = .null

/-- What is written stands in the place of what is given. -/
theorem InPlace.of_stands {siblings : Fields} {t : FieldType} {given v : Value}
    (h : Stands schema gaps siblings t given v) : InPlace given v := by
  rcases h.given_or_filled with ⟨hv, -⟩ | ⟨-, hn, -⟩
  · exact .inl hv
  · exact .inr (Value.eq_null_of_isNull hn)

mutual

/-- It can be told whether what is given has the shape of a type, if something is written for it. -/
theorem told_of_writes {written : Fields} {t : FieldType} {v : Value} {bs : Bits} :
    Writes schema gaps written t v bs →
    ∀ {siblings : Fields} {depth : Nat} {given : Value}, written.Keeps siblings →
      InPlace given v → given.depth ≤ depth →
      ∃ b, ofType schema (ofStruct schema depth) siblings t given = .ok b
  | .int, _, _, given, _, _, _ => by cases given <;> exact ⟨_, rfl⟩
  | .single _, _, _, given, _, _, _ => by cases given <;> exact ⟨_, rfl⟩
  | .double _, _, _, given, _, _, _ => by cases given <;> exact ⟨_, rfl⟩
  | .text, _, _, given, _, _, _ => by cases given <;> exact ⟨_, rfl⟩
  | .enum declared _, _, _, given, _, _, _ => by
      cases given <;> simp only [ofType, declared] <;> exact ⟨_, rfl⟩
  | .struct declared _ _, _, _, _, _, .inr rfl, _ => by
      rw [ofType, ofStruct.eq_def]
      simp only [declared]
      exact ⟨_, rfl⟩
  | .struct declared _ fields, _, _, _, _, .inl rfl, hd => by
      obtain ⟨_, rfl⟩ := Nat.exists_eq_succ_of_ne_zero (Nat.ne_zero_of_lt hd)
      rw [ofType, ofStruct, declared]
      dsimp only
      split
      · refine exists_allPass (told_of_writesFields fields .nil fun name => ?_)
        exact Nat.le_of_lt_succ (Nat.lt_of_lt_of_le (Value.depth_member_lt _ name) hd)
      · exact ⟨_, rfl⟩
  | .array .., _, _, _, _, .inr rfl, _ => ⟨_, rfl⟩
  | .array counted _ elements, _, _, _, keeps, .inl rfl, hd => by
      rw [ofType]
      split
      · next count hc =>
          split
          · next hl =>
              refine exists_allPass (told_of_writesElements elements
                (hl.trans (keeps.resolve_eq hc counted)) keeps fun w hm => ?_)
              exact Nat.le_trans (Nat.le_of_lt (Value.depth_lt_list hm)) hd
          · exact ⟨_, rfl⟩
      · exact ⟨_, rfl⟩
  | .union chosen case value, _, _, _, keeps, place, hd => by
      rw [ofType]
      split
      · exact ⟨_, rfl⟩
      · next label hl =>
          -- the case that the check looks at is the one that is written
          cases keeps.label?_eq hl chosen
          rw [ofCase_eq, case]
          exact told_of_writes value keeps place hd

/-- So it can of every item. -/
theorem told_of_writesElements {written : Fields} {t : FieldType} {count : Nat}
    {items : List Value} {bs : Bits} : WritesElements schema gaps written t count items bs →
    items.length = count →
    ∀ {siblings : Fields} {depth : Nat}, written.Keeps siblings → (∀ v ∈ items, v.depth ≤ depth) →
      ∀ v ∈ items, ∃ b, ofType schema (ofStruct schema depth) siblings t v = .ok b
  | .nil, hl, _, _, _, _ => by
      rw [List.length_eq_zero_iff.mp hl]
      exact fun _ hm => nomatch hm
  | .cons stands first rest, hl, _, _, keeps, hd => by
      have hlen := List.length_tail.trans (congrArg (· - 1) hl)
      rw [← Encode.cons_headD_tail hl]
      refine List.forall_mem_cons.mpr ⟨told_of_writes first keeps (.of_stands stands) ?_,
        told_of_writesElements rest hlen keeps fun v hm => hd v (List.mem_of_mem_tail hm)⟩
      exact hd _ (Encode.headD_mem hl)

/-- So it can of every field, beside the fields that are given. -/
theorem told_of_writesFields {members : Fields} {fields : List (Text × FieldType)}
    {written : Fields} {bs : Bits} : WritesFields schema gaps members fields written bs →
    ∀ {depth : Nat}, written.Keeps members →
      (∀ name, ((Value.map members).member name).depth ≤ depth) →
      ∀ f ∈ fields, ∃ b, ofType schema (ofStruct schema depth) members f.2
        ((Value.map members).member f.1) = .ok b
  | .nil, _, _, _ => fun _ hm => nomatch hm
  | .cons stands first rest, _, keeps, hd =>
      List.forall_mem_cons.mpr ⟨told_of_writes first keeps (.of_stands stands) (hd _),
        told_of_writesFields rest (keeps.put stands) hd⟩

end

/-- **Whether what is written conforms can be told.** -/
theorem exists_conforms_of_writes {root : Text} {v : Value} {bs : Bits}
    (h : Writes schema gaps [] (.struct root) v bs) :
    ∃ b, schema.conforms (.struct root) v = .ok b :=
  told_of_writes h .nil (.inl rfl) (Nat.le_refl _)

end Conform

end WireSchema
