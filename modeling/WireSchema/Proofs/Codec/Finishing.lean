import WireSchema.Proofs.Codec.WriteWalk

/-!
# Codec — Encodings that come to their end

Where an encoding comes to its end, so it does from every position on its way
(`Encode.Task.Finishes`). So of two encoders that differ only in how strict they are about lengths,
the one can stop where the other comes to its end only at an array of another length than the
resolved one (`Encode.uneven_of_ends`); and the strict one does not come to its end if there is such
an array on its way (`Encode.not_finishes_of_uneven`).

Where no struct names a field twice, the array is one that is given, at the place that its path says
(`Encode.Uneven.at?_eq`): an array that is filled in has the resolved length.
-/

namespace WireSchema

namespace Encode

variable {schema : Schema} {strict : Bool}

/-- From a position on, the encoder comes to its end with room for so many structs inside one
another. -/
def Task.Finishes (schema : Schema) (strict : Bool) (room : Nat) : Task → Prop
  | value _ written t path v =>
      ∃ script, ofType schema strict (ofStruct schema strict room) written t path v = .done script
  | elements _ written t path i count items =>
      ∃ before script,
        Encode.elements (ofType schema strict (ofStruct schema strict room) written t)
          (fun _ => schema.defaultValue t written) path count i items before = .done script
  | fields members left path _ written =>
      ∃ script, Encode.fields schema (ofType schema strict (ofStruct schema strict room)) members
        path left written = .done script

/-! ### An encoding finishes from every position -/

/-- Of elements, what stands for the first is written, and then the others. -/
theorem elements_eq_done {one : Path → Value → Encoding} {written : Fields} {t : FieldType}
    {path : Path} {count i : Nat} {items : List Value} {before : List Script} {script : Script}
    {v : Value} (stands : Stands schema true written t (items.headD .null) v)
    (h : elements one (fun _ => schema.defaultValue t written) path (count + 1) i items before =
      .done script) :
    ∃ first, one (path.element i) v = .done first ∧
      elements one (fun _ => schema.defaultValue t written) path count (i + 1) items.tail
        (first :: before) = .done script := by
  rw [elements] at h
  simp only [filled_of_stands stands] at h
  split at h
  · cases h
  · next first hfirst => exact ⟨first, hfirst, h⟩

theorem fields_eq_done {one : Fields → FieldType → Path → Value → Encoding} {members : Fields}
    {name : Text} {t : FieldType} {left : List (Text × FieldType)} {path : Path}
    {written : Fields} {script : Script} {v : Value}
    (stands : Stands schema true written t ((Fields.get? members name).getD .null) v)
    (h : Encode.fields schema one members path ((name, t) :: left) written = .done script) :
    ∃ first next, one written t (path.child name) v = .done first ∧
      Encode.fields schema one members path left (Fields.put written name v) = .done next := by
  rw [Encode.fields] at h
  simp only [filled_of_stands stands] at h
  split at h
  · cases h
  · next first hfirst =>
      obtain ⟨next, hnext, -⟩ := Encoding.after_eq_done h
      exact ⟨first, next, hfirst, hnext⟩

theorem Leads.finishes {room : Nat} {a b : Task} (h : Leads schema a b)
    (finishes : a.Finishes schema strict room) : b.Finishes schema strict room := by
  cases h with
  | array counted =>
      obtain ⟨script, h⟩ := finishes
      rw [ofType, counted] at h
      dsimp only at h
      split at h
      · cases h
      · obtain ⟨next, hnext, -⟩ := Encoding.after_eq_done h
        exact ⟨[], next, hnext⟩
  | case chosen case =>
      obtain ⟨script, h⟩ := finishes
      rw [ofType, chosen] at h
      dsimp only at h
      rw [ofCase_eq, case] at h
      exact ⟨script, h⟩
  | element stands =>
      obtain ⟨before, script, h⟩ := finishes
      obtain ⟨first, hfirst, -⟩ := elements_eq_done stands h
      exact ⟨first, hfirst⟩
  | nextElement stands =>
      obtain ⟨before, script, h⟩ := finishes
      obtain ⟨first, -, hnext⟩ := elements_eq_done stands h
      exact ⟨first :: before, script, hnext⟩
  | field stands =>
      obtain ⟨script, h⟩ := finishes
      obtain ⟨first, _, hfirst, -⟩ := fields_eq_done stands h
      exact ⟨first, hfirst⟩
  | nextField stands =>
      obtain ⟨script, h⟩ := finishes
      obtain ⟨_, next, -, hnext⟩ := fields_eq_done stands h
      exact ⟨next, hnext⟩

theorem Opens.finishes {room : Nat} {a b : Task} (h : Opens schema a b)
    (finishes : a.Finishes schema strict room) :
    ∃ less, room = less + 1 ∧ b.Finishes schema strict less := by
  cases h with
  | struct declared =>
      obtain ⟨script, h⟩ := finishes
      rw [ofType, ofStruct.eq_def] at h
      simp only [declared] at h
      cases room with
      | zero => cases h
      | succ less => exact ⟨less, rfl, script, h⟩

theorem Reaches.finishes {room n : Nat} {a b : Task} (walk : Reaches schema n a b)
    (finishes : a.Finishes schema strict room) : ∃ less, b.Finishes schema strict less := by
  obtain ⟨less, -, h⟩ :=
    walk.keeps_room (R := Task.Finishes schema strict) Leads.finishes Opens.finishes finishes
  exact ⟨less, h⟩

/-! ### Arrays of another length -/

/-- On the way from a position the encoder comes to an array that has another length than the
resolved one. -/
def Uneven (schema : Schema) (a : Task) (path : Path) (expected got : Nat) : Prop :=
  ∃ n earlier written element length items,
    Reaches schema n a (.value earlier written (.array element length) path (.list items)) ∧
      length.resolve written = .ok expected ∧ items.length = got ∧ got ≠ expected

/-- Strict about lengths, an encoding does not come to its end over such an array. -/
theorem not_finishes_of_uneven {room : Nat} {a : Task} {path : Path} {expected got : Nat}
    (h : Uneven schema a path expected got) : ¬ a.Finishes schema true room := by
  obtain ⟨n, earlier, written, element, length, items, walk, counted, rfl, hne⟩ := h
  intro finishes
  obtain ⟨less, script, hdone⟩ := Reaches.finishes walk finishes
  rw [ofType, counted] at hdone
  dsimp only at hdone
  rw [Bool.true_and, if_pos (bne_iff_ne.mpr hne)] at hdone
  cases hdone

/-- What is written can only be refused for its length. -/
theorem Refused.uneven_of_writes {written : Fields} {t : FieldType} {v : Value} {bs : Bits}
    {cause : Fault} (h : Refused schema strict written t v cause)
    (hw : Writes schema true written t v bs) :
    ∃ element length count items, t = .array element length ∧ v = .list items ∧ strict = true ∧
      length.resolve written = .ok count ∧ items.length ≠ count ∧
      cause = .lengthMismatch count items.length := by
  -- what is written has passed every other test
  cases h with
  | misfit h =>
      cases h with
      | int h => cases hw; exact absurd rfl (h _)
      | float h =>
          cases hw with
          | single number | double number => cases h.symm.trans number
      | text h => cases hw; exact absurd rfl (h _)
      | label declared h =>
          cases hw with
          | enum declared' known =>
              cases declared.symm.trans declared'
              have hm := EnumDef.isSome_codeOf?_iff.mp (Option.isSome_of_eq_some known)
              exact absurd rfl (h _ hm)
      | map _ h => cases hw; exact absurd rfl (h _)
      | list h => cases hw; exact absurd rfl (h _)
  | unknownStruct h =>
      cases hw with
      | struct declared => cases declared.symm.trans h
  | unknownEnum h =>
      cases hw with
      | enum declared => cases declared.symm.trans h
  | unwrittenLength h =>
      cases hw with
      | array counted => cases counted.symm.trans h
  | lengthMismatch hs counted h => exact ⟨_, _, _, _, rfl, rfl, hs, counted, h, rfl⟩
  | unwrittenDiscriminant h =>
      cases hw with
      | union chosen => cases chosen.symm.trans h
  | noCase chosen h =>
      cases hw with
      | union chosen' case =>
          cases chosen.symm.trans chosen'
          cases case.symm.trans h

/-- Where an encoding that is not strict comes to its end, another one stops only for an array of
another length, and only if it is strict. -/
theorem uneven_of_ends {room : Nat} {a : Task} {failure : Failure}
    (finishes : a.Finishes schema false room) (h : Ends schema strict room a failure) :
    strict = true ∧ ∃ path expected got, Uneven schema a path expected got ∧
      failure = .fault (.lengthMismatch expected got) (some path) := by
  obtain ⟨n, b, walk, fails⟩ := h.exists_fails (R := Task.Finishes schema false) Leads.finishes
    Opens.finishes finishes
  obtain ⟨less, hb⟩ := Reaches.finishes walk finishes
  cases fails with
  | value refused =>
      obtain ⟨script, hdone⟩ := hb
      obtain ⟨bs, hw, -⟩ := sound_ofType (sound_ofStruct _) _ _ _ _ hdone
      obtain ⟨_, _, count, items, rfl, rfl, hs, counted, hne, rfl⟩ := refused.uneven_of_writes hw
      exact ⟨hs, _, count, items.length, ⟨n, _, _, _, _, items, walk, counted, rfl, hne⟩, rfl⟩
  | element missing hd =>
      obtain ⟨before, script, hdone⟩ := hb
      rw [elements] at hdone
      simp only [if_pos missing, hd] at hdone
      cases hdone
  | field missing hd =>
      obtain ⟨script, hdone⟩ := hb
      rw [Encode.fields] at hdone
      simp only [if_pos missing, hd] at hdone
      cases hdone

/-- Where no struct names a field twice, an array of another length is in what is given. -/
theorem Uneven.at?_eq (hnames : ∀ s ∈ schema.structs, s.fieldNames.Nodup) {root : Text}
    {v : Value} {path : Path} {expected got : Nat}
    (h : Uneven schema (.start root v) path expected got) :
    ∃ items, v.at? path.steps = some (.list items) ∧ items.length = got := by
  obtain ⟨n, _, _, _, _, items, walk, counted, hlength, hne⟩ := h
  obtain ⟨_, -, hroom⟩ := Reaches.room hnames walk
  rcases hroom with ⟨hat, -⟩ | ⟨depth, building, -, built⟩
  · exact ⟨items, hat, hlength⟩
  · -- a default has as many elements as its length says
    cases expected with
    | zero =>
        simp only [Default.ofType, counted] at built
        cases built
        exact absurd hlength.symm hne
    | succ count =>
        simp only [Default.ofType, counted] at built
        split at built
        · cases built
          exact absurd (hlength.symm.trans List.length_replicate) hne
        · cases built

end Encode

end WireSchema
