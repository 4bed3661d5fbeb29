import Mathlib.Data.ENat.Basic
import WireSchema.Codec.Size
import WireSchema.Proofs.Fields

/-!
# Codec — Sizes as extended naturals

Extents are the natural numbers with infinity (`Extent.bits`), and reckoning with them is arithmetic
there, as far as it has an outcome. What can go wrong is that a number meets an infinity and is
beyond the range of doubles; `Size.Measured` says of an outcome that nothing else has gone wrong.

The equations and inversions of `Size` that every statement about bounds goes by are here too.
-/

namespace WireSchema

namespace Extent

/-- The number of bits, infinity included. -/
def bits : Extent → ℕ∞
  | finite n => n
  | infinite => ⊤

instance : LE Extent := ⟨fun a b => a.bits ≤ b.bits⟩

variable {a b c : Extent}

/-- Only infinity is without bound. -/
theorem bits_eq_top_iff (a : Extent) : a.bits = ⊤ ↔ a = infinite := by
  cases a with
  | finite n => exact iff_of_false (ENat.natCast_ne_top n) (nomatch ·)
  | infinite => exact iff_of_true rfl rfl

/-- What is reckoned beside a number comes out as it is, or not at all. -/
theorem eq_of_beside {n : Nat} (h : beside n a = .ok b) : b = a := by
  rw [beside] at h
  split at h
  · exact (Except.ok.inj h).symm
  · cases h

theorem bytes_finite (n : Nat) :
    (finite n).bytes =
      if n < doubleLimit then .ok (finite ((n + 7) / 8)) else .error .overflow := by
  rw [bytes, beside]

/-- Sizes are added up to the bit, infinity above all. -/
theorem bits_of_add (h : a.add b = .ok c) : c.bits = a.bits + b.bits := by
  cases a with
  | finite m =>
      cases b with
      | finite n =>
          cases h
          exact Nat.cast_add m n
      | infinite =>
          rw [eq_of_beside h]
          exact (add_top _).symm
  | infinite =>
      cases b with
      | finite n =>
          rw [eq_of_beside h]
          exact (top_add _).symm
      | infinite =>
          cases h
          exact (top_add _).symm

/-- So many times a size has so many times its bits. -/
theorem bits_of_times {count : Nat} (hpos : 0 < count) (h : a.times count = .ok b) :
    b.bits = count * a.bits := by
  cases a with
  | finite m =>
      cases h
      exact Nat.cast_mul count m
  | infinite =>
      rw [eq_of_beside h]
      exact (ENat.mul_top (Nat.cast_ne_zero.mpr hpos.ne')).symm

theorem bits_of_addTimes {count : Nat} (hpos : 0 < count) (h : a.addTimes count b = .ok c) :
    c.bits = a.bits + count * b.bits := by
  cases b with
  | finite n =>
      cases a with
      | finite m =>
          cases h
          exact (Nat.cast_add m _).trans (congrArg _ (Nat.cast_mul count n))
      | infinite =>
          rw [bits_of_add (a := infinite) (b := finite n) h]
          exact (top_add _).trans (top_add _).symm
  | infinite =>
      have h : a.add infinite = .ok c := by
        cases a with
        | finite m => exact h
        | infinite => exact h
      have ht : (count : ℕ∞) * infinite.bits = ⊤ := ENat.mul_top (Nat.cast_ne_zero.mpr hpos.ne')
      rw [bits_of_add h, ht]
      rfl

/-- The greater of two sizes is one of them, and neither is greater. -/
theorem max_cases (a b : Extent) :
    (max a b = a ∨ max a b = b) ∧ a.bits ≤ (max a b).bits ∧ b.bits ≤ (max a b).bits := by
  cases a with
  | finite m =>
      cases b with
      | finite n =>
          refine ⟨?_, Nat.cast_le.mpr (Nat.le_max_left m n), Nat.cast_le.mpr (Nat.le_max_right m n)⟩
          exact (Nat.le_total n m).imp (fun h => congrArg finite (Nat.max_eq_left h))
            fun h => congrArg finite (Nat.max_eq_right h)
      | infinite => exact ⟨Or.inr rfl, le_top, le_rfl⟩
  | infinite => exact ⟨Or.inl rfl, le_rfl, le_top⟩

/-- The lesser of two sizes is one of them, and neither is less. -/
theorem min_cases (a b : Extent) :
    (min a b = a ∨ min a b = b) ∧ (min a b).bits ≤ a.bits ∧ (min a b).bits ≤ b.bits := by
  cases a with
  | finite m =>
      cases b with
      | finite n =>
          refine ⟨?_, Nat.cast_le.mpr (Nat.min_le_left m n), Nat.cast_le.mpr (Nat.min_le_right m n)⟩
          exact (Nat.le_total m n).imp (fun h => congrArg finite (Nat.min_eq_left h))
            fun h => congrArg finite (Nat.min_eq_right h)
      | infinite => exact ⟨Or.inl rfl, le_rfl, le_top⟩
  | infinite => exact ⟨Or.inr rfl, le_top, le_rfl⟩

end Extent

namespace Size

/-! ### What can go wrong -/

/-- A size, unless the reckoning has overflown. -/
def Measured (o : Outcome Extent) : Prop := (∃ e, o = .ok e) ∨ o = .error .overflow

namespace Measured

theorem ok {e : Extent} : Measured (.ok e) := Or.inl ⟨e, rfl⟩

/-- Two calculations on end can fail only as each of them can. -/
theorem bind {o : Outcome Extent} {f : Extent → Outcome Extent} (ho : Measured o)
    (hf : ∀ e, o = .ok e → Measured (f e)) : Measured (o >>= f) := by
  rcases ho with ⟨e, rfl⟩ | rfl
  · exact hf e rfl
  · exact Or.inr rfl

theorem beside {n : Nat} {e : Extent} : Measured (Extent.beside n e) := by
  rw [Extent.beside]
  split
  · exact ok
  · exact Or.inr rfl

theorem add {a b : Extent} : Measured (a.add b) := by
  cases a <;> cases b
  · exact ok
  · exact beside
  · exact beside
  · exact ok

theorem times {count : Nat} {e : Extent} : Measured (e.times count) := by
  cases e
  · exact ok
  · exact beside

theorem addTimes {count : Nat} {total e : Extent} : Measured (total.addTimes count e) := by
  cases total with
  | finite m =>
      cases e with
      | finite n => exact ok
      | infinite => exact add (a := .finite m) (b := .infinite)
  | infinite => exact add (a := .infinite) (b := e)

end Measured

theorem ok_bind {α β : Type} (a : α) (f : α → Outcome β) : ((.ok a : Outcome α) >>= f) = f a := rfl

/-- What is reckoned from an outcome has one only if the first has. -/
theorem eq_ok_of_bind {α β : Type} {o : Outcome α} {f : α → Outcome β} {b : β}
    (h : (o >>= f) = .ok b) : ∃ a, o = .ok a ∧ f a = .ok b := by
  cases o with
  | error e => cases h
  | ok a => exact ⟨a, rfl, h⟩

variable {schema : Schema} {mode : Mode}

/-! ### Cases and fields -/

/-- A case is measured as the type that its label has. -/
theorem ofCase_eq (mode : Mode) (struct : Text → Value → Outcome Extent) (siblings : Fields)
    (absent : Outcome Extent) (label : Text) (cases : List (Text × FieldType)) (v : Value) :
    ofCase schema mode struct siblings absent label cases v =
      ((Fields.get? cases label).map fun t => ofType schema mode struct siblings t v).getD absent :=
  Fields.first_eq (f := fun cases => ofCase schema mode struct siblings absent label cases v) rfl
    (fun _ _ _ => rfl) cases

/-- A case was measured, so there is one for the label. -/
theorem ofCase_eq_ok {struct : Text → Value → Outcome Extent} {siblings : Fields}
    {label : Text} {cause : Fault} {cases : List (Text × FieldType)} {v : Value} {e : Extent}
    (h : ofCase schema mode struct siblings (.fail cause) label cases v = .ok e) :
    ∃ t, Fields.get? cases label = some t ∧ ofType schema mode struct siblings t v = .ok e := by
  rw [ofCase_eq] at h
  cases hu : Fields.get? cases label with
  | none => rw [hu] at h; cases h
  | some t => exact ⟨t, rfl, by rwa [hu] at h⟩

/-- The siblings of a field without a value, and of all that come behind it. -/
def standing (siblings : Fields) (name : Text) (d : Value) : Fields :=
  if d.isNull then siblings else Fields.put siblings name d

/-- A default stands in for its own field alone. -/
theorem get?_standing_of_ne {siblings : Fields} {name other : Text} {d : Value}
    (h : other ≠ name) :
    Fields.get? (standing siblings name d) other = Fields.get? siblings other := by
  rw [standing]
  split
  · rfl
  · exact Fields.get?_put_of_ne h

/-- The siblings of a field and of all behind it: those of the fields before, and in default mode
what the field counts as, if it is not given. -/
inductive Passes (schema : Schema) (mode : Mode) (siblings : Fields) (name : Text)
    (t : FieldType) : Fields → Prop
  | given (h : (((Fields.get? siblings name).getD .null).isNull && mode == .default) = false) :
      Passes schema mode siblings name t siblings
  | filled {d} (h : (((Fields.get? siblings name).getD .null).isNull && mode == .default) = true)
      (hd : siblingDefault schema t = .ok d) :
      Passes schema mode siblings name t (standing siblings name d)

/-- What stands behind a field is one thing. -/
theorem Passes.unique {siblings behind others : Fields} {name : Text} {t : FieldType}
    (h : Passes schema mode siblings name t behind)
    (h' : Passes schema mode siblings name t others) :
    behind = others := by
  cases h with
  | given h =>
      cases h' with
      | given => rfl
      | filled h' => exact nomatch h.symm.trans h'
  | filled h hd =>
      cases h' with
      | given h' => exact nomatch h.symm.trans h'
      | filled _ hd' => cases hd.symm.trans hd'; rfl

section

variable {σ : Type} {one : Fields → FieldType → Value → Outcome Extent}
  {note : σ → Text → Extent → Outcome σ} {name : Text} {t : FieldType}
  {rest : List (Text × FieldType)} {siblings : Fields} {noted : σ}

/-- Fields are measured one by one, each beside those that stand before it. -/
theorem fields_of_passes {behind : Fields} (h : Passes schema mode siblings name t behind) :
    fields schema mode one note ((name, t) :: rest) siblings noted =
      (do let size ← one behind t ((Fields.get? siblings name).getD .null)
          fields schema mode one note rest behind (← note noted name size)) := by
  rw [fields]
  cases h with
  | given h => simp only [h, Bool.false_eq_true, if_false, pure_bind]
  | filled h hd => simp only [h, if_true, hd]; rfl

/-- But in default mode, the siblings of a field are those given. -/
theorem fields_cons (hmode : mode ≠ .default) :
    fields schema mode one note ((name, t) :: rest) siblings noted =
      (do let size ← one siblings t ((Fields.get? siblings name).getD .null)
          fields schema mode one note rest siblings (← note noted name size)) :=
  fields_of_passes (.given (by rw [beq_eq_false_iff_ne.mpr hmode, Bool.and_false]))

/-- Fields that were all measured were each passed. -/
theorem exists_passes {all : σ}
    (h : fields schema mode one note ((name, t) :: rest) siblings noted = .ok all) :
    ∃ behind, Passes schema mode siblings name t behind := by
  cases hm : ((Fields.get? siblings name).getD .null).isNull && mode == .default with
  | false => exact ⟨_, .given hm⟩
  | true =>
      cases hd : siblingDefault schema t with
      | ok d => exact ⟨_, .filled hm hd⟩
      | error e =>
          rw [fields] at h
          simp only [hm, if_true, hd] at h
          cases h

/-- A field that was measured has a size of its own, and so have those behind it. -/
theorem fields_eq_ok {all : σ}
    (h : fields schema mode one note ((name, t) :: rest) siblings noted = .ok all) :
    ∃ behind size next, Passes schema mode siblings name t behind ∧
      one behind t ((Fields.get? siblings name).getD .null) = .ok size ∧
      note noted name size = .ok next ∧
      fields schema mode one note rest behind next = .ok all := by
  obtain ⟨behind, hp⟩ := exists_passes h
  rw [fields_of_passes hp] at h
  obtain ⟨size, hsize, h⟩ := eq_ok_of_bind h
  obtain ⟨next, hnext, h⟩ := eq_ok_of_bind h
  exact ⟨behind, size, next, hp, hsize, hnext, h⟩

end

/-! ### Elements -/

/-- The sizes of so many elements, those missing measured without a value, add up to `total`. -/
def AddUp (one : Value → Outcome Extent) : Nat → List Value → ℕ∞ → Prop
  | 0, _, total => total = 0
  | count + 1, items, total =>
      ∃ e rest, one (items.headD .null) = .ok e ∧ AddUp one count items.tail rest ∧
        total = e.bits + rest

/-- Items that are missing are each as large as null. -/
theorem addUp_nil {one : Value → Outcome Extent} {e : Extent} (h : one .null = .ok e)
    (count : Nat) : AddUp one count [] (count * e.bits) := by
  induction count with
  | zero => exact zero_mul _
  | succ count ih =>
      refine ⟨e, _, h, ih, ?_⟩
      rw [Nat.cast_succ, add_mul, one_mul, add_comm]

/-- What is given is added one by one, what is missing all at once. -/
theorem addUp_of_sumOf {one : Value → Outcome Extent} {f : Extent} {count : Nat} :
    ∀ {items : List Value} {total known : Extent},
      sumOf one (items.take count) total = .ok known →
      ((items.take count).length < count → one .null = .ok f) →
      ∃ sum, AddUp one count items sum ∧
        known.bits + (count - (items.take count).length : Nat) * f.bits = total.bits + sum := by
  induction count with
  | zero =>
      intro items total known h _
      cases h
      refine ⟨0, rfl, ?_⟩
      rw [List.take_zero, List.length_nil, Nat.sub_zero, Nat.cast_zero, zero_mul]
  | succ count ih =>
      intro items total known h hnull
      cases items with
      | nil =>
          cases h
          exact ⟨_, addUp_nil (hnull (Nat.succ_pos count)) _, rfl⟩
      | cons v items =>
          obtain ⟨e, he, h⟩ := eq_ok_of_bind h
          obtain ⟨next, hn, h⟩ := eq_ok_of_bind h
          obtain ⟨sum, hs, hk⟩ := ih h fun hlt => hnull (Nat.succ_lt_succ hlt)
          refine ⟨e.bits + sum, ⟨e, sum, he, hs, rfl⟩, ?_⟩
          rw [List.take_succ_cons, List.length_cons, Nat.add_sub_add_right, hk,
            Extent.bits_of_add hn, add_assoc]

/-- Elements add up to the sizes of as many items, those that are missing among them. -/
theorem addUp_of_elements {one : Value → Outcome Extent} {count : Nat} {items : List Value}
    {e : Extent} (hpos : 0 < count) (h : elements one count items = .ok e) :
    AddUp one count items e.bits := by
  rw [elements] at h
  split at h
  · next hnone =>
      -- nothing is given, and all is measured at once
      obtain rfl : items = [] :=
        (List.take_eq_nil_iff.mp hnone).resolve_left hpos.ne'
      obtain ⟨f, hf, h⟩ := eq_ok_of_bind h
      rw [Extent.bits_of_times hpos h]
      exact addUp_nil hf count
  · obtain ⟨known, hk, h⟩ := eq_ok_of_bind h
    split at h
    · next hlt =>
        obtain ⟨f, hf, h⟩ := eq_ok_of_bind h
        obtain ⟨sum, hs, he⟩ := addUp_of_sumOf hk fun _ => hf
        rw [Extent.bits_of_addTimes (Nat.sub_pos_of_lt hlt) h, he]
        exact (zero_add sum).symm ▸ hs
    · next hge =>
        cases h
        obtain ⟨sum, hs, he⟩ := addUp_of_sumOf (f := .finite 0) hk fun hlt => absurd hlt hge
        rw [Nat.sub_eq_zero_of_le (Nat.not_lt.mp hge), Nat.cast_zero, zero_mul, add_zero] at he
        rw [he]
        exact (zero_add sum).symm ▸ hs

/-- An array of a resolved length is measured element by element. -/
theorem ofType_array_succ {struct : Text → Value → Outcome Extent} {siblings : Fields}
    {element : FieldType} {length : ArrayLength} {count : Nat} {v : Value}
    (hl : length.resolve siblings = .ok (count + 1)) :
    ofType schema mode struct siblings (.array element length) v =
      elements (ofType schema mode struct siblings element) (count + 1) v.items := by
  simp only [ofType, hl]

/-! ### Structs -/

/-- How a struct is gone into: with a value nothing changes around it, without one it is not gone
into again. -/
inductive Enters (visiting : List Text) (name : Text) : Value → List Text → Prop
  | known {members : Fields} : Enters visiting name (.map members) visiting
  | unknown {v : Value} (unknown : ∀ members, v ≠ .map members) (fresh : name ∉ visiting) :
      Enters visiting name v (name :: visiting)

/-- What is no map has no members. -/
theorem members_eq_nil {v : Value} (hv : ∀ members, v ≠ .map members) : v.members = [] := by
  cases v with
  | map members => exact absurd rfl (hv members)
  | _ => rfl

/-- Only a map is a value of a struct. -/
theorem ofStruct_eq_null {depth : Nat} {visiting : List Text} {name : Text} {v : Value}
    (hv : ∀ members, v ≠ .map members) :
    ofStruct schema mode depth visiting name v =
      ofStruct schema mode depth visiting name .null := by
  rw [ofStruct.eq_def, ofStruct.eq_def schema mode depth visiting name .null]
  cases v with
  | map members => exact absurd rfl (hv members)
  | _ => rfl

/-- A struct is measured by its fields, or infinite as it lies in itself. -/
theorem ofStruct_eq_ok {depth : Nat} {visiting : List Text} {name : Text} {v : Value}
    {e : Extent} (h : ofStruct schema mode depth visiting name v = .ok e) :
    (∀ members, v ≠ .map members) ∧ name ∈ visiting ∧ e = .infinite ∨
      ∃ s inner inside, schema.struct? name = some s ∧ depth = inner + 1 ∧
        Enters visiting name v inside ∧
        fields schema mode (ofType schema mode (ofStruct schema mode inner inside)) addUp s.fields
          v.members (.finite 0) = .ok e := by
  cases hs : schema.struct? name with
  | none =>
      rw [ofStruct.eq_def] at h
      simp only [hs] at h
      cases h
  | some s =>
      by_cases hv : ∀ members, v ≠ .map members
      · rw [ofStruct_eq_null hv, ofStruct.eq_def] at h
        simp only [hs] at h
        by_cases hm : name ∈ visiting
        · rw [if_pos hm] at h
          cases h
          exact Or.inl ⟨hv, hm, rfl⟩
        · rw [if_neg hm] at h
          cases depth with
          | zero => cases h
          | succ inner =>
              refine Or.inr ⟨s, inner, _, rfl, rfl, .unknown hv hm, ?_⟩
              rw [members_eq_nil hv]
              exact h
      · push Not at hv
        obtain ⟨members, rfl⟩ := hv
        rw [ofStruct.eq_def] at h
        simp only [hs] at h
        cases depth with
        | zero => cases h
        | succ inner => exact Or.inr ⟨s, inner, _, rfl, rfl, .known, h⟩

section

variable {visiting inside : List Text} {name : Text} {s : StructDef} {v : Value}

/-- Only a struct that is declared is measured. -/
theorem declared_of_ofStruct {depth : Nat} {e : Extent}
    (h : ofStruct schema mode depth visiting name v = .ok e) :
    ∃ s, schema.struct? name = some s := by
  cases hs : schema.struct? name with
  | some s => exact ⟨s, rfl⟩
  | none =>
      rw [ofStruct.eq_def] at h
      simp only [hs] at h
      cases h

/-- A struct of which nothing is known is without bound where it lies in itself. -/
theorem ofStruct_cut (declared : schema.struct? name = some s) (hv : ∀ members, v ≠ .map members)
    (hm : name ∈ visiting) (depth : Nat) :
    ofStruct schema mode depth visiting name v = .ok .infinite := by
  rw [ofStruct_eq_null hv, ofStruct.eq_def]
  simp only [declared, if_pos hm]

/-- A struct that is entered is measured as its fields. -/
theorem ofStruct_of_enters (declared : schema.struct? name = some s)
    (enters : Enters visiting name v inside) (depth : Nat) :
    ofStruct schema mode (depth + 1) visiting name v =
      fields schema mode (ofType schema mode (ofStruct schema mode depth inside)) addUp s.fields
        v.members (.finite 0) := by
  cases enters with
  | known => simp only [ofStruct, declared]
  | unknown hv fresh =>
      rw [ofStruct_eq_null hv, members_eq_nil hv]
      simp only [ofStruct, declared, if_neg fresh]
      rfl

/-- A struct is entered in one way. -/
theorem Enters.unique {others : List Text} (h : Enters visiting name v inside)
    (h' : Enters visiting name v others) : inside = others := by
  cases h with
  | known =>
      cases h' with
      | known => rfl
      | unknown hv => exact absurd rfl (hv _)
  | unknown hv =>
      cases h' with
      | known => exact absurd rfl (hv _)
      | unknown => rfl

end

end Size

end WireSchema
