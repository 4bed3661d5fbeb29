import WireSchema.Proofs.Codec.Canonical
import WireSchema.Proofs.Codec.Foreseen

/-!
# Codec — What is written is what is measured

The bits written for a value are as many as the size measured of it: with gaps in default mode, and
without gaps in every mode (`Size.ofType_of_writes`).

A gap is filled with a default by the encoder and measured without a value by the estimator. That is
the size of the default (`Size.foresees_default`), which is itself a value that is written.
-/

namespace WireSchema

variable {schema : Schema} {gaps : Bool}

namespace Size

theorem depth_headD_le {items : List Value} {bound depth : Nat}
    (h : ∀ v ∈ items, v.depth + bound ≤ depth) (hb : bound ≤ depth) :
    (items.headD .null).depth + bound ≤ depth := by
  cases items with
  | nil => exact (Nat.zero_add bound).symm ▸ hb
  | cons v items => exact h v List.mem_cons_self

/-- One more element, given or missing, in front of others. -/
theorem sumOf_cons {one : Value → Outcome Extent} {count k f n l : Nat} {items : List Value}
    (hone : one (items.headD .null) = .ok (.finite n))
    (hsum : ∀ total, sumOf one (items.tail.take count) (.finite total) = .ok (.finite (total + k)))
    (hnull : (items.tail.take count).length < count → one .null = .ok (.finite f))
    (hl : l = k + (count - (items.tail.take count).length) * f) :
    ∃ k f,
      (∀ total, sumOf one (items.take (count + 1)) (.finite total) =
        .ok (.finite (total + k))) ∧
      ((items.take (count + 1)).length < count + 1 → one .null = .ok (.finite f)) ∧
      n + l = k + (count + 1 - (items.take (count + 1)).length) * f := by
  cases items with
  | nil =>
      rw [List.tail_nil, List.take_nil] at hsum hnull hl
      have hk : 0 = 0 + k := Extent.finite.inj (Except.ok.inj (hsum 0))
      refine ⟨0, n, fun _ => rfl, fun _ => hone, ?_⟩
      rw [hl, List.take_nil, List.length_nil, Nat.sub_zero, Nat.sub_zero]
      cases count with
      | zero => omega
      | succ count =>
          cases hone.symm.trans (hnull (Nat.succ_pos count))
          rw [Nat.succ_mul (count + 1)]
          omega
  | cons v items =>
      refine ⟨n + k, f, fun total => ?_, fun hlt => hnull (Nat.lt_of_succ_lt_succ hlt), ?_⟩
      · rw [List.take_succ_cons, sumOf, show one v = _ from hone]
        exact (hsum (total + n)).trans (by rw [Nat.add_assoc])
      · rw [hl, List.take_succ_cons, List.length_cons, Nat.add_sub_add_right, Nat.add_assoc]
        rfl

theorem ofType_array {mode : Mode} {struct : Text → Value → Outcome Extent} {siblings : Fields}
    {element : FieldType} {length : ArrayLength} {count k f : Nat} {items : List Value}
    (hres : length.resolve siblings = .ok count)
    (hsum : ∀ total, sumOf (ofType schema mode struct siblings element) (items.take count)
      (.finite total) = .ok (.finite (total + k)))
    (hnull : (items.take count).length < count →
      ofType schema mode struct siblings element .null = .ok (.finite f)) :
    ofType schema mode struct siblings (.array element length) (.list items) =
      .ok (.finite (k + (count - (items.take count).length) * f)) := by
  cases count with
  | zero =>
      have hk : 0 = 0 + k := Extent.finite.inj (Except.ok.inj (hsum 0))
      simp only [ofType, hres, Nat.zero_sub, Nat.zero_mul, Nat.add_zero]
      rw [hk, Nat.zero_add]
  | succ count =>
      simp only [ofType, hres]
      exact elements_eq (Nat.succ_pos count) hsum hnull

/-- A gap is measured as the default that fills it. -/
theorem null_of_filled {mode : Mode} (hc : schema.Consistent) (hmode : mode = .default)
    {siblings written : Fields} {t : FieldType} {v : Value} {n depth : Nat}
    (hd : schema.defaultValue t written = .ok v)
    (same : Siblings.SameFor schema siblings written t)
    (hv : ofType schema mode (ofStruct schema mode (v.depth + schema.structs.length) []) siblings t
      v = .ok (.finite n)) (hN : schema.structs.length ≤ depth) :
    ofType schema mode (ofStruct schema mode depth []) siblings t .null = .ok (.finite n) := by
  subst hmode
  obtain ⟨m, hm⟩ := foresees_default hc hd
  cases (hm _ siblings (Nat.le_add_left _ _) same).2.symm.trans hv
  exact (hm depth siblings hN same).1

mutual

/-- A value is measured as what is written for it. -/
theorem ofType_of_writes {mode : Mode} (hc : schema.Consistent) (hm : gaps = true → mode = .default)
    {written : Fields} {t : FieldType} {v : Value} {bs : Bits} :
    Writes schema gaps written t v bs →
    ∀ {earlier : Consistency.Earlier} {siblings : Fields} {depth : Nat}, schema.Sound earlier t →
      Siblings.Agree earlier siblings written → v.depth + schema.structs.length ≤ depth →
      ofType schema mode (ofStruct schema mode depth []) siblings t v = .ok (.finite bs.length)
  | .int, _, _, _, _, _, _ => by
      rw [Bits.length_ofInt]
      rfl
  | .single hx, _, _, _, _, _, _ => by
      rw [Bits.length_ofBytes, Write.float32Bytes, length_littleEndian]
      rfl
  | .double hx, _, _, _, _, _, _ => by
      rw [Bits.length_ofBytes, Write.float64Bytes, length_littleEndian]
      rfl
  | .text, _, _, _, _, _, _ => by
      rw [Bits.length_ofBytes, List.length_append]
      rfl
  | .enum declared _, _, _, _, _, _, _ => by
      rw [Bits.length_ofInt]
      simp only [ofType, declared]
  | @Writes.struct _ _ _ _ s members bs declared _ fields, _, siblings, depth, _, _, hd => by
      have h₀ : 0 < depth := by
        rw [Value.depth] at hd
        omega
      obtain ⟨depth, rfl⟩ := Nat.exists_eq_succ_of_ne_zero h₀.ne'
      have hmembers : ∀ name v, Fields.get? members name = some v →
          v.depth + schema.structs.length ≤ depth := fun name v hv => by
        have := Value.depth_lt_map hv
        omega
      have h : Size.fields schema mode (ofType schema mode (ofStruct schema mode depth [])) addUp
          s.fields members (.finite 0) = .ok (.finite (0 + bs.length)) :=
        fields_of_writes hc hm fields (hc.fields_sound declared) .nil (fun _ _ => rfl) hmembers
          (by rw [Value.depth] at hd; omega)
      simp only [ofType, ofStruct, declared]
      rw [Nat.zero_add] at h
      exact h
  | .array counted exact elements, _, siblings, depth, sound, agree, hd => by
      cases sound with
      | array hdyn inner =>
          have hres := (agree.resolve_eq hdyn).trans counted
          obtain ⟨k, f, hsum, hnull, hl⟩ := elements_of_writes hc hm elements inner agree
            (fun v hv => by have := Value.depth_lt_list hv; omega) (Nat.le_of_add_left_le hd)
          rw [hl]
          exact ofType_array hres hsum hnull
  | .union chosen case value, _, siblings, depth, sound, agree, hd => by
      cases sound with
      | union _ hdisc _ inner =>
          have hl := (agree.label?_eq hdisc).trans chosen
          simp only [ofType, hl, ofCase_eq, case]
          exact ofType_of_writes hc hm value (inner _ _ (Fields.mem_of_get? case)) agree hd

theorem elements_of_writes {mode : Mode} (hc : schema.Consistent)
    (hm : gaps = true → mode = .default) {written : Fields} {t : FieldType} {count : Nat}
    {items : List Value} {bs : Bits} : WritesElements schema gaps written t count items bs →
    ∀ {earlier : Consistency.Earlier} {siblings : Fields} {depth : Nat}, schema.Sound earlier t →
      Siblings.Agree earlier siblings written →
      (∀ v ∈ items, v.depth + schema.structs.length ≤ depth) → schema.structs.length ≤ depth →
      ∃ k f,
        (∀ total, sumOf (ofType schema mode (ofStruct schema mode depth []) siblings t)
          (items.take count) (.finite total) = .ok (.finite (total + k))) ∧
        ((items.take count).length < count →
          ofType schema mode (ofStruct schema mode depth []) siblings t .null = .ok (.finite f)) ∧
        bs.length = k + (count - (items.take count).length) * f
  | .nil, _, _, _, _, _, _, _ => ⟨0, 0, fun _ => rfl, fun h => absurd h (Nat.not_lt_zero _), rfl⟩
  | .cons stands first rest, _, siblings, depth, sound, agree, hd, hN => by
      obtain ⟨k, f, hsum, hnull, hl⟩ := elements_of_writes hc hm rest sound agree
        (fun v hv => hd v (List.mem_of_mem_tail hv)) hN
      rw [List.length_append]
      refine sumOf_cons ?_ hsum hnull hl
      rcases stands.given_or_filled with ⟨hv, -⟩ | ⟨hg, hn, hdef⟩
      · have h := ofType_of_writes hc hm first sound agree (hv ▸ depth_headD_le hd hN)
        rwa [hv] at h
      · -- an element that is missing is written as the default, the same for each
        rw [Value.eq_null_of_isNull hn]
        exact null_of_filled hc (hm hg) hdef (.of_sound sound agree)
          (ofType_of_writes hc hm first sound agree (Nat.le_refl _)) hN

theorem fields_of_writes {mode : Mode} (hc : schema.Consistent)
    (hm : gaps = true → mode = .default) {members : Fields} {fields : List (Text × FieldType)}
    {written : Fields} {bs : Bits} : WritesFields schema gaps members fields written bs →
    ∀ {earlier : Consistency.Earlier} {siblings : Fields} {depth total : Nat},
      schema.SoundFields fields earlier → Siblings.Agree earlier siblings written →
      (∀ name ∈ fields.map (·.1), Fields.get? siblings name = Fields.get? members name) →
      (∀ name v, Fields.get? members name = some v → v.depth + schema.structs.length ≤ depth) →
      schema.structs.length ≤ depth →
      Size.fields schema mode (ofType schema mode (ofStruct schema mode depth [])) addUp fields
        siblings (.finite total) = .ok (.finite (total + bs.length))
  | .nil, _, _, _, _, _, _, _, _, _ => rfl
  | .cons stands first rest, _, siblings, depth, total, sound, agree, hmem, hd, hN => by
      have hname := (List.nodup_cons.mp sound.names.1).1
      obtain ⟨hfresh, hsound, hrest⟩ := sound
      have hg := hmem _ List.mem_cons_self
      rw [List.length_append, ← Nat.add_assoc]
      rcases stands.given_or_filled with ⟨hv, hn⟩ | ⟨hgap, hn, hdef⟩
      · have hmember := Encode.get?_of_getD hn
        have hone := ofType_of_writes hc hm first hsound agree (hv ▸ hd _ _ hmember)
        rw [hv] at hone
        rw [fields_given (hg.trans hmember) hn hone]
        exact fields_of_writes hc hm rest hrest
          (agree.put fun _ => by rw [hg, hmember, hv])
          (fun other ho => hmem other (List.mem_cons_of_mem _ ho)) hd hN
      · -- a gap: the sibling that is measured with agrees with the default that is written
        have hfilled := Value.eq_null_of_isNull hn
        obtain ⟨d, hsib, hsel⟩ := siblingDefault_of_default hdef
        have hstanding := agree_standing (d := d) hfresh agree
        have hmode := hm hgap
        have hone := null_of_filled hc hmode hdef (.of_sound hsound hstanding)
          (ofType_of_writes hc hm first hsound hstanding (Nat.le_refl _)) hN
        rw [hmode] at hone ⊢
        rw [fields_filled (by rw [hg, hfilled]) hsib hone, ← hmode]
        exact fields_of_writes hc hm rest hrest (agree_standing_put hfresh agree hsel)
          (fun other ho => (get?_standing_of_ne fun e => hname (by rw [← e]; exact ho)).trans
            (hmem other (List.mem_cons_of_mem _ ho))) hd hN

end

end Size

end WireSchema
