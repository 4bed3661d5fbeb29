import WireSchema.Proofs.Codec.Endless
import WireSchema.Proofs.Dumping
import WireSchema.Proofs.Messages
import WireSchema.Proofs.Options
import WireSchema.Proofs.Termination

/-!
# Widths

**No schema that is loaded drives the bit layer out of range** (`Schema.in_range_of_load`). A
payload says a width loosely, and anywhere in arrays and unions; but whatever reads the payload, a
number is taken as a width only if it is one from 1 to 64 (`Payload.exists_readWidth_iff`), and
there are no other widths in a schema. So whatever the encoder makes of a part of a value, all its
writes are accepted, and wherever the decoder reads, no width is refused.

What is left is to give a result or to raise an error of the codec (`Outcome.Settles`), but for
this:

* a call may have no end, to decode where a recursion was found and let pass, and to encode where a
  struct names a field twice;
* there may be no buffer of the capacity that is asked for;
* an error of the encoder may have to show an integer without a numeral. Errors of the decoder do
  not (`Decode.Fails.short`).
-/

namespace WireSchema

/-- There is a result, or an error of the codec is raised. -/
def Outcome.Settles {α : Type} (a : Outcome α) : Prop :=
  (∃ x, a = .ok x) ∨
    ∃ failure kind message path?, a = .error failure ∧ failure.raised = .error kind message path?

/-! ### Widths in payloads -/

/-- What spells a number is read as a width exactly if the number is one from 1 to 64. -/
theorem Payload.exists_readWidth_iff {reading : Reading} {m : Member} :
    (∃ width, readWidth reading m = .ok width) ↔
      ∃ i, reading.integer m.value = .ok i ∧ 1 ≤ i ∧ i ≤ 64 := by
  rw [readWidth]
  cases reading.integer m.value with
  | error kind =>
      constructor
      · rintro ⟨_, h⟩
        cases h
      · rintro ⟨_, h, -⟩
        cases h
  | ok i =>
      dsimp only
      constructor
      · rintro ⟨width, h⟩
        rw [checkWidth] at h
        split at h
        · cases h
        · split at h
          · cases h
          · exact ⟨i, rfl, by omega, by omega⟩
      · rintro ⟨_, h, hpos, hle⟩
        cases h
        rw [checkWidth, dif_neg (by omega), dif_neg (by omega)]
        exact ⟨_, rfl⟩

variable {schema : Schema}

/-! ### Writing -/

/-- Whatever is made of a value of a type, every packer carries out all of it. -/
theorem Encode.exists_writeAll {strict : Bool} {depth : Nat} {siblings : Fields} {t : FieldType}
    {path : Path} {v : Value} {script : Script}
    (h : ofType schema strict (ofStruct schema strict depth) siblings t path v = .done script)
    (packer : Packer) : ∃ packer', packer.writeAll script.writes = .ok packer' := by
  obtain ⟨bs, -, hp⟩ := sound_ofType (sound_ofStruct siblings) t path v script h
  exact ⟨_, packer.writeAll_eq hp⟩

/-- A fault settles a call, unless it shows an integer without a numeral. -/
theorem Outcome.settles_or_long {α : Type} {a : Outcome α} {cause : Fault} {path? : Option Path}
    (h : a = .error (.fault cause path?)) :
    a.Settles ∨ ∃ i ∈ cause.integers, ¬ Numeral.Short i := by
  rcases Failure.raised_fault cause path? with ⟨⟨message, -, hraised⟩, -⟩ | ⟨i, shown, long, -⟩
  · exact .inl (.inr ⟨_, _, message, path?, h, hraised⟩)
  · exact .inr ⟨i, shown, long⟩

theorem Schema.encode_fault_or_endless (v : Value) (root : Text) (options : Options) :
    (∃ bytes, (schema.encode v root options).outcome = .ok bytes) ∨
      (∃ cause path?, (schema.encode v root options).outcome = .error (.fault cause path?)) ∨
      (schema.encode v root options).outcome = .error .tooDeep ∧
        Walk.Endless (Encode.Leads schema) (Encode.Opens schema) (.start root v) := by
  rcases bytes_or_fault_or_cut_of_encode v root options with hok | hfault | ⟨hcut, notices, h⟩
  · exact .inl hok
  · exact .inr (.inl hfault)
  · exact .inr (.inr ⟨hcut, Encode.endless_of_script h⟩)

/-! ### Reading -/

/-- Wherever a value of a type is read, no width is refused. -/
theorem Decode.ne_badWidth {depth : Nat} {siblings : Fields} {t : FieldType} {path : Path}
    {c : Cursor} {e : WidthError} :
    ofType schema (ofStruct schema depth) siblings t path c ≠ .stopped (.badWidth e) := by
  intro h
  cases ends_of_stops (a := .value [] siblings t path c) h with
  | failed _ fails =>
      obtain ⟨_, he⟩ := fails.eq_fault
      cases he
  | deep _ _ tooDeep => cases tooDeep

/-- The integer that bits of a width spell is one of 64 bits. -/
theorem Bits.natAbs_integer_le (signed : Bool) {bs : Bits} (h : bs.length ≤ 64) :
    (integer signed bs).natAbs ≤ 2 ^ 64 := by
  have hlt := toNat_lt bs
  have hpow : 2 ^ bs.length ≤ 2 ^ 64 := Nat.pow_le_pow_right (by decide) h
  have hpos : 0 < 2 ^ bs.length := Nat.two_pow_pos _
  cases signed with
  | false =>
      show ((bs.toNat : Int)).natAbs ≤ _
      omega
  | true =>
      show (Int.bmod bs.toNat (Nat.pow 2 bs.length)).natAbs ≤ _
      rw [Nat.pow_eq]
      have hlow := Int.le_bmod (x := bs.toNat) hpos
      have hhigh := Int.bmod_lt (x := bs.toNat) hpos
      omega

/-- A fault of the decoder shows an integer of 64 bits, if any. -/
theorem Decode.Fails.short {task : Task} {failure : Failure} (h : Fails schema task failure) :
    ∃ cause, failure = .fault cause (some task.position.path) ∧
      ∀ i ∈ cause.integers, Numeral.Short i := by
  cases h with
  | value refused =>
      refine ⟨_, rfl, ?_⟩
      cases refused with
      | unknownCode _ hl =>
          have hle := Nat.le_trans (Nat.le_of_eq hl) (BitWidth.le _)
          exact List.forall_mem_singleton.mpr
            (Numeral.short_of_le (Bits.natAbs_integer_le _ hle))
      | _ => exact List.forall_mem_nil _

theorem Schema.decode_settles_or_endless (data : Array UInt8) (root : Text) (options : Options) :
    (schema.decode data root options).outcome.Settles ∨
      (schema.decode data root options).outcome = .error .tooDeep ∧
        Walk.Endless (Decode.Leads schema) (Decode.Opens schema) (.start data root) := by
  cases hout : (schema.decode data root options).outcome with
  | ok v? => exact .inl (.inl ⟨v?, rfl⟩)
  | error failure =>
      have hrun := run_of_decode hout
      cases Decode.ends_of_run hrun with
      | failed _ fails =>
          obtain ⟨cause, rfl, short⟩ := fails.short
          exact .inl <| (Outcome.settles_or_long rfl).resolve_right
            fun ⟨i, shown, long⟩ => long (short i shown)
      | deep _ _ tooDeep =>
          subst tooDeep
          exact .inr ⟨rfl, Decode.endless_of_run hrun⟩

/-! ### What is loaded -/

namespace Schema

variable {reading : Reading}

theorem inconsistencies_of_load {payload : Value} (h : load payload true reading = .ok schema) :
    schema.inconsistencies = [] := by
  have hchecked : schema.checked = .ok schema := (of_load h).2
  unfold checked at hchecked
  split at hchecked
  · next hnil => exact hnil
  · cases hchecked

/-- Where encoding has no end, a struct names a field twice. -/
theorem exists_twice_of_encode {v : Value} {root : Text} {options : Options}
    (h : (schema.encode v root options).outcome = .error .tooDeep) :
    ∃ s ∈ schema.structs, ¬ s.fieldNames.Nodup := by
  by_contra hnone
  have hnames : ∀ s ∈ schema.structs, s.fieldNames.Nodup := fun s hs =>
    by_contra fun hn => hnone ⟨s, hs, hn⟩
  rcases bytes_or_fault_of_encode hnames v root options with ⟨_, hok⟩ | ⟨_, _, hfault⟩
  · cases hok.symm.trans h
  · cases hfault.symm.trans h

/-- Where decoding has no end, the check finds a recursion. -/
theorem exists_recursion_of_decode {data : Array UInt8} {root : Text} {options : Options}
    (h : (schema.decode data root options).outcome = .error .tooDeep) :
    ∃ cycle, .recursion cycle ∈ schema.inconsistencies := by
  by_contra hnone
  have ha := acyclic_of_inconsistencies fun cycle hm => hnone ⟨cycle, hm⟩
  exact Decode.run_ne_tooDeep ha data root (run_of_decode h)

/-- Encoding settles, or it has no end, or there is no buffer, or an integer cannot be shown. -/
theorem encodeBuffered_settles_or (v : Value) (root : Text) (options : Options) :
    (schema.encodeBuffered v root options).outcome.Settles ∨
      (∃ cause path?, (schema.encodeBuffered v root options).outcome = .error (.fault cause path?) ∧
        ∃ i ∈ cause.integers, ¬ Numeral.Short i) ∨
      (Packer.indexLimit ≤ options.capacity ∧
        (schema.encodeBuffered v root options).outcome = .error (.noBuffer options.capacity)) ∨
      (∃ s ∈ schema.structs, ¬ s.fieldNames.Nodup) ∧
        (schema.encodeBuffered v root options).outcome = .error .tooDeep ∧
        Walk.Endless (Encode.Leads schema) (Encode.Opens schema) (.start root v) := by
  rcases encodeBuffered_eq_or schema v root options with heq | ⟨hle, heq⟩
  · rw [heq]
    rcases encode_fault_or_endless v root options with hok | ⟨cause, path?, hfault⟩ |
        ⟨hdeep, endless⟩
    · exact .inl (.inl hok)
    · rcases Outcome.settles_or_long hfault with settles | long
      · exact .inl settles
      · exact .inr (.inl ⟨cause, path?, hfault, long⟩)
    · exact .inr (.inr (.inr ⟨exists_twice_of_encode hdeep, hdeep, endless⟩))
  · exact .inr (.inr (.inl ⟨hle, congrArg Report.outcome heq⟩))

/-- **In range.** With a schema that is loaded from whatever payload, whatever reads it, checked or
not, every packer accepts what is written for a part of a value, and no read of a part of a message
is refused for its width, however deep it lies. Decoding settles, unless it has no end, for a
recursion in a schema that was let pass unchecked. Encoding settles, unless its fault would show an
integer without a numeral, there is no buffer of the capacity, or it has no end, for a field named
twice in a schema that was let pass unchecked. -/
theorem in_range_of_load {payload : Value} {check : Bool}
    (h : load payload check reading = .ok schema) (root : Text) (options : Options) :
    (∀ v, (schema.encodeBuffered v root options).outcome.Settles ∨
      (∃ cause path?,
        (schema.encodeBuffered v root options).outcome = .error (.fault cause path?) ∧
          ∃ i ∈ cause.integers, ¬ Numeral.Short i) ∨
      (Packer.indexLimit ≤ options.capacity ∧
        (schema.encodeBuffered v root options).outcome = .error (.noBuffer options.capacity)) ∨
      check = false ∧ (∃ s ∈ schema.structs, ¬ s.fieldNames.Nodup) ∧
        (schema.encodeBuffered v root options).outcome = .error .tooDeep ∧
        Walk.Endless (Encode.Leads schema) (Encode.Opens schema) (.start root v)) ∧
    (∀ data, (schema.decode data root options).outcome.Settles ∨
      check = false ∧ (∃ cycle, .recursion cycle ∈ schema.inconsistencies) ∧
        (schema.decode data root options).outcome = .error .tooDeep ∧
        Walk.Endless (Decode.Leads schema) (Decode.Opens schema) (.start data root)) ∧
    (∀ depth siblings t path v script,
      Encode.ofType schema options.strictArrays (Encode.ofStruct schema options.strictArrays depth)
          siblings t path v = .done script →
        ∀ packer : Packer, ∃ packer', packer.writeAll script.writes = .ok packer') ∧
    ∀ depth siblings t path c e,
      Decode.ofType schema (Decode.ofStruct schema depth) siblings t path c ≠
        .stopped (.badWidth e) := by
  refine ⟨fun v => ?_, fun data => ?_, fun _ _ _ _ _ _ => Encode.exists_writeAll,
    fun _ _ _ _ _ _ => Decode.ne_badWidth⟩
  · refine (encodeBuffered_settles_or v root options).imp_right (.imp_right (.imp_right ?_))
    rintro ⟨⟨s, hs, hn⟩, hdeep, endless⟩
    refine ⟨Bool.eq_false_iff.mpr fun hcheck => ?_, ⟨s, hs, hn⟩, hdeep, endless⟩
    subst hcheck
    exact hn ((Consistent.of_inconsistencies (inconsistencies_of_load h)).names_nodup s hs)
  · refine (decode_settles_or_endless data root options).imp_right ?_
    rintro ⟨hdeep, endless⟩
    obtain ⟨cycle, hm⟩ := exists_recursion_of_decode hdeep
    refine ⟨Bool.eq_false_iff.mpr fun hcheck => ?_, ⟨cycle, hm⟩, hdeep, endless⟩
    subst hcheck
    rw [inconsistencies_of_load h] at hm
    cases hm

/-- With a payload in which numbers are spelled loosely, everything settles that is read, once it is
checked; and so does everything that is written, where its faults can be told. -/
theorem framePayload_in_range :
    load framePayload true = .ok frame ∧
      (∀ v, (frame.encodeBuffered v "Frame").outcome.Settles ∨
        ∃ cause path?, (frame.encodeBuffered v "Frame").outcome = .error (.fault cause path?) ∧
          ∃ i ∈ cause.integers, ¬ Numeral.Short i) ∧
      ∀ data, (frame.decode data "Frame").outcome.Settles := by
  have h : load framePayload true = .ok frame := load_framePayload (some 200)
  obtain ⟨hencode, hdecode, -, -⟩ := in_range_of_load h "Frame" {}
  refine ⟨h, fun v => ?_, fun data => ?_⟩
  · rcases hencode v with settles | long | hbuffer | hdeep
    · exact .inl settles
    · exact .inr long
    · exact absurd hbuffer.1 (by decide)
    · cases hdeep.1
  · rcases hdecode data with settles | hdeep
    · exact settles
    · cases hdeep.1

/-- A struct that lies in itself is loaded unless it is checked; and then to decode it has no end,
and gives neither a result nor an error of the codec. -/
theorem knot_decode_not_settles :
    load knot.toPayload = .ok knot ∧ ¬ (knot.decode #[] "Knot").outcome.Settles := by
  have hdeep : (knot.decode #[] "Knot").outcome = .error .tooDeep := rfl
  refine ⟨rfl, ?_⟩
  rw [hdeep]
  rintro (⟨_, ⟨⟩⟩ | ⟨_, _, _, _, ⟨⟩, ⟨⟩⟩)

end Schema

end WireSchema
