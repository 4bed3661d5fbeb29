import WireSchema.Proofs.Codec.ReadWalk
import WireSchema.Proofs.Codec.WriteWalk
import WireSchema.Proofs.Json.Short
import WireSchema.Proofs.Messages

/-!
# Failures of consistent schemas

With a consistent schema without empty labels all that can go wrong is in what is read or written.

**Reading.** A message is read, as far as it goes, unless there is a code in it that has no label.

**Writing.** A value is encoded, unless there is a value in it that does not fit its type, or a gap
that only a struct without a default could fill. What is raised is an error of the codec, but for
one case: what is given for an enum holds an integer that has no numeral, so it cannot be shown.

Decoder and encoder fail at a position to which they have come (`Decode.exists_fails_of_run`,
`Encode.exists_fails_of_script`). What the check has found of the types holds of every such
position, and the fields before it are there (`Decode.Task.Sound`, `Encode.Task.Sound`); so nothing
that is looked up there is missing.
-/

namespace WireSchema

namespace Encode

variable {schema : Schema} {t : FieldType} {v : Value} {cause : Fault}

/-- What does not fit is shown only where it is given for an enum. -/
theorem Misfit.integers_eq (h : Misfit schema t v cause) :
    cause.integers = [] ∨ ∃ name, cause = .unknownLabel v name ∧ cause.integers = v.integers := by
  cases h with
  | label => exact .inr ⟨_, rfl, rfl⟩
  | _ => exact .inl rfl

/-- The encoder is to blame for a wrong shape, the schema for what is no label. -/
theorem Misfit.kind (h : Misfit schema t v cause) :
    cause.kind = .encode ∨ cause.kind = .schema := by
  cases h with
  | label => exact .inr rfl
  | _ => exact .inl rfl

end Encode

namespace Schema

variable {schema : Schema}

/-! ### Reading -/

/-- **Reading fails for a code alone.** Whatever the data, decoding gives a value or nothing, or
there is an enum's field in the message, and what lies there is none of the codes of the enum. -/
theorem decode_fails_for_code {root : Text} (hschema : schema.inconsistencies = [])
    (hlabels : schema.LabelsNonempty) (hroot : root ∈ schema.structNames) (data : Array UInt8)
    (options : Options) :
    (∃ v?, (schema.decode data root options).outcome = .ok v?) ∨
      ∃ path name code, Decode.Unlabelled schema data root path name code ∧
        schema.decode data root options =
          ⟨[], .error (.fault (.unknownCode code name) (some path))⟩ := by
  obtain ⟨s, hs⟩ := exists_struct? hroot
  rw [decode]
  cases hrun : Decode.run schema data root with
  | done v rest => exact .inl ⟨_, rfl⟩
  | cut read? rest notices => exact .inl ⟨_, rfl⟩
  | stopped failure =>
      obtain ⟨path, name, code, h, rfl⟩ :=
        Decode.unlabelled_of_run (Consistent.of_inconsistencies hschema) hlabels hs hrun
      exact .inr ⟨path, name, code, h, rfl⟩

theorem chain_labelsNonempty : chain.LabelsNonempty := by decide

/-- A node of an unknown kind is refused. -/
theorem chain_decode_fails_for_code :
    chain.inconsistencies = [] ∧ chain.LabelsNonempty ∧ ("Node" : Text) ∈ chain.structNames ∧
      ((∃ v?, (chain.decode #[0, 0x80] "Node" {}).outcome = .ok v?) ∨
        ∃ path name code, Decode.Unlabelled chain #[0, 0x80] "Node" path name code ∧
          chain.decode #[0, 0x80] "Node" {} =
            ⟨[], .error (.fault (.unknownCode code name) (some path))⟩) := by
  have hroot : ("Node" : Text) ∈ chain.structNames := by decide
  exact ⟨chain_inconsistencies, chain_labelsNonempty, hroot,
    decode_fails_for_code chain_inconsistencies chain_labelsNonempty hroot #[0, 0x80] {}⟩

example : chain.decode #[0, 0x80] "Node" =
    ⟨[], .error (.fault (.unknownCode 2 "Kind") (some ⟨"Node", [.field "kind"]⟩))⟩ := rfl

/-! ### Writing -/

/-- **Writing fails for a value, or for want of a default.** Whatever the value, encoding gives
bytes, or at the path of the failure there is a given value that does not fit, or a default was to
be built that does not end. For a failure the encoder or the schema is to blame, and what is raised
says so, unless what is given for an enum there holds an integer without a numeral. -/
theorem encode_fails_for_value {root : Text} (hschema : schema.inconsistencies = [])
    (hlabels : schema.LabelsNonempty) (hroot : root ∈ schema.structNames) (v : Value) :
    (∃ bytes, (schema.encode v root).outcome = .ok bytes) ∨
      ∃ path cause,
        (Encode.Misplaced schema root v path cause ∨
          ∃ name, cause = .endlessDefault name ∧ Default.Endless schema name) ∧
        (schema.encode v root).outcome = .error (.fault cause (some path)) ∧
        (((∃ message, cause.message = .ok message ∧ Failure.raised (.fault cause (some path)) =
              .error cause.kind message (some path)) ∧
            (cause.kind = .encode ∨ cause.kind = .schema) ∧
            ∀ i ∈ cause.integers, Numeral.Short i) ∨
          ∃ given name, cause = .unknownLabel given name ∧ ∃ i ∈ given.integers,
            ¬ Numeral.Short i ∧ Failure.raised (.fault cause (some path)) =
              .valueError (Numeral.TooLong.message ⟨i⟩)) := by
  have hc := Consistent.of_inconsistencies hschema
  obtain ⟨s, hs⟩ := exists_struct? hroot
  rw [encode]
  dsimp only [admits]
  cases hscript : Encode.script schema false root v with
  | done script =>
      obtain ⟨bs, -, hp⟩ := Encode.writes_of_script hscript
      obtain ⟨bytes, hf, -⟩ := Encode.finish_of_packs {} rfl root hp
      exact .inl ⟨bytes, congrArg Report.outcome hf⟩
  | stopped failure notices =>
      refine .inr ?_
      rcases Encode.misplaced_or_endless_of_script hc hlabels hs hscript with
        ⟨path, cause, h, rfl⟩ | ⟨path, name, h, rfl⟩
      · refine ⟨path, cause, .inl h, rfl, ?_⟩
        obtain ⟨_, _, _, t, given, -, -, misfit⟩ := h
        rcases Failure.raised_fault cause (some path) with ⟨hraised, short⟩ |
            ⟨i, shown, long, hraised⟩
        · exact .inl ⟨hraised, misfit.kind, short⟩
        · -- of all misfits only an unknown label shows the value
          rcases misfit.integers_eq with hnone | ⟨name, hcause, hsame⟩
          · rw [hnone] at shown
            cases shown
          · exact .inr ⟨given, name, hcause, i, hsame ▸ shown, long, hraised⟩
      · exact ⟨path, _, .inr ⟨name, rfl, h⟩, rfl,
          .inl ⟨⟨_, rfl, rfl⟩, .inr rfl, List.forall_mem_nil _⟩⟩

/-- A node of no kind there is: an integer of too many digits. -/
def strayValue : Value := .map [("length", .int 1), ("kind", .int Numeral.firstLong)]

/-- A node of no kind there is cannot be encoded; and where its kind cannot be shown, that is what
is raised. -/
theorem chain_encode_fails_for_value :
    chain.inconsistencies = [] ∧ chain.LabelsNonempty ∧ ("Node" : Text) ∈ chain.structNames ∧
      ∃ path cause, (chain.encode strayValue "Node").outcome = .error (.fault cause (some path)) ∧
        ∃ e, Failure.raised (.fault cause (some path)) = .valueError e := by
  have hroot : ("Node" : Text) ∈ chain.structNames := by decide
  have houtcome : (chain.encode strayValue "Node").outcome =
      .error (.fault (.unknownLabel (.int Numeral.firstLong) "Kind")
        (some ⟨"Node", [.field "kind"]⟩)) := rfl
  refine ⟨chain_inconsistencies, chain_labelsNonempty, hroot, ?_⟩
  rcases encode_fails_for_value chain_inconsistencies chain_labelsNonempty hroot strayValue with
    ⟨_, hok⟩ | ⟨path, cause, -, herror, ⟨-, -, short⟩ | ⟨_, _, -, _, -, -, hraised⟩⟩
  · cases houtcome.symm.trans hok
  · cases houtcome.symm.trans herror
    exact absurd (short _ (List.mem_singleton_self _)) Numeral.not_short_firstLong
  · exact ⟨path, cause, herror, _, hraised⟩

end Schema

end WireSchema
