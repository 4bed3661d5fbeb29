import WireSchema.Proofs.Codec.Finishing
import WireSchema.Proofs.Codec.Told
import WireSchema.Proofs.Codec.WriteUnbounded
import WireSchema.Proofs.Sizes

/-!
# What options of the encoder do

**Options only reject** (`Schema.encode_of_options`). Whatever the schema and the value, what is
encoded under some options is encoded alike under the default ones. What is encoded under the
default ones is refused under others exactly for the reasons of `Options.Rejects`: the value does
not conform, an array has another length than the resolved one, the bytes are too many, or no buffer
has the capacity that is asked for. A capacity that a buffer can have makes no difference at all.

Where it does not refuse an array for its length, a strict encoder writes as one that is not
(`Encode.approximates_ofStruct`), and such an array is what it stops at (`Encode.uneven_of_ends`).
That the check of the value fails instead of saying no is not among the reasons, for it does not
where the value is encoded (`Conform.exists_conforms_of_writes`).
-/

namespace WireSchema

variable {schema : Schema} {options : Options} {v : Value} {root : Text} {bytes : Array UInt8}

/-- What options refuse a value for that is encoded as these bytes without them. -/
inductive Options.Rejects (options : Options) (schema : Schema) (v : Value) (root : Text)
    (bytes : Array UInt8) : Failure → Prop
  | unfit (validate : options.validateValues = true)
      (h : schema.conforms (.struct root) v = .ok false) :
      Rejects options schema v root bytes (.fault (.mismatch root) (some (Path.ofRoot root)))
  | uneven {path expected got} (strict : options.strictArrays = true)
      (h : Encode.Uneven schema (.start root v) path expected got)
      (given : (∀ s ∈ schema.structs, s.fieldNames.Nodup) →
        ∃ items, v.at? path.steps = some (.list items) ∧ items.length = got) :
      Rejects options schema v root bytes (.fault (.lengthMismatch expected got) (some path))
  | large {limit} (max : options.maxBytes = some limit) (h : limit < bytes.size) :
      Rejects options schema v root bytes
        (.fault (.tooLarge bytes.size limit) (some (Path.ofRoot root)))
  | unbuffered (h : Packer.indexLimit ≤ options.capacity) :
      Rejects options schema v root bytes (.noBuffer options.capacity)

/-- The same options, and strict about the lengths of arrays. -/
def Options.strictly (options : Options) : Options := { options with strictArrays := true }

namespace Encode

/-- Whatever the options, the bytes of what is written are the same. -/
theorem exists_carries {strict : Bool} {script : Script}
    (h : Encode.script schema strict root v = .done script) :
    ∃ (bytes : Array UInt8) (bits : Nat), ∀ options : Options,
      Carries options root script bits bytes (finish options root script) := by
  obtain ⟨bs, -, hp⟩ := writes_of_script h
  obtain ⟨bytes, -, -, hcarries⟩ := exists_finish bs
  exact ⟨bytes, bs.length, fun options => hcarries options root script hp⟩

/-- What a strict encoder comes to the end of, it writes as one that is not. -/
theorem script_of_strict {strict : Bool} {script : Script}
    (h : Encode.script schema strict root v = .done script) :
    Encode.script schema false root v = .done script := by
  rcases approximates_ofStruct schema strict root (Path.ofRoot root) v with
    ⟨_, _, -, hstopped⟩ | he
  · cases h.symm.trans hstopped
  · exact he.symm.trans h

end Encode

namespace Schema

/-- What is written is encoded under the default options, and as the same bytes under all others
that have room for them. -/
theorem encode_default_of_script {strict : Bool} {script : Script}
    (h : Encode.script schema strict root v = .done script) :
    ∃ (bytes : Array UInt8) (bits : Nat),
      schema.encode v root = ⟨script.notices ++ [.encoded root bits], .ok bytes⟩ ∧
        ∀ options : Options, Encode.Carries options root script bits bytes
          (Encode.finish options root script) := by
  obtain ⟨bytes, bits, hcarries⟩ := Encode.exists_carries h
  refine ⟨bytes, bits, ?_, hcarries⟩
  have hencodes : Encodes schema v root {} (Encode.finish {} root script) :=
    .written (fun hv => nomatch hv) (Encode.script_of_strict h)
  exact hencodes.eq.trans ((hcarries {}).eq_of_room fun _ hlimit => nomatch hlimit)

/-- An encoding fails, or carries out what has been written. -/
theorem fails_or_finishes (schema : Schema) (v : Value) (root : Text) (options : Options) :
    (∃ failure, (schema.encode v root options).outcome = .error failure) ∨
      ∃ script, schema.admits v root options = .ok true ∧
        Encode.script schema options.strictArrays root v = .done script ∧
        schema.encode v root options = Encode.finish options root script := by
  have hencodes := encodes schema v root options
  generalize schema.encode v root options = report at hencodes
  cases hencodes with
  | untold | unfit | stopped => exact .inl ⟨_, rfl⟩
  | written fit h => exact .inr ⟨_, admits_iff.mpr fit, h, rfl⟩

/-- What is encoded has been written and carried out. -/
theorem finish_of_encode (hok : (schema.encode v root options).outcome = .ok bytes) :
    ∃ script, Encode.script schema options.strictArrays root v = .done script ∧
      schema.encode v root options = Encode.finish options root script := by
  rcases fails_or_finishes schema v root options with ⟨failure, herror⟩ | ⟨script, -, h⟩
  · cases hok.symm.trans herror
  · exact ⟨script, h⟩

/-- What is encoded under some options is encoded alike under the default ones. -/
theorem encode_default_eq (hok : (schema.encode v root options).outcome = .ok bytes) :
    schema.encode v root = schema.encode v root options := by
  obtain ⟨script, hscript, hfinish⟩ := finish_of_encode hok
  obtain ⟨bytes', bits, hdefault, hcarries⟩ := encode_default_of_script hscript
  have hcarried := hcarries options
  rw [hdefault]
  rw [hfinish] at hok ⊢
  generalize Encode.finish options root script = report at hok hcarried
  cases hcarried with
  | within => rfl
  | beyond => cases hok

/-- What is encoded under the default options is refused under others for a reason. -/
theorem rejects_of_error {failure : Failure} (hok : (schema.encode v root).outcome = .ok bytes)
    (herror : (schema.encode v root options).outcome = .error failure) :
    options.Rejects schema v root bytes failure := by
  have hencodes := encodes schema v root options
  generalize schema.encode v root options = report at herror hencodes
  cases hencodes with
  | untold validate h =>
      obtain ⟨bs, _, hw, -⟩ := writes_of_encode hok
      obtain ⟨fit, hfit⟩ := Conform.exists_conforms_of_writes hw
      cases hfit.symm.trans h
  | unfit validate h =>
      cases herror
      exact .unfit validate h
  | stopped fit hscript =>
      cases herror
      obtain ⟨script, hlenient, -⟩ := finish_of_encode hok
      have hfinishes : (Encode.Task.start root v).Finishes schema false
          (Encode.depthBound schema v) := ⟨script, hlenient⟩
      obtain ⟨hstrict, path, expected, got, huneven, rfl⟩ :=
        Encode.uneven_of_ends hfinishes (Encode.ends_of_script hscript)
      exact .uneven hstrict huneven fun hnames => huneven.at?_eq hnames
  | written fit hscript =>
      obtain ⟨bytes', bits, hdefault, hcarries⟩ := encode_default_of_script hscript
      rw [hdefault] at hok
      cases hok
      have hcarried := hcarries options
      generalize Encode.finish options root _ = report at herror hcarried
      cases hcarried with
      | within => cases herror
      | beyond max h =>
          cases herror
          exact .large max h

/-! ### With a buffer -/

/-- Where there is a buffer, it makes no difference. -/
theorem encodeBuffered_of_lt (h : options.capacity < Packer.indexLimit) :
    schema.encodeBuffered v root options = schema.encode v root options := by
  rw [encodeBuffered]
  split
  · rw [if_pos h]
  · rfl

/-- What is not admitted is refused before there is a buffer. -/
theorem encodeBuffered_of_admits_ne (h : schema.admits v root options ≠ .ok true) :
    schema.encodeBuffered v root options = schema.encode v root options := by
  rw [encodeBuffered]
  split
  · next hfit => exact absurd hfit h
  · rfl

theorem encodeBuffered_of_le (h : Packer.indexLimit ≤ options.capacity)
    (hfit : schema.admits v root options = .ok true) :
    schema.encodeBuffered v root options = ⟨[], .error (.noBuffer options.capacity)⟩ := by
  rw [encodeBuffered, hfit]
  exact if_neg (Nat.not_lt.mpr h)

/-- There is a buffer to encode into, or the failure is that there is none. -/
theorem encodeBuffered_eq_or (schema : Schema) (v : Value) (root : Text) (options : Options) :
    schema.encodeBuffered v root options = schema.encode v root options ∨
      Packer.indexLimit ≤ options.capacity ∧
        schema.encodeBuffered v root options = ⟨[], .error (.noBuffer options.capacity)⟩ := by
  by_cases hfit : schema.admits v root options = .ok true
  · rcases Nat.lt_or_ge options.capacity Packer.indexLimit with hlt | hge
    · exact .inl (encodeBuffered_of_lt hlt)
    · exact .inr ⟨hge, encodeBuffered_of_le hge hfit⟩
  · exact .inl (encodeBuffered_of_admits_ne hfit)

theorem encodeBuffered_default : schema.encodeBuffered v root = schema.encode v root :=
  encodeBuffered_of_lt (by decide)

/-- What there is a reason to refuse is refused. -/
theorem error_of_rejects {failure : Failure} (hok : (schema.encode v root).outcome = .ok bytes)
    (hrejects : options.Rejects schema v root bytes failure) :
    ∃ other, (schema.encodeBuffered v root options).outcome = .error other := by
  rcases encodeBuffered_eq_or schema v root options with heq | ⟨-, heq⟩
  swap
  · exact ⟨_, congrArg Report.outcome heq⟩
  rw [heq]
  rcases fails_or_finishes schema v root options with herror | ⟨script, fit, hscript, hfinish⟩
  · exact herror
  cases hrejects with
  | unfit validate h => cases (admits_iff.mp fit validate).symm.trans h
  | uneven strict h =>
      rw [strict] at hscript
      exact absurd ⟨script, hscript⟩ (Encode.not_finishes_of_uneven h)
  | large max h =>
      obtain ⟨bytes', bits, hdefault, hcarries⟩ := encode_default_of_script hscript
      rw [hdefault] at hok
      cases hok
      have hcarried := hcarries options
      rw [hfinish]
      generalize Encode.finish options root script = report at hcarried ⊢
      cases hcarried with
      | within room => exact absurd (room _ max) (Nat.not_le.mpr h)
      | beyond => exact ⟨_, rfl⟩
  | unbuffered h => exact ⟨_, congrArg Report.outcome (heq.symm.trans (encodeBuffered_of_le h fit))⟩

/-- The capacity of the buffer makes no difference to what is written to it. -/
theorem encode_capacity (options : Options) (capacity : Nat) (hpos : 0 < capacity) :
    schema.encode v root { options with capacity := capacity, capacity_pos := hpos } =
      schema.encode v root options := by
  have hencodes := encodes schema v root options
  generalize schema.encode v root options = report at hencodes ⊢
  refine Encodes.eq ?_
  cases hencodes with
  | untold validate h => exact .untold validate h
  | unfit validate h => exact .unfit validate h
  | stopped fit h => exact .stopped fit h
  | written fit h =>
      obtain ⟨bytes, bits, hcarries⟩ := Encode.exists_carries h
      have hother := hcarries { options with capacity := capacity, capacity_pos := hpos }
      rw [← (hcarries options).unique hother rfl]
      exact .written fit h

/-- **Options only reject.** What is encoded under some options is encoded under the default ones,
with the same report. What is encoded under the default ones is refused under others exactly where
there is a reason, and with one of the reasons. With however much room the buffer starts, an
encoding goes just the same, as long as there is a buffer; where there is none, every value that is
admitted is refused for that. -/
theorem encode_of_options (schema : Schema) (v : Value) (root : Text) (options : Options) :
    (∀ bytes, (schema.encodeBuffered v root options).outcome = .ok bytes →
      schema.encodeBuffered v root = schema.encodeBuffered v root options) ∧
    (∀ bytes, (schema.encodeBuffered v root).outcome = .ok bytes →
      (∀ failure, (schema.encodeBuffered v root options).outcome = .error failure →
        options.Rejects schema v root bytes failure) ∧
      ∀ failure, options.Rejects schema v root bytes failure →
        ∃ other, (schema.encodeBuffered v root options).outcome = .error other) ∧
    ∀ (capacity : Nat) (hpos : 0 < capacity),
      (capacity < Packer.indexLimit ∨ schema.admits v root options ≠ .ok true →
        schema.encodeBuffered v root { options with capacity := capacity, capacity_pos := hpos } =
          schema.encode v root options) ∧
      (Packer.indexLimit ≤ capacity → schema.admits v root options = .ok true →
        schema.encodeBuffered v root { options with capacity := capacity, capacity_pos := hpos } =
          ⟨[], .error (.noBuffer capacity)⟩) := by
  rw [encodeBuffered_default]
  refine ⟨fun bytes hok => ?_, fun bytes hok =>
    ⟨fun failure herror => ?_, fun _ => error_of_rejects hok⟩,
    fun capacity hpos => ⟨fun h => ?_, fun hle hfit => ?_⟩⟩
  · rcases encodeBuffered_eq_or schema v root options with heq | ⟨-, heq⟩
    · rw [heq] at hok ⊢
      exact encode_default_eq hok
    · rw [heq] at hok
      cases hok
  · rcases encodeBuffered_eq_or schema v root options with heq | ⟨hle, heq⟩
    · rw [heq] at herror
      exact rejects_of_error hok herror
    · rw [heq] at herror
      cases herror
      exact .unbuffered hle
  · rw [← encode_capacity options capacity hpos]
    rcases h with hlt | hfit
    · exact encodeBuffered_of_lt hlt
    · exact encodeBuffered_of_admits_ne hfit
  · exact encodeBuffered_of_le hle hfit

set_option maxRecDepth 2000 in
theorem encode_chainDraft : (chain.encode chainDraft "Node").outcome = .ok chainDraftBytes := rfl

/-- A sample that is missing is filled in, unless lengths are taken strictly. -/
theorem chainDraft_encode_of_options :
    (chain.encodeBuffered chainDraft "Node").outcome = .ok chainDraftBytes ∧
      (chain.encodeBuffered chainDraft "Node" (.strictly {})).outcome =
        .error (.fault (.lengthMismatch 2 1) (some ((Path.ofRoot "Node").child "samples"))) ∧
      (Options.strictly {}).Rejects chain chainDraft "Node" chainDraftBytes
        (.fault (.lengthMismatch 2 1) (some ((Path.ofRoot "Node").child "samples"))) ∧
      ∀ (capacity : Nat) (hpos : 0 < capacity), capacity < Packer.indexLimit →
        chain.encodeBuffered chainDraft "Node"
            { Options.strictly {} with capacity := capacity, capacity_pos := hpos } =
          chain.encode chainDraft "Node" (.strictly {}) := by
  have hok : (chain.encodeBuffered chainDraft "Node").outcome = .ok chainDraftBytes := by
    rw [encodeBuffered_default, encode_chainDraft]
  have herror : (chain.encodeBuffered chainDraft "Node" (.strictly {})).outcome =
      .error (.fault (.lengthMismatch 2 1) (some ((Path.ofRoot "Node").child "samples"))) := by
    rw [encodeBuffered_of_lt (by decide)]
    rfl
  obtain ⟨-, hrefused, hcapacity⟩ := encode_of_options chain chainDraft "Node" (.strictly {})
  exact ⟨hok, herror, (hrefused _ hok).1 _ herror,
    fun capacity hpos hlt => (hcapacity capacity hpos).1 (.inl hlt)⟩

/-- Where no buffer is large enough, what is encoded under the default options is refused, though
no length is taken strictly, no value is checked, and no number of bytes is too many. -/
theorem chainDraft_encodeBuffered_noBuffer :
    (chain.encodeBuffered chainDraft "Node").outcome = .ok chainDraftBytes ∧
      (chain.encodeBuffered chainDraft "Node"
          { capacity := Packer.indexLimit, capacity_pos := by decide }).outcome =
        .error (.noBuffer Packer.indexLimit) := by
  constructor
  · rw [encodeBuffered_default, encode_chainDraft]
  · rw [encodeBuffered_of_le (Nat.le_refl _) rfl]

end Schema

end WireSchema
