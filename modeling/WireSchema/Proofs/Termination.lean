import WireSchema.Proofs.Codec.Measuring
import WireSchema.Proofs.Codec.Unbounded
import WireSchema.Proofs.Codec.WriteUnbounded

/-!
# Termination

Structs may contain themselves: in cases of unions and in arrays of dynamic length, and anywhere in
a schema that has not been checked. To read, write, build or measure a struct is to do so with the
structs inside it, and neither types nor values alone show that this ends. That it does is stated
here in three parts: the equation that says so has one solution, what the codec computes is that
solution and never runs into its bound, and the structs opened inside one another are counted.

* **Decoding** (`Schema.decode_ends`) ends in schemas without cycles, and in `L` bytes no more than
  `(8 * L + 1) * N` of the `N` structs are opened inside one another. What a label or a count has
  chosen lies behind at least one bit that was read in the same struct, and a struct that is
  embedded without such a choice has fewer structs below it (`Decode.Room`). The bound adds up the
  two.
* **Defaults and sizes** (`Schema.defaults_and_sizes_end`) end in every schema. No struct is built
  inside itself, and none of which nothing is known is measured inside itself, so no more than `N`
  of them lie inside one another (`Default.openings_le`, `Size.openings_le`).
* **Encoding** (`Schema.encode_ends`) ends where no struct names a field twice. A gap is filled with
  a default, and a default has no gaps, so the nesting is that of the value and of one default
  (`Encode.openings_le`).
-/

namespace WireSchema

namespace Schema

variable {schema : Schema}

/-- **Termination.** Of a schema without cycles there is exactly one reader of structs that knows no
bound on their nesting. It reads every message as the decoder does, with whatever bound from
`(8 * L + 1) * N` on; and nowhere in the message more structs are opened inside one another. -/
theorem decode_ends (hcycles : ∀ cycle, .recursion cycle ∉ schema.inconsistencies) :
    ∃ reader, Decode.Unbounded schema reader ∧
      (∀ other, Decode.Unbounded schema other → other = reader) ∧
      ∀ (data : Array UInt8) (root : Text),
        Decode.run schema data root = reader root (Path.ofRoot root) (Cursor.ofBytes data) ∧
        Decode.run schema data root ≠ .stopped .tooDeep ∧
        (∀ depth, (8 * data.size + 1) * schema.structs.length ≤ depth →
          Decode.ofStruct schema depth root (Path.ofRoot root) (Cursor.ofBytes data) =
            Decode.run schema data root) ∧
        ∀ n task, Decode.Reaches schema n (.start data root) task →
          n ≤ (8 * data.size + 1) * schema.structs.length := by
  have ha := acyclic_of_inconsistencies hcycles
  refine ⟨Decode.reader schema, Decode.unbounded_reader ha, fun _ h => h.eq_reader ha,
    fun data root => ⟨Decode.run_eq_reader data root, Decode.run_ne_tooDeep ha data root,
      fun depth h => ?_, fun _ _ walk => Decode.openings_le ha walk⟩⟩
  rw [Decode.run_eq_reader]
  exact Decode.ofStruct_eq_reader ha h root _

/-- Nodes with as many nodes below them as they say, twice and in different widths, and with a tail
that is not declared. -/
def thicket : Schema where
  structs :=
    [⟨"Node",
      [("count", .int false byte none),
        ("count", .int false bit none),
        ("nodes", .array (.struct "Node") (.dynamic "count")), ("tail", .struct "Tail")]⟩]
  enums := []
  names_nodup := by decide

theorem thicket_inconsistencies :
    thicket.inconsistencies =
      [.duplicateField ⟨"Node", "count", []⟩, .undefinedStruct ⟨"Node", "tail", []⟩ "Tail"] := by
  decide +kernel

/-- Decoding ends in a thicket, whatever else is wrong with it. -/
theorem thicket_decode_ends :
    (∀ cycle, .recursion cycle ∉ thicket.inconsistencies) ∧
      ∃ reader, Decode.Unbounded thicket reader ∧
        (∀ other, Decode.Unbounded thicket other → other = reader) ∧
        ∀ (data : Array UInt8) (root : Text),
          Decode.run thicket data root = reader root (Path.ofRoot root) (Cursor.ofBytes data) ∧
          Decode.run thicket data root ≠ .stopped .tooDeep ∧
          (∀ depth, (8 * data.size + 1) * thicket.structs.length ≤ depth →
            Decode.ofStruct thicket depth root (Path.ofRoot root) (Cursor.ofBytes data) =
              Decode.run thicket data root) ∧
          ∀ n task, Decode.Reaches thicket n (.start data root) task →
            n ≤ (8 * data.size + 1) * thicket.structs.length := by
  have hcycles : ∀ cycle, .recursion cycle ∉ thicket.inconsistencies := by
    intro cycle h
    rw [thicket_inconsistencies] at h
    simp at h
  exact ⟨hcycles, decode_ends hcycles⟩

/-- **Termination.** Of whatever schema there is exactly one builder of structs that knows no bound
on their nesting, and in each mode exactly one measurer. Every type among every siblings is built
and measured with them, as it is with whatever bound that allows for each struct once, and for the
depth of the value that is measured. Where nothing is known of a struct, a bound of as many structs
as there are does; and wherever building or measuring comes, no more than those have been opened
inside one another without a value. -/
theorem defaults_and_sizes_end (schema : Schema) :
    (∃ builder, Default.Unbounded schema builder ∧
      (∀ other, Default.Unbounded schema other → other = builder) ∧
      ∀ (t : FieldType) (siblings : Fields),
        schema.defaultValue t siblings = Default.ofType schema (builder []) siblings t ∧
        schema.defaultValue t siblings ≠ .error .tooDeep ∧
        (∀ depth, schema.structs.length ≤ depth →
          Default.ofType schema (Default.ofStruct schema depth []) siblings t =
            schema.defaultValue t siblings) ∧
        ∀ n task, Default.Reaches schema n (.value [] siblings t) task →
          n ≤ schema.structs.length) ∧
    ∀ mode, ∃ measurer, Size.Unbounded schema mode measurer ∧
      (∀ other, Size.Unbounded schema mode other → other = measurer) ∧
      (∀ visiting name v, (∀ members, v ≠ .map members) →
        Size.ofStruct schema mode schema.structs.length visiting name v =
          measurer visiting name v) ∧
      ∀ (t : FieldType) (v : Value) (siblings : Fields),
        schema.sizeOf t mode v siblings = Size.ofType schema mode (measurer []) siblings t v ∧
        schema.sizeOf t mode v siblings ≠ .error .tooDeep ∧
        (∀ depth, v.depth + schema.structs.length ≤ depth →
          Size.ofType schema mode (Size.ofStruct schema mode depth []) siblings t v =
            schema.sizeOf t mode v siblings) ∧
        ∀ n task, Size.Reaches schema mode n (.value [] siblings t v) task →
          n ≤ schema.structs.length := by
  have hle := unentered_le schema []
  refine ⟨⟨Default.builder schema, Default.unbounded_builder schema, fun _ h => h.eq_builder,
    fun t siblings => ⟨Default.defaultValue_eq t siblings,
      Default.defaultValue_ne_tooDeep t siblings,
      fun depth h => Default.ofType_eq_defaultValue h t siblings,
      fun _ _ walk => (Default.openings_le walk).trans hle⟩⟩,
    fun mode => ⟨Size.measurer schema mode, Size.unbounded_measurer schema mode,
      fun _ h => h.eq_measurer,
      fun visiting name _ hv => (Size.alike_of_unknown (Nat.le_refl _) visiting name hv).1,
      fun t v siblings => ?_⟩⟩
  have halike := Size.alike_sizeOf schema t mode v siblings
  refine ⟨halike.1, halike.2, fun depth h => ?_,
    fun _ _ walk => (Size.openings_le walk).trans hle⟩
  exact (Size.alike_ofType_measurer h t siblings).1.trans halike.1.symm

/-- **Termination.** Where no struct names a field twice, there is exactly one writer of structs
that knows no bound on their nesting. It writes every value as the encoder does, with whatever bound
that allows for the depth of the value and for each struct once; nowhere in the value more structs
are opened inside one another; and encoding gives bytes or finds a fault. -/
theorem encode_ends (hnames : ∀ s ∈ schema.structs, s.fieldNames.Nodup) (options : Options) :
    ∃ writer, Encode.Unbounded schema options.strictArrays writer ∧
      (∀ other, Encode.Unbounded schema options.strictArrays other → other = writer) ∧
      ∀ (v : Value) (root : Text),
        Encode.script schema options.strictArrays root v = writer root (Path.ofRoot root) v ∧
        (∀ depth, v.depth + schema.structs.length ≤ depth →
          Encode.ofStruct schema options.strictArrays depth root (Path.ofRoot root) v =
            Encode.script schema options.strictArrays root v) ∧
        (∀ n task, Encode.Reaches schema n (.start root v) task →
          n ≤ v.depth + schema.structs.length) ∧
        ((∃ bytes, (schema.encode v root options).outcome = .ok bytes) ∨
          ∃ cause path?,
            (schema.encode v root options).outcome = .error (.fault cause path?)) := by
  refine ⟨Encode.writer schema options.strictArrays, Encode.unbounded_writer hnames,
    fun _ h => h.eq_writer hnames, fun v root => ⟨Encode.script_eq_writer hnames root v,
      fun depth hroom => ?_, fun _ _ walk => Encode.openings_le hnames walk,
      bytes_or_fault_of_encode hnames v root options⟩⟩
  rw [Encode.script_eq_writer hnames]
  exact Encode.ofStruct_eq_writer hnames hroom root (Path.ofRoot root)

/-- A knot that cannot be untied, with an end that is not declared. -/
def knot : Schema where
  structs := [⟨"Knot", [("rope", .struct "Knot"), ("end", .struct "End")]⟩]
  enums := []
  names_nodup := by decide

/-- Encoding ends in a knot, and what is not given is not untied. -/
theorem knot_encode_ends :
    (∀ s ∈ knot.structs, s.fieldNames.Nodup) ∧
      ∃ writer, Encode.Unbounded knot false writer ∧
        (∀ other, Encode.Unbounded knot false other → other = writer) ∧
        ∀ (v : Value) (root : Text),
          Encode.script knot false root v = writer root (Path.ofRoot root) v ∧
          (∀ depth, v.depth + knot.structs.length ≤ depth →
            Encode.ofStruct knot false depth root (Path.ofRoot root) v =
              Encode.script knot false root v) ∧
          (∀ n task, Encode.Reaches knot n (.start root v) task →
            n ≤ v.depth + knot.structs.length) ∧
          ((∃ bytes, (knot.encode v root).outcome = .ok bytes) ∨
            ∃ cause path?, (knot.encode v root).outcome = .error (.fault cause path?)) := by
  have hnames : ∀ s ∈ knot.structs, s.fieldNames.Nodup := by decide
  exact ⟨hnames, encode_ends hnames {}⟩

example : (knot.encode (.map []) "Knot").outcome =
    .error (.fault (.endlessDefault "Knot") (some ⟨"Knot", []⟩)) := rfl

end Schema

end WireSchema
