import WireSchema.Proofs.Codec.Seeding
import WireSchema.Proofs.Failures

/-!
# What the encoder seeds is the default

**Nothing stands for the default.** A root struct of which nothing is given is encoded exactly if it
has a default, and then as the default is; and the default conforms (`Schema.encode_defaultValue`).

The default of a struct is built for the struct, which must not occur in it again; the encoder
builds that of each field on its own, where it may. That this makes no difference is
`Default.defaultValue_struct_iff`: what is built for a field without fault needs no struct that has
no default, and so not the struct around it, if that has none.
-/

namespace WireSchema

namespace Schema

variable {schema : Schema}

/-- Values of which the same bits are written without a notice are encoded alike, if it is not asked
whether they conform. -/
theorem encode_congr {root : Text} {v w : Value} {bs : Bits} {options : Options}
    (hvalidate : options.validateValues = false)
    (hv : Encode.Accepts (Encode.script schema options.strictArrays root v) bs)
    (hw : Encode.Accepts (Encode.script schema options.strictArrays root w) bs) :
    schema.encode v root options = schema.encode w root options := by
  obtain ⟨one, hone, hnone, hpone⟩ := hv
  obtain ⟨two, htwo, hntwo, hptwo⟩ := hw
  simp only [encode, admits, hvalidate, Bool.false_eq_true, if_false, hone, htwo]
  exact Encode.finish_congr hpone hptwo (hnone.trans hntwo.symm) options root

/-- **What the encoder seeds is the default.** In a consistent schema without empty labels a struct
has a default exactly if it is encoded though nothing of it is given; and then the default conforms,
and it is encoded as nothing is, with the same notices, under all options that do not ask whether
values conform. -/
theorem encode_defaultValue {root : Text} (hschema : schema.inconsistencies = [])
    (hlabels : schema.LabelsNonempty) :
    ((∃ d, schema.defaultValue (.struct root) = .ok d) ↔
      ∃ bytes, (schema.encode (.map []) root).outcome = .ok bytes) ∧
    ∀ d, schema.defaultValue (.struct root) = .ok d →
      schema.conforms (.struct root) d = .ok true ∧
      ∀ options : Options, options.validateValues = false →
        schema.encode d root options = schema.encode (.map []) root options := by
  have hc := Consistent.of_inconsistencies hschema
  have hseeded : ∀ d, schema.defaultValue (.struct root) = .ok d →
      ∃ bs, Writes schema false [] (.struct root) d bs ∧
        ∀ strict, Encode.Accepts (Encode.script schema strict root (.map [])) bs :=
    fun d hd => Encode.accepts_nothing_of_default hc hlabels hd
  have hencode : ∀ d, schema.defaultValue (.struct root) = .ok d → ∀ options : Options,
      options.validateValues = false →
        schema.encode d root options = schema.encode (.map []) root options := by
    intro d hd options hvalidate
    obtain ⟨bs, hw, haccepts⟩ := hseeded d hd
    exact encode_congr hvalidate (Encode.script_of_writes hw) (haccepts _)
  refine ⟨⟨?_, ?_⟩, fun d hd => ⟨?_, hencode d hd⟩⟩
  · rintro ⟨d, hd⟩
    obtain ⟨bs, hw, -⟩ := hseeded d hd
    obtain ⟨bytes, hbytes, -⟩ := encode_of_writes hw
    rw [← hencode d hd {} rfl, hbytes]
    exact ⟨bytes, rfl⟩
  · rintro ⟨bytes, hbytes⟩
    obtain ⟨bs, -, hw, -⟩ := writes_of_encode hbytes
    exact Encode.exists_default_of_writes hw
  · obtain ⟨bs, hw, -⟩ := hseeded d hd
    exact (Conform.conforms_iff_writes hc).mpr ⟨bs, hw⟩

/-- The node that is encoded for nothing is the default one. -/
theorem chain_encode_defaultValue :
    chain.inconsistencies = [] ∧ chain.LabelsNonempty ∧
      ((∃ d, chain.defaultValue (.struct "Node") = .ok d) ↔
        ∃ bytes, (chain.encode (.map []) "Node").outcome = .ok bytes) ∧
      ∀ d, chain.defaultValue (.struct "Node") = .ok d →
        chain.conforms (.struct "Node") d = .ok true ∧
        ∀ options : Options, options.validateValues = false →
          chain.encode d "Node" options = chain.encode (.map []) "Node" options :=
  ⟨chain_inconsistencies, chain_labelsNonempty,
    encode_defaultValue chain_inconsistencies chain_labelsNonempty⟩

example : chain.defaultValue (.struct "Node") =
    .ok (.map [("length", .int 0), ("kind", .text "leaf"), ("samples", .list []),
      ("body", .text "")]) := rfl

example : (chain.encode (.map []) "Node").outcome = .ok #[0, 0, 0] := rfl

/-- Turns that go on inside one another, until one is given that does not. -/
def spiral : Schema where
  structs :=
    [⟨"Turn",
      [("kind", .enum "Kind" false bit none),
        ("inner", .union "kind" "Kind" [("on", .struct "Turn"), ("end", .text .utf8 none)])]⟩]
  enums := [⟨"Kind", [("on", 0), ("end", 1)]⟩]
  names_nodup := by decide

-- consistent, but without a default, and nothing is encoded for nothing
example : spiral.inconsistencies = [] ∧
    spiral.defaultValue (.struct "Turn") = .error (.fault (.endlessDefault "Turn") none) ∧
    (spiral.encode (.map []) "Turn").outcome =
      .error (.fault (.endlessDefault "Turn") (some ⟨"Turn", []⟩)) :=
  ⟨by decide +kernel, rfl, rfl⟩

end Schema

end WireSchema
