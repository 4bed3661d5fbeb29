import WireSchema.Proofs.Codec.ReadWalk
import WireSchema.Proofs.Codec.Truncation
import WireSchema.Proofs.RoundTrip

/-!
# Data that ends early

**Truncation.** With a schema that names no field of a struct twice and has no cycles, what is
decoded from the first bytes of some data is a beginning of what is decoded from all of it, and a
failure over the first bytes is the failure over all. Unless the first bytes are cut, they say it
all.

The two runs end according to each other (`Decode.shortens_run`), and neither of them fails for the
nesting of structs (`Decode.run_ne_tooDeep`).
-/

namespace WireSchema

namespace Schema

variable {schema : Schema}

/-- **Truncation.** What the first `k` bytes are decoded as, and what all bytes are. -/
theorem decode_take (hcycles : ∀ cycle, .recursion cycle ∉ schema.inconsistencies)
    (hnames : ∀ s ∈ schema.structs, s.fieldNames.Nodup) (data : Array UInt8) (k : Nat)
    (root : Text) (options : Options) :
    (∀ v?, (schema.decode data root options).outcome = .ok v? →
      ∃ w?, (schema.decode (data.take k) root options).outcome = .ok w? ∧ Value.Begins w? v?) ∧
    (∀ failure, (schema.decode (data.take k) root options).outcome = .error failure →
      (schema.decode data root options).outcome = .error failure) ∧
    ∀ v c, Decode.run schema (data.take k) root = .done v c →
      (schema.decode data root options).outcome = .ok (some v) ∧
        ∃ c', Decode.run schema data root = .done v c' := by
  have ha := acyclic_of_inconsistencies hcycles
  have hpart := Decode.run_ne_tooDeep ha (data.take k) root
  have hwhole := Decode.run_ne_tooDeep ha data root
  have h := Decode.shortens_run hnames data k root
  rw [decode, decode]
  generalize Decode.run schema (data.take k) root = part at h hpart ⊢
  generalize Decode.run schema data root = whole at h hwhole ⊢
  cases h with
  | done =>
      refine ⟨fun v? hv => ?_, fun failure he => ?_, fun v c hd => ?_⟩
      · cases hv
        exact ⟨_, rfl, .part .refl⟩
      · cases he
      · cases hd
        exact ⟨rfl, _, rfl⟩
  | cut hb =>
      refine ⟨fun v? hv => ⟨_, rfl, ?_⟩, fun failure he => ?_, fun v c hd => ?_⟩
      · cases whole with
        | done =>
            cases hv
            exact hb
        | cut =>
            cases hv
            exact hb
        | stopped => cases hv
      · cases he
      · cases hd
  | stopped =>
      refine ⟨fun v? hv => ?_, fun failure he => he, fun v c hd => ?_⟩
      · cases hv
      · cases hd
  -- without recursion there is room for both
  | tooDeep => exact absurd rfl hpart
  | wholeTooDeep => exact absurd rfl hwhole

/-- Two nodes of a chain, cut within the second. -/
theorem chain_decode_take :
    (∀ cycle, .recursion cycle ∉ chain.inconsistencies) ∧
      (∀ s ∈ chain.structs, s.fieldNames.Nodup) ∧
      (∀ v?, (chain.decode chainBytes "Node" {}).outcome = .ok v? →
        ∃ w?, (chain.decode (chainBytes.take 5) "Node" {}).outcome = .ok w? ∧
          Value.Begins w? v?) ∧
      (∀ failure, (chain.decode (chainBytes.take 5) "Node" {}).outcome = .error failure →
        (chain.decode chainBytes "Node" {}).outcome = .error failure) ∧
      ∀ v c, Decode.run chain (chainBytes.take 5) "Node" = .done v c →
        (chain.decode chainBytes "Node" {}).outcome = .ok (some v) ∧
          ∃ c', Decode.run chain chainBytes "Node" = .done v c' := by
  have hcycles : ∀ cycle, .recursion cycle ∉ chain.inconsistencies := by
    intro cycle h
    rw [chain_inconsistencies] at h
    cases h
  have hnames : ∀ s ∈ chain.structs, s.fieldNames.Nodup := by decide
  exact ⟨hcycles, hnames, decode_take hcycles hnames chainBytes 5 "Node" {}⟩

example : (chain.decode (chainBytes.take 5) "Node").outcome =
    .ok (some (.map
      [("length", .int 2), ("kind", .text "node"), ("samples", .list [.int 3, .int (-4)]),
        ("body", .map [("length", .int 0), ("kind", .text "leaf"), ("samples", .list [])])])) :=
  rfl

end Schema

end WireSchema
