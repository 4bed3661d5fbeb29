import WireSchema.Proofs.Codec.Completion
import WireSchema.Proofs.Codec.Partial
import WireSchema.Proofs.Codec.WriteWalk
import WireSchema.Proofs.RoundTrip
import WireSchema.Proofs.Sizes

/-!
# Conformance

**What is decoded conforms exactly if it is complete.** Of a consistent schema, a message that is
read to its end yields a value that conforms to the root struct. Data that ends early, wherever it
does, yields a value that does not, or none.

**What conforms is encoded.** A value that conforms is encoded as the same bytes under all options
that allow for their number. No element is dropped and no default is asked for.

**A partial value is encoded as its completion.** What is missing in a value and what is too much of
it make no difference to its bytes: the value with the defaults filled in and the rest dropped
conforms, and is encoded as the same.

All rest on what the check decides (`Conform.conforms_iff_writes`): whether the value is written
without gaps. What the decoder has read to its end is so written (`exists_writes_of_spells`), and
what it has not is not (`Decode.not_writes_of_run`). What is, the encoder accepts whatever its
options (`Schema.exists_encode`), and wherever it comes it finds no gap
(`Encode.not_gap_of_writes`). What is written with gaps is so written for the completion
(`Complete.exact_of_writes`).
-/

namespace WireSchema

variable {schema : Schema}

/-! ### The encoder comes to no gap -/

namespace Encode

/-- What is to be written from a position on is written without gaps. -/
def Task.Exact (schema : Schema) : Task → Prop
  | value _ written t _ v => ∃ bs, Writes schema false written t v bs
  | elements _ written t _ _ count items =>
      ∃ bs, WritesElements schema false written t count items bs
  | fields members left _ _ written => ∃ bs, WritesFields schema false members left written bs

theorem Leads.exact {a b : Task} (h : Leads schema a b) (exact : a.Exact schema) :
    b.Exact schema := by
  cases h with
  | array counted =>
      obtain ⟨bs, hw⟩ := exact
      cases hw with
      | array counted' _ elements =>
          cases counted.symm.trans counted'
          exact ⟨_, elements⟩
  | case chosen case =>
      obtain ⟨bs, hw⟩ := exact
      cases hw with
      | union chosen' case' value =>
          cases chosen.symm.trans chosen'
          cases case.symm.trans case'
          exact ⟨_, value⟩
  | element stands =>
      obtain ⟨bs, hw⟩ := exact
      cases hw with
      | cons stands' first _ =>
          cases stands.unique stands'
          exact ⟨_, first⟩
  | nextElement =>
      obtain ⟨bs, hw⟩ := exact
      cases hw with
      | cons _ _ rest => exact ⟨_, rest⟩
  | field stands =>
      obtain ⟨bs, hw⟩ := exact
      cases hw with
      | cons stands' first _ =>
          cases stands.unique stands'
          exact ⟨_, first⟩
  | nextField stands =>
      obtain ⟨bs, hw⟩ := exact
      cases hw with
      | cons stands' _ rest =>
          cases stands.unique stands'
          exact ⟨_, rest⟩

theorem Opens.exact {a b : Task} (h : Opens schema a b) (exact : a.Exact schema) :
    b.Exact schema := by
  cases h with
  | struct declared =>
      obtain ⟨bs, hw⟩ := exact
      cases hw with
      | struct declared' _ fields =>
          cases declared.symm.trans declared'
          exact ⟨_, fields⟩

end Encode

/-! ### Complete reads -/

/-- Whether what is read is read to its end. -/
def Decoding.complete : Decoding → Bool
  | done .. => true
  | _ => false

namespace Decode

/-- The root struct of what is decoded is declared. -/
theorem declared_of_run {data : Array UInt8} {root : Text}
    (h : ∀ failure, run schema data root ≠ .stopped failure) :
    ∃ s, schema.struct? root = some s := by
  cases hs : schema.struct? root with
  | some s => exact ⟨s, rfl⟩
  | none =>
      refine absurd ?_ (h (.fault (.unknownStruct root) (some (Path.ofRoot root))))
      rw [run, ofStruct.eq_def]
      dsimp only
      rw [hs]
      rfl

/-- The end of the data is reported where it cut the read. -/
theorem complete_eq_false_iff {options : Options} {root : Text} {size : Nat} {d : Decoding}
    {v? : Option Value} (h : (finish options root size d).outcome = .ok v?) :
    d.complete = false ↔
      ∃ position, .dataCut root position ∈ (finish options root size d).notices := by
  cases d with
  | done v rest =>
      refine ⟨Bool.noConfusion, fun ⟨position, hm⟩ => ?_⟩
      rw [finish] at hm
      dsimp only at hm
      split at hm
      · cases List.mem_singleton.mp hm
      · cases hm
  | cut read? rest notices =>
      exact ⟨fun _ => ⟨rest.position, List.mem_append_right _ (List.mem_singleton.mpr rfl)⟩,
        fun _ => rfl⟩
  | stopped failure => cases h

end Decode

namespace Schema

/-- **What is decoded conforms exactly if it is complete.** Whatever the bytes, if decoding them
does not fail, the check of what comes out, or of null where nothing does, answers whether the
message was read to its end; and if it was not, the decoder reports that the data was cut. -/
theorem conforms_eq_complete {data : Array UInt8} {root : Text} {options : Options}
    {v? : Option Value} (hschema : schema.inconsistencies = [])
    (hdecode : (schema.decode data root options).outcome = .ok v?) :
    schema.conforms (.struct root) (v?.getD .null) =
        .ok (Decode.run schema data root).complete ∧
      ((Decode.run schema data root).complete = false ↔
        ∃ position, .dataCut root position ∈ (schema.decode data root options).notices) := by
  refine ⟨?_, Decode.complete_eq_false_iff hdecode⟩
  have hc := Consistent.of_inconsistencies hschema
  rw [decode] at hdecode
  cases hrun : Decode.run schema data root with
  | done v c =>
      rw [hrun] at hdecode
      cases hdecode
      obtain ⟨bs, raws, hs, -⟩ := Decode.spells_of_run hrun
      obtain ⟨cs, hw, -⟩ := exists_writes_of_spells hc hs
      exact (Conform.conforms_iff_writes hc).mpr ⟨cs, hw⟩
  | cut w? c notices =>
      rw [hrun] at hdecode
      cases hdecode
      have hends : ∀ failure, Decode.run schema data root ≠ .stopped failure := by
        intro failure hf
        rw [hrun] at hf
        cases hf
      obtain ⟨s, declared⟩ := Decode.declared_of_run hends
      obtain ⟨b, hb⟩ := Conform.exists_conforms hc declared (v?.getD .null)
      cases b with
      | false => exact hb
      | true =>
          obtain ⟨bs, hw⟩ := Conform.writes_of_conforms hc hb
          exact absurd hw (Decode.not_writes_of_run hc hrun bs)
  | stopped failure =>
      rw [hrun] at hdecode
      cases hdecode

/-- What is left of `chainValue` when its bytes end in the text. -/
def chainPart : Value :=
  .map
    [("length", .int 2), ("kind", .text "node"), ("samples", .list [.int 3, .int (-4)]),
      ("body",
        .map [("length", .int 0), ("kind", .text "leaf"), ("samples", .list [])])]

/-- The first bytes of a chain do not conform. -/
theorem chainPart_conforms_eq_complete :
    chain.inconsistencies = [] ∧
      (chain.decode (chainBytes.take 5) "Node").outcome = .ok (some chainPart) ∧
      chain.conforms (.struct "Node") chainPart =
        .ok (Decode.run chain (chainBytes.take 5) "Node").complete ∧
      ((Decode.run chain (chainBytes.take 5) "Node").complete = false ↔
        ∃ position, .dataCut "Node" position ∈
          (chain.decode (chainBytes.take 5) "Node").notices) := by
  have hdecode : (chain.decode (chainBytes.take 5) "Node").outcome = .ok (some chainPart) := rfl
  exact ⟨chain_inconsistencies, hdecode, conforms_eq_complete chain_inconsistencies hdecode⟩

theorem completion_of_writes (hc : schema.Consistent) {root : Text} {p : Value} {bs : Bits}
    (h : Writes schema true [] (.struct root) p bs) :
    ∃ c, schema.completion root p = .ok c ∧ Writes schema false [] (.struct root) c bs := by
  have agree : Siblings.Agree [] [] [] := .nil
  obtain ⟨c, hcompletion, hw, -⟩ :=
    Complete.exact_of_writes hc h h.sound_struct agree (Nat.le_refl p.depth)
  exact ⟨c, hcompletion, hw⟩

/-- **A partial value is encoded as its completion.** Of a value that is encoded, complete or not,
the completion conforms, and it is encoded as the same bytes under all options that allow for their
number, without a notice but that of the end. -/
theorem encode_completion {root : Text} {p : Value} {bytes : Array UInt8}
    (hschema : schema.inconsistencies = []) (hencode : (schema.encode p root).outcome = .ok bytes) :
    ∃ c bits, schema.completion root p = .ok c ∧ schema.conforms (.struct root) c = .ok true ∧
      (∃ notices, schema.encode p root = ⟨notices ++ [.encoded root bits], .ok bytes⟩) ∧
      ∀ options : Options, (∀ limit, options.maxBytes = some limit → bytes.size ≤ limit) →
        schema.encode c root options = ⟨[.encoded root bits], .ok bytes⟩ := by
  have hc := Consistent.of_inconsistencies hschema
  obtain ⟨bs, notices, hp, hreport, -, hbytes⟩ := writes_of_encode hencode
  obtain ⟨c, hcompletion, hw⟩ := completion_of_writes hc hp
  have hconforms := (Conform.conforms_iff_writes hc).mpr ⟨bs, hw⟩
  obtain ⟨bytes', -, hbytes', henc⟩ := exists_encode hw
  -- both are the same bits, filled up to whole bytes
  obtain rfl := Array.toList_inj.mp (Bits.ofBytes_inj (hbytes'.trans hbytes.symm))
  exact ⟨c, bs.length, hcompletion, hconforms, ⟨notices, hreport⟩,
    fun options hroom => henc options hroom fun _ => hconforms⟩

/-- The draft of two nodes, completed. -/
def chainDraftCompletion : Value :=
  .map
    [("length", .int 2), ("kind", .text "node"), ("samples", .list [.int 3, .int 0]),
      ("body",
        .map [("length", .int 0), ("kind", .text "leaf"), ("samples", .list []),
          ("body", .text "")])]

set_option maxRecDepth 2000 in
/-- The draft is encoded as its completion. -/
theorem chainDraft_encode_completion :
    chain.inconsistencies = [] ∧
      (chain.encode chainDraft "Node").outcome = .ok chainDraftBytes ∧
      chain.completion "Node" chainDraft = .ok chainDraftCompletion ∧
      ∃ c bits, chain.completion "Node" chainDraft = .ok c ∧
        chain.conforms (.struct "Node") c = .ok true ∧
        (∃ notices, chain.encode chainDraft "Node" =
          ⟨notices ++ [.encoded "Node" bits], .ok chainDraftBytes⟩) ∧
        ∀ options : Options,
          (∀ limit, options.maxBytes = some limit → chainDraftBytes.size ≤ limit) →
          chain.encode c "Node" options = ⟨[.encoded "Node" bits], .ok chainDraftBytes⟩ := by
  have hencode : (chain.encode chainDraft "Node").outcome = .ok chainDraftBytes := rfl
  exact ⟨chain_inconsistencies, hencode, rfl, encode_completion chain_inconsistencies hencode⟩

end Schema

end WireSchema
