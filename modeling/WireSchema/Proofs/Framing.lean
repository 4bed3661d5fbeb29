import WireSchema.Proofs.Codec.Wire
import WireSchema.Proofs.RoundTrip
import WireSchema.Proofs.Sizes

/-!
# Framing

**Framing.** What a value of a consistent schema is encoded as, whatever is missing from the value
and whatever does not fit its field, is read to the last bit as what was written
(`Schema.decode_rereads_iff`), exactly if every length of an array says on the wire the count with
which the array is written. A length that does not fit its field need not: the array is written with
the count that was given and read with the one that the field was left with.

Texts in UTF-8 are taken to have no zero character, for that ends a text on the wire.
-/

namespace WireSchema

namespace Schema

variable {schema : Schema}

/-- What has been written is read again, to the last bit, if all lengths keep their counts. -/
theorem decode_of_framed (hc : schema.Consistent) {root : Text} {v : Value} {bs : Bits}
    {bytes : Array UInt8} (hw : Writes schema true [] (.struct root) v bs)
    (hbytes : Bits.ofBytes bytes.toList = bs.padded)
    (framed : Encode.Framed schema (.start root v)) :
    ∃ w c, Decode.run schema bytes root = .done w c ∧ c.position = bs.length ∧
      schema.decode bytes root = ⟨[], .ok (some w)⟩ ∧ Rereads schema [] (.struct root) v w := by
  have wire : Siblings.OnWire [] [] [] := .nil
  obtain ⟨w, raws, hs, hr⟩ := spells_of_framed hc hw hw.sound_struct wire framed
  obtain ⟨c, hrun, hpos, hdec⟩ := decode_of_spells hc hs hbytes
  exact ⟨w, c, hrun, hpos, hdec, hr⟩

/-- **Framing.** A value that is encoded is read again, nothing missing and nothing left, exactly if
all lengths keep their counts on the wire. -/
theorem decode_rereads_iff {root : Text} {v : Value} {bytes : Array UInt8}
    (hschema : schema.inconsistencies = []) (hencode : (schema.encode v root).outcome = .ok bytes)
    (htexts : Encode.ZeroFree schema (.start root v)) :
    ∃ notices bits, schema.encode v root = ⟨notices ++ [.encoded root bits], .ok bytes⟩ ∧
      ((∃ w c, Decode.run schema bytes root = .done w c ∧ c.position = bits ∧
        schema.decode bytes root = ⟨[], .ok (some w)⟩ ∧
        Rereads schema [] (.struct root) v w) ↔ Encode.KeepsCounts schema (.start root v)) := by
  have hc := Consistent.of_inconsistencies hschema
  obtain ⟨bs, notices, hw, hreport, -, hbytes⟩ := writes_of_encode hencode
  refine ⟨notices, bs.length, hreport, ?_, fun hcounts =>
    decode_of_framed hc hw hbytes ⟨hcounts, htexts⟩⟩
  rintro ⟨w, c, hrun, -, -, hr⟩
  obtain ⟨_, _, hs, -⟩ := Decode.spells_of_run hrun
  exact Encode.keepsCounts_of_reread hc ⟨[], w, _, _, hw.sound_struct, .nil, hs, hr⟩

theorem chain_names_nodup : ∀ s ∈ chain.structs, s.fieldNames.Nodup := by decide

set_option maxRecDepth 2000 in
/-- A draft of two nodes is read again if its lengths keep their counts. -/
theorem chainDraft_rereads_iff :
    chain.inconsistencies = [] ∧
      (chain.encode chainDraft "Node").outcome = .ok chainDraftBytes ∧
      Encode.ZeroFree chain (.start "Node" chainDraft) ∧
      ∃ notices bits, chain.encode chainDraft "Node" =
          ⟨notices ++ [.encoded "Node" bits], .ok chainDraftBytes⟩ ∧
        ((∃ w c, Decode.run chain chainDraftBytes "Node" = .done w c ∧ c.position = bits ∧
          chain.decode chainDraftBytes "Node" = ⟨[], .ok (some w)⟩ ∧
          Rereads chain [] (.struct "Node") chainDraft w) ↔
          Encode.KeepsCounts chain (.start "Node" chainDraft)) := by
  have hencode : (chain.encode chainDraft "Node").outcome = .ok chainDraftBytes := rfl
  have htexts : Encode.ZeroFree chain (.start "Node" chainDraft) :=
    Encode.zeroFree_of_texts chain_names_nodup (by decide +kernel) (by decide +kernel)
  exact ⟨chain_inconsistencies, hencode, htexts,
    decode_rereads_iff chain_inconsistencies hencode htexts⟩

/-- Where every integer fits its field, whatever is encoded is read again. -/
theorem decode_rereads_of_fits {root : Text} {v : Value} {bytes : Array UInt8}
    (hschema : schema.inconsistencies = []) (hencode : (schema.encode v root).outcome = .ok bytes)
    (htexts : Encode.ZeroFree schema (.start root v))
    (hfits : Walk.Always (Encode.Leads schema) (Encode.Opens schema) Encode.Task.Fits
      (.start root v)) :
    ∃ notices bits w c, schema.encode v root = ⟨notices ++ [.encoded root bits], .ok bytes⟩ ∧
      Decode.run schema bytes root = .done w c ∧ c.position = bits ∧
      schema.decode bytes root = ⟨[], .ok (some w)⟩ ∧ Rereads schema [] (.struct root) v w := by
  obtain ⟨bs, notices, hw, hreport, -, hbytes⟩ := writes_of_encode hencode
  obtain ⟨w, c, hdecode⟩ := decode_of_framed (Consistent.of_inconsistencies hschema) hw hbytes
    ⟨Encode.keepsCounts_of_fits hfits, htexts⟩
  exact ⟨notices, bs.length, w, c, hreport, hdecode⟩

/-! ### A length that does not fit -/

/-- A negative count is written as none, and read as another. -/
example :
    counted.inconsistencies = [] ∧
      counted.encode (.map [("count", .int (-1)), ("items", .list [])]) "Counted" =
        ⟨[.encoded "Counted" 8], .ok #[255]⟩ ∧
      (counted.decode #[255] "Counted").outcome = .ok (some (.map [("count", .int 255)])) := by
  refine ⟨by decide +kernel, rfl, rfl⟩

end Schema

end WireSchema
