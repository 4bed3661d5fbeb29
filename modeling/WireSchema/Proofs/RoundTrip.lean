import WireSchema.Proofs.Codec.Reading
import WireSchema.Proofs.Codec.Rereading

/-!
# Encoding and decoding undo each other

**Decoding undoes encoding.** Of a consistent schema, a conforming value whose scalars are canonical
is encoded, and what is decoded from its bytes is the value again; the decoder stops where the
encoder did.

**Encoding undoes decoding.** What is decoded to completion from any bytes whose strings and floats
are clean is encoded as the bits that were read.

**Decoding normalises.** What is decoded to completion from any bytes at all is encoded, if perhaps
as other bits, and what is decoded from these is the value again.

All go through the grammar of messages. The encoder writes a canonical value as a message
(`spells_of_writes`) and the decoder reads every message as what it spells (`Decode.run_of_spells`);
what the decoder reads is a message (`Decode.spells_of_run`), and a clean message is what its value
is written as (`writes_of_spells`). Of a message that is not clean the value is written as another
message of it (`exists_message_of_spells`).
-/

namespace WireSchema

namespace Schema

variable {schema : Schema}

/-- The bytes of a message and the zeros behind it are read as the message, to its last bit. -/
theorem decode_of_spells (hc : schema.Consistent) {root : Text} {v : Value} {bs : Bits}
    {raws : List Raw} (h : Spells schema [] (.struct root) v bs raws) {bytes : Array UInt8}
    (hb : Bits.ofBytes bytes.toList = bs.padded) :
    ∃ c, Decode.run schema bytes root = .done v c ∧ c.position = bs.length ∧
      schema.decode bytes root = ⟨[], .ok (some v)⟩ := by
  obtain ⟨c, ht, hrest⟩ := Cursor.Takes.of_rest ((Cursor.rest_ofBytes bytes).trans hb)
  have hrun := Decode.run_of_spells hc h ht
  have hrem : c.remaining < 8 := by
    rw [← Cursor.length_rest, hrest, List.length_replicate]
    omega
  refine ⟨c, hrun, ?_, ?_⟩
  · rw [ht.position_eq]
    exact Nat.zero_add _
  · have hfew : decide (8 ≤ c.remaining) = false := decide_eq_false (by omega)
    rw [decode, hrun, Decode.finish, hfew]
    rfl

/-- **Decoding undoes encoding.** A canonical value is encoded into some number of bits, and
decoding the bytes reads as many and gives the value again, the members of its maps perhaps in
another order, with nothing cut short and nothing left. -/
theorem decode_undoes_encode {root : Text} {v : Value} (hschema : schema.inconsistencies = [])
    (hconforms : schema.conforms (.struct root) v = .ok true)
    (hcanonical : schema.Canonical [] (.struct root) v) :
    ∃ bytes bits w c, schema.encode v root = ⟨[.encoded root bits], .ok bytes⟩ ∧
      Decode.run schema bytes root = .done w c ∧ c.position = bits ∧
      schema.decode bytes root = ⟨[], .ok (some w)⟩ ∧ v.Same w := by
  have hc := Consistent.of_inconsistencies hschema
  obtain ⟨bs, hw⟩ := Conform.writes_of_conforms hc hconforms
  obtain ⟨bytes, henc, -, hbytes⟩ := encode_of_writes hw
  obtain ⟨w, raws, hs, hsame⟩ := spells_of_writes hc hw hw.sound_struct .nil .nil hcanonical
  obtain ⟨c, hrun, hpos, hdec⟩ := decode_of_spells hc hs hbytes
  exact ⟨bytes, bs.length, w, c, henc, hrun, hpos, hdec, hsame⟩

/-- Two nodes of a chain come back. -/
theorem chain_decode_undoes_encode :
    chain.inconsistencies = [] ∧ chain.conforms (.struct "Node") chainValue = .ok true ∧
      chain.Canonical [] (.struct "Node") chainValue ∧
      ∃ bytes bits w c, chain.encode chainValue "Node" = ⟨[.encoded "Node" bits], .ok bytes⟩ ∧
        Decode.run chain bytes "Node" = .done w c ∧ c.position = bits ∧
        chain.decode bytes "Node" = ⟨[], .ok (some w)⟩ ∧ chainValue.Same w :=
  ⟨chain_inconsistencies, rfl, canonical_chainValue,
    decode_undoes_encode chain_inconsistencies rfl canonical_chainValue⟩

/-- **Encoding undoes decoding.** What has been read to completion spells the value, with the
strings and floats that it was read from; where these are clean, the value is encoded as the bits
that were read, filled up with zeros to whole bytes. -/
theorem encode_undoes_decode {root : Text} {data : Array UInt8} {v : Value} {c : Cursor}
    (hschema : schema.inconsistencies = []) (hrun : Decode.run schema data root = .done v c) :
    (∃ raws, Spells schema [] (.struct root) v
      ((Bits.ofBytes data.toList).take c.position) raws) ∧
    ∀ raws, Spells schema [] (.struct root) v ((Bits.ofBytes data.toList).take c.position) raws →
      (∀ raw ∈ raws, raw.Clean) →
      ∃ bytes, schema.encode v root = ⟨[.encoded root c.position], .ok bytes⟩ ∧
        Bits.ofBytes bytes.toList = Bits.padded ((Bits.ofBytes data.toList).take c.position) := by
  have hc := Consistent.of_inconsistencies hschema
  obtain ⟨bs, raws, hs, ht⟩ := Decode.spells_of_run hrun
  have hpos : c.position = bs.length := ht.position_eq.trans (Nat.zero_add _)
  have hbs : (Bits.ofBytes data.toList).take c.position = bs := by
    have hrest : Bits.ofBytes data.toList = bs ++ c.rest := ht.rest_eq
    rw [hrest, hpos, List.take_left]
  rw [hbs]
  refine ⟨⟨raws, hs⟩, fun raws hs hclean => ?_⟩
  obtain ⟨bytes, henc, -, hbytes⟩ := encode_of_writes (writes_of_spells hc hs hclean)
  rw [hpos]
  exact ⟨bytes, henc, hbytes⟩

/-- The bytes of `chainValue`, with ones in the place of zeros and a byte behind. -/
def chainBytes : Array UInt8 := #[2, 71, 192, 1, 163, 14, 164, 3, 9]

set_option maxRecDepth 1000 in
/-- Two nodes of a chain are read and written again. -/
theorem chain_encode_undoes_decode :
    ∃ c, Decode.run chain chainBytes "Node" = .done chainValue c ∧
      (∃ raws, Spells chain [] (.struct "Node") chainValue
        ((Bits.ofBytes chainBytes.toList).take c.position) raws) ∧
      ∀ raws, Spells chain [] (.struct "Node") chainValue
          ((Bits.ofBytes chainBytes.toList).take c.position) raws →
        (∀ raw ∈ raws, raw.Clean) →
        ∃ bytes, chain.encode chainValue "Node" = ⟨[.encoded "Node" c.position], .ok bytes⟩ ∧
          Bits.ofBytes bytes.toList =
            Bits.padded ((Bits.ofBytes chainBytes.toList).take c.position) := by
  have hrun : Decode.run chain chainBytes "Node" =
    .done chainValue ⟨chainBytes, 62, by decide⟩ := rfl
  exact ⟨_, hrun, encode_undoes_decode chain_inconsistencies hrun⟩

/-- **Decoding normalises.** What has been read to completion from some bytes, be its text malformed
or its numbers none, is encoded into some number of bits, and decoding the bytes reads as many and
gives the very value, with nothing cut short and nothing left. -/
theorem decode_normalises {root : Text} {data : Array UInt8} {v : Value} {c : Cursor}
    (hschema : schema.inconsistencies = []) (hrun : Decode.run schema data root = .done v c) :
    ∃ bytes bits again, schema.encode v root = ⟨[.encoded root bits], .ok bytes⟩ ∧
      Decode.run schema bytes root = .done v again ∧ again.position = bits ∧
      schema.decode bytes root = ⟨[], .ok (some v)⟩ := by
  have hc := Consistent.of_inconsistencies hschema
  obtain ⟨_, _, hread, -⟩ := Decode.spells_of_run hrun
  obtain ⟨bs, raws, hw, hs⟩ := exists_message_of_spells hc hread
  obtain ⟨bytes, henc, -, hbytes⟩ := encode_of_writes hw
  obtain ⟨again, hagain, hpos, hdec⟩ := decode_of_spells hc hs hbytes
  exact ⟨bytes, bs.length, again, henc, hagain, hpos, hdec⟩

/-- A single node whose text has a byte that belongs to no character, and a byte behind. -/
def malformedBytes : Array UInt8 := #[0, 0x1a, 0x3f, 0xc0, 0, 9]

/-- What is read of it is written with a replacement character, and read again. -/
theorem chain_decode_normalises :
    ∃ v c, Decode.run chain malformedBytes "Node" = .done v c ∧
      v.member "body" = .text "h\ufffd" ∧
      ∃ bytes bits again, chain.encode v "Node" = ⟨[.encoded "Node" bits], .ok bytes⟩ ∧
        Decode.run chain bytes "Node" = .done v again ∧ again.position = bits ∧
        chain.decode bytes "Node" = ⟨[], .ok (some v)⟩ := by
  have hrun : Decode.run chain malformedBytes "Node" =
    .done (.map [("length", .int 0), ("kind", .text "leaf"), ("samples", .list []),
      ("body", .text "h\ufffd")]) ⟨malformedBytes, 34, by decide⟩ := rfl
  exact ⟨_, _, hrun, rfl, decode_normalises chain_inconsistencies hrun⟩

end Schema

end WireSchema
