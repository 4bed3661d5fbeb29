import WireSchema.Proofs.Codec.Canonical
import WireSchema.Proofs.Text.Decoded

/-!
# Codec — What is read is read again

Whatever bits a value was read from, it is written as a message that is read as the very value
(`exists_message_of_spells`). The message need not be the one that was read: malformed text is
written with replacement characters in its place, and a number that is none becomes quiet.

It is the same value, so the members that the second reading has behind it are those of the first,
and every label and every length is found as before.
-/

namespace WireSchema

variable {schema : Schema}

/-- What was read in single precision is written as bytes that are read as it. -/
theorem Spells.readFloat {siblings : Fields} (bytes : List UInt8) (default? : Option Binary64) :
    Spells schema siblings (.float .f32 default?) (.float (Binary64.ofSingleBytes bytes))
      (Bits.ofBytes (Write.float32Bytes (Binary64.ofSingleBytes bytes)))
      [.float (Binary64.ofSingleBytes bytes)] := by
  have h : Spells schema siblings (.float .f32 default?) _ _ _ :=
    .narrowFloat (Binary64.ofSingleBytes bytes) default?
  rwa [Binary64.ofSingleBytes, Binary64.widen_narrow_widen] at h

mutual

/-- What is read is written, without gaps, as a message of the same value. -/
theorem exists_message_of_spells (hc : schema.Consistent) {siblings : Fields} {t : FieldType}
    {v : Value} {bs : Bits} {raws : List Raw} : Spells schema siblings t v bs raws →
    ∃ cs again, Writes schema false siblings t v cs ∧ Spells schema siblings t v cs again
  | .int hl => ⟨_, _, .integer hl, .int hl⟩
  | .single _ => ⟨_, _, .single rfl, .readFloat _ _⟩
  | .double _ => ⟨_, _, .double rfl, .doubleFloat _ _⟩
  | .text hz => ⟨_, _, .text, .string _ (Charset.canonical_decodeText _ hz)⟩
  | .enum declared hl found => ⟨_, _, .label hc declared hl found, .enum declared hl found⟩
  | .struct declared fields => by
      obtain ⟨cs, again, hw, hs⟩ := exists_messageFields_of_spells hc fields
        (hc.fields_sound declared).names.1
      exact ⟨cs, again, .struct declared (fun _ _ hm => fields.mem_names hm) hw,
        .struct declared hs⟩
  | .array counted elements => by
      obtain ⟨cs, again, hw, hs⟩ := exists_messageElements_of_spells hc elements
      exact ⟨cs, again, .array counted (fun _ => rfl) hw, .array counted hs⟩
  | .union chosen case value => by
      obtain ⟨cs, again, hw, hs⟩ := exists_message_of_spells hc value
      exact ⟨cs, again, .union chosen case hw, .union chosen case hs⟩

theorem exists_messageElements_of_spells (hc : schema.Consistent) {siblings : Fields}
    {t : FieldType} {items : List Value} {bs : Bits} {raws : List Raw} :
    SpellsElements schema siblings t items bs raws →
    ∃ cs again, WritesElements schema false siblings t items.length items cs ∧
      SpellsElements schema siblings t items cs again
  | .nil => ⟨[], [], .nil, .nil⟩
  | .cons first rest => by
      obtain ⟨cs, again, hw, hs⟩ := exists_message_of_spells hc first
      obtain ⟨ds, more, hws, hss⟩ := exists_messageElements_of_spells hc rest
      exact ⟨cs ++ ds, again ++ more, .cons (.given first.ne_null) hw hws, .cons hs hss⟩

theorem exists_messageFields_of_spells (hc : schema.Consistent)
    {fields : List (Text × FieldType)} {read all : Fields} {bs : Bits} {raws : List Raw} :
    SpellsFields schema fields read all bs raws → (fields.map (·.1)).Nodup →
    ∃ cs again, WritesFields schema false all fields read cs ∧
      SpellsFields schema fields read all cs again
  | .nil, _ => ⟨[], [], .nil, .nil⟩
  | .cons first rest, hn => by
      obtain ⟨hname, hn⟩ := List.nodup_cons.mp hn
      have hg := (rest.get?_of_notMem hname).trans Fields.get?_put_self
      obtain ⟨cs, again, hw, hs⟩ := exists_message_of_spells hc first
      obtain ⟨ds, more, hws, hss⟩ := exists_messageFields_of_spells hc rest hn
      refine ⟨cs ++ ds, again ++ more, .cons ?_ hw hws, .cons hs hss⟩
      rw [hg]
      exact .given first.ne_null

end

end WireSchema
