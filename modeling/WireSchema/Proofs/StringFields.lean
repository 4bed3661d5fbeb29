import WireSchema.Proofs.Cursor
import WireSchema.Proofs.Text.Points
import WireSchema.Proofs.Text.Repair

/-!
# Text fields

**A string field ends at its own zero byte, and loses what its charset does not map**
(`Packer.read_text`). Written behind anything and before anything, at whatever bit, a text is read
up to the zero byte written behind it: no byte of a code point is zero but that of NUL, so a reader
that starts at the field finds no other before it. What comes back is the text with a question mark
for every code point that the charset does not map (`Charset.shown`); it is the text itself exactly
if every code point is a character of the charset or the mark.

**Any bytes are read as a text that comes back** (`Charset.decode_settles`), and they come back
themselves exactly if they are well-formed.
-/

namespace WireSchema

namespace Packer

theorem call_text {p : Packer} (h : p.Tidy) (charset : Charset) (points : List CodePoint) :
    ∃ q, p.call (.write (.text charset points)) = (.accepted, q) ∧ q.Tidy ∧
      q.toBits = p.toBits ++ Bits.ofBytes (charset.encode points ++ [0]) :=
  ⟨_, rfl, h.push _, toBits_push h _⟩

/-- **A string field ends at its own zero byte, and loses what its charset does not map.** A text
without NUL, or any text in the Hebrew charset, is accepted wherever a packer stands. From there, in
the bytes of the packer after more calls, a cursor reads it to where the packer stood behind it,
eight bits for each of its bytes and for the one that ends it. It reads a mark for every code point
that is not mapped, so that the text comes back just if each is a character of the charset or the
mark; and the bytes of such characters are those of texts. -/
theorem read_text {capacity : Int} (hcapacity : 1 ≤ capacity) {charset : Charset}
    {points : List CodePoint} (hnul : charset = .utf8 → ∀ x ∈ points, x.val ≠ 0)
    (before after : List Call) :
    ∃ start p q r, withCapacity? capacity = .ok start ∧ (run call start before).2 = p ∧
      p.call (.write (.text charset points)) = (.accepted, q) ∧ (run call q after).2 = r ∧
      (∃ (c d : Cursor) (chars : List Char), c.data = r.toBytes ∧ c.position = p.length ∧
        c.read (.text charset) = .ok (some (.text chars), d) ∧ d.position = q.length ∧
        d.position = c.position + 8 * ((charset.encode points).length + 1) ∧
        chars.map CodePoint.ofChar = points.map charset.shown ∧
        (chars.map CodePoint.ofChar = points ↔
          ∀ x ∈ points, charset.isTextChar [x] = true ∨ x = .mark)) ∧
      ((∀ x ∈ points, charset.isTextChar [x] = true) →
        ∀ b ∈ charset.encode points, charset.isTextByte b.toNat = true) := by
  have hstart := tidy_withCapacity capacity.toNat (by omega)
  obtain ⟨hp, -⟩ := exists_run hstart before
  obtain ⟨q, hcall, hq, hqbits⟩ := call_text hp charset points
  obtain ⟨hr, more, hrbits⟩ := exists_run hq after
  rw [hqbits, List.append_assoc] at hrbits
  obtain ⟨c, hdata, hposition, zeros, hrest⟩ := exists_cursor hr hrbits
  rw [List.append_assoc] at hrest
  obtain ⟨d, htakes, htext⟩ :=
    Cursor.exists_text? hrest (Charset.zero_not_mem_encode hnul) charset
  have hread : c.read (.text charset) =
      .ok (some (.text (charset.decode (charset.encode points))), d) := by
    rw [Cursor.read, htext]
  have hlength : d.position = c.position + 8 * ((charset.encode points).length + 1) := by
    rw [htakes.position_eq, Bits.length_ofBytes, List.length_append]
    rfl
  refine ⟨_, _, q, _, dif_pos hcapacity, rfl, hcall, rfl, ⟨c, d, _, hdata, ?_, hread, ?_, hlength,
    Charset.map_decode_encode charset points, ?_⟩, fun h b hb =>
      Charset.isTextByte_of_mem_encode h hb⟩
  · rw [hposition, length_toBits]
  · rw [htakes.position_eq, hposition, ← length_toBits, hqbits, List.length_append]
  · rw [Charset.map_decode_encode]
    exact Charset.map_shown_eq_self_iff hnul

/-- Between three bits and one, in UTF-8: a character of three bytes, a surrogate, and a letter. -/
theorem read_text_between_bits :
    (1 : Int) ≤ 1 ∧
      (∀ x ∈ [⟨0x20ac, by decide⟩, ⟨0xd800, by decide⟩, ⟨0x61, by decide⟩], CodePoint.val x ≠ 0) ∧
      ∃ start p q r, withCapacity? 1 = .ok start ∧
        (run call start [.write (.bits 5 3)]).2 = p ∧
        p.call (.write (.text .utf8
          [⟨0x20ac, by decide⟩, ⟨0xd800, by decide⟩, ⟨0x61, by decide⟩])) = (.accepted, q) ∧
        (run call q [.write (.bits 1 1)]).2 = r ∧
        (∃ (c d : Cursor) (chars : List Char), c.data = r.toBytes ∧ c.position = p.length ∧
          c.read (.text .utf8) = .ok (some (.text chars), d) ∧ d.position = q.length ∧
          d.position = c.position + 48 ∧
          chars.map CodePoint.ofChar = [.ofChar '€', .ofChar '?', .ofChar 'a'] ∧
          (chars.map CodePoint.ofChar =
              [⟨0x20ac, by decide⟩, ⟨0xd800, by decide⟩, ⟨0x61, by decide⟩] ↔
            ∀ x ∈ [⟨0x20ac, by decide⟩, ⟨0xd800, by decide⟩, ⟨0x61, by decide⟩],
              Charset.utf8.isTextChar [x] = true ∨ x = .mark)) ∧
        ((∀ x ∈ [⟨0x20ac, by decide⟩, ⟨0xd800, by decide⟩, ⟨0x61, by decide⟩],
            Charset.utf8.isTextChar [x] = true) →
          ∀ b ∈ [0xe2, 0x82, 0xac, 0x3f, 0x61], Charset.utf8.isTextByte (UInt8.toNat b) = true) :=
  ⟨Int.le_refl 1, by decide, read_text (Int.le_refl 1) (fun _ => by decide) _ _⟩

end Packer

namespace Charset

/-- **Any bytes are read as a text that comes back.** From bytes without a zero byte a text is
read that has no NUL and no surrogate and that comes back from its own bytes. Those are the bytes
that it was read from exactly if they are well-formed. In UTF-8 the text is the one in which the
characters that stand in the bytes are kept, and every maximal ill-formed part is U+FFFD. -/
theorem decode_settles (charset : Charset) {bytes : List UInt8} (h : 0 ∉ bytes) :
    '\x00' ∉ charset.decode bytes ∧
      (∀ c ∈ charset.decode bytes, (CodePoint.ofChar c).isSurrogate = false) ∧
      charset.decode (charset.encode ((charset.decode bytes).map .ofChar)) =
        charset.decode bytes ∧
      (charset.encode ((charset.decode bytes).map .ofChar) = bytes ↔ charset.WellFormed bytes) ∧
      (charset = utf8 → ∀ chars, charset.decode bytes = chars ↔ Utf8.Repaired bytes chars) := by
  cases charset with
  | utf8 =>
      have hnul : '\x00' ∉ Utf8.decode bytes := Utf8.nul_not_mem_decodeFrom h nofun
      exact ⟨hnul, fun c _ => CodePoint.isSurrogate_ofChar c, Utf8.decode_encode _,
        ⟨fun e => e ▸ wellFormed_encode utf8 _, Utf8.encode_decode⟩,
        fun _ _ => Utf8.decode_eq_iff⟩
  | hebrew =>
      have hknown : ∀ c ∈ Hebrew.decode bytes, Hebrew.Known c :=
        fun _ => Hebrew.known_of_mem_decode
      have hnul : ¬ Hebrew.Known '\x00' := by
        unfold Hebrew.Known
        decide
      exact ⟨fun hmem => hnul (hknown _ hmem), fun c _ => CodePoint.isSurrogate_ofChar c,
        Hebrew.decode_encode hknown,
        ⟨fun e => e ▸ wellFormed_encode hebrew _, Hebrew.encode_decode⟩, nofun⟩

/-- In UTF-8: a letter, a form cut short, a byte of an overlong form, and a letter. -/
theorem decode_settles_cut :
    (0 : UInt8) ∉ [0x61, 0xe2, 0x82, 0xc1, 0x41] ∧
      '\x00' ∉ ['a', '\ufffd', '\ufffd', 'A'] ∧
      (∀ c ∈ ['a', '\ufffd', '\ufffd', 'A'], (CodePoint.ofChar c).isSurrogate = false) ∧
      utf8.decode (utf8.encode (['a', '\ufffd', '\ufffd', 'A'].map .ofChar)) =
        ['a', '\ufffd', '\ufffd', 'A'] ∧
      (utf8.encode (['a', '\ufffd', '\ufffd', 'A'].map .ofChar) = [0x61, 0xe2, 0x82, 0xc1, 0x41] ↔
        utf8.WellFormed [0x61, 0xe2, 0x82, 0xc1, 0x41]) ∧
      (utf8 = utf8 → ∀ chars, utf8.decode [0x61, 0xe2, 0x82, 0xc1, 0x41] = chars ↔
        Utf8.Repaired [0x61, 0xe2, 0x82, 0xc1, 0x41] chars) := by
  have h : (0 : UInt8) ∉ [0x61, 0xe2, 0x82, 0xc1, 0x41] := by decide
  exact ⟨h, decode_settles utf8 h⟩

end Charset

end WireSchema
