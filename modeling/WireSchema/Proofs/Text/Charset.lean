import WireSchema.Proofs.Text.Plain
import WireSchema.Text.Charset

/-!
# Text — Charsets give texts back

Either charset reads back what it wrote. Of UTF-8 this holds of every text of characters, since
each character's form is read to its end and to nothing else (`Utf8.decodeFrom_encodePoint`); the
forms are the standard's (`Utf8.encodePoint_ofChar`), so the bytes of a text are the well-formed
ones. Of the Hebrew alphabet it holds of its characters and of the mark for all others.
-/

namespace WireSchema

namespace Utf8

/-! ### One form -/

theorem encodePoint_char (c : Char) :
    encodePoint (CodePoint.ofChar c) =
      if c.toNat < 0x80 then [UInt8.ofNat c.toNat]
      else if c.toNat < 0x800 then [UInt8.ofNat (0xc0 + c.toNat / 64), continuation c.toNat]
      else if c.toNat < 0x10000 then
        [UInt8.ofNat (0xe0 + c.toNat / 4096), continuation (c.toNat / 64), continuation c.toNat]
      else
        [UInt8.ofNat (0xf0 + c.toNat / 262144), continuation (c.toNat / 4096),
          continuation (c.toNat / 64), continuation c.toNat] := by
  rw [encodePoint, CodePoint.isSurrogate_ofChar]
  rfl

/-- The forms are those of the standard. -/
theorem encodePoint_ofChar (c : Char) :
    encodePoint (CodePoint.ofChar c) = String.utf8EncodeChar c := by
  have h := CodePoint.valid_toNat c
  have hv : c.val.toNat = c.toNat := rfl
  rw [encodePoint_char, String.utf8EncodeChar, hv]
  simp only [continuation]
  by_cases h₁ : c.toNat < 0x80
  · rw [if_pos h₁, if_pos (Nat.le_of_lt_succ h₁)]
  · rw [if_neg h₁, if_neg fun h => h₁ (Nat.lt_succ_of_le h)]
    by_cases h₂ : c.toNat < 0x800
    · rw [if_pos h₂, if_pos (Nat.le_of_lt_succ h₂), Nat.add_comm 0xc0, Nat.add_comm 0x80,
        Nat.mod_eq_of_lt (by omega : c.toNat / 64 < 32)]
    · rw [if_neg h₂, if_neg fun h => h₂ (Nat.lt_succ_of_le h)]
      by_cases h₃ : c.toNat < 0x10000
      · rw [if_pos h₃, if_pos (Nat.le_of_lt_succ h₃), Nat.add_comm 0xe0, Nat.add_comm 0x80,
          Nat.add_comm 0x80, Nat.mod_eq_of_lt (by omega : c.toNat / 4096 < 16)]
      · rw [if_neg h₃, if_neg fun h => h₃ (Nat.lt_succ_of_le h), Nat.add_comm 0xf0,
          Nat.add_comm 0x80, Nat.add_comm 0x80, Nat.add_comm 0x80,
          Nat.mod_eq_of_lt (by omega : c.toNat / 262144 < 8)]

theorem decodeFrom_cons (state : Option Pending) (b : UInt8) (bytes : List UInt8) :
    decodeFrom state (b :: bytes) = (step state b).1 ++ decodeFrom (step state b).2 bytes := by
  cases state <;> rfl

theorem toNat_continuation (n : Nat) : (continuation n).toNat = 0x80 + n % 64 := by
  rw [continuation, UInt8.toNat_ofNat']
  omega

theorem continuation_range (n : Nat) : 0x80 ≤ continuation n ∧ continuation n ≤ 0xbf := by
  rw [UInt8.le_iff_toNat_le, UInt8.le_iff_toNat_le, toNat_continuation]
  show 0x80 ≤ _ ∧ _ ≤ 0xbf
  omega

/-- The byte that ends a form. -/
theorem step_last {p n : Nat} {low high : UInt8}
    (h : low ≤ continuation n ∧ continuation n ≤ high) :
    step (some ⟨p, 1, low, high⟩) (continuation n) = ([Char.ofNat (p * 64 + n % 64)], none) := by
  have hk : (continuation n).toNat % 64 = n % 64 := by rw [toNat_continuation]; omega
  rw [step, if_pos h]
  dsimp only
  rw [if_pos (Nat.le_refl 1), hk]

/-- A byte inside a form. -/
theorem step_more {p n m : Nat} {low high : UInt8}
    (h : low ≤ continuation n ∧ continuation n ≤ high) :
    step (some ⟨p, m + 2, low, high⟩) (continuation n) =
      ([], some ⟨p * 64 + n % 64, m + 1, 0x80, 0xbf⟩) := by
  have hk : (continuation n).toNat % 64 = n % 64 := by rw [toNat_continuation]; omega
  rw [step, if_pos h]
  dsimp only
  rw [if_neg (by omega), hk]
  rfl

theorem lead_two {n : Nat} (h₁ : 0x80 ≤ n) (h₂ : n < 0x800) :
    lead (UInt8.ofNat (0xc0 + n / 64)) = .incomplete ⟨n / 64, 1, 0x80, 0xbf⟩ := by
  have hb : (UInt8.ofNat (0xc0 + n / 64)).toNat = 0xc0 + n / 64 := by
    rw [UInt8.toNat_ofNat']
    omega
  rw [lead, hb, if_neg (by omega), if_neg (by omega), if_pos (by omega), Nat.add_sub_cancel_left]

/-- The first byte of three keeps the second within the range of characters. -/
theorem lead_three {n : Nat} (h₁ : 0x800 ≤ n) (h₂ : n < 0x10000)
    (hs : n < 0xd800 ∨ 0xdfff < n) :
    ∃ low high, lead (UInt8.ofNat (0xe0 + n / 4096)) = .incomplete ⟨n / 4096, 2, low, high⟩ ∧
      low ≤ continuation (n / 64) ∧ continuation (n / 64) ≤ high := by
  have hb : (UInt8.ofNat (0xe0 + n / 4096)).toNat = 0xe0 + n / 4096 := by
    rw [UInt8.toNat_ofNat']
    omega
  have hr := continuation_range (n / 64)
  have hc := toNat_continuation (n / 64)
  rw [lead, hb, if_neg (by omega), if_neg (by omega), if_neg (by omega)]
  -- the second byte is kept from shorter forms behind 0xe0, and from surrogates behind 0xed
  by_cases h₀ : n / 4096 = 0
  · refine ⟨0xa0, 0xbf, by rw [h₀]; rfl, ?_, hr.2⟩
    rw [UInt8.le_iff_toNat_le, hc]
    show 0xa0 ≤ _
    omega
  · rw [if_neg (by rw [beq_iff_eq]; omega)]
    by_cases hd : n / 4096 = 13
    · refine ⟨0x80, 0x9f, by rw [hd]; rfl, hr.1, ?_⟩
      rw [UInt8.le_iff_toNat_le, hc]
      show _ ≤ 0x9f
      omega
    · rw [if_neg (by rw [beq_iff_eq]; omega), if_pos (by omega), Nat.add_sub_cancel_left]
      exact ⟨0x80, 0xbf, rfl, hr⟩

/-- The first byte of four keeps the second within the range of characters. -/
theorem lead_four {n : Nat} (h₁ : 0x10000 ≤ n) (h₂ : n < 0x110000) :
    ∃ low high, lead (UInt8.ofNat (0xf0 + n / 262144)) = .incomplete ⟨n / 262144, 3, low, high⟩ ∧
      low ≤ continuation (n / 4096) ∧ continuation (n / 4096) ≤ high := by
  have hb : (UInt8.ofNat (0xf0 + n / 262144)).toNat = 0xf0 + n / 262144 := by
    rw [UInt8.toNat_ofNat']
    omega
  have hr := continuation_range (n / 4096)
  have hc := toNat_continuation (n / 4096)
  rw [lead, hb, if_neg (by omega), if_neg (by omega), if_neg (by omega),
    if_neg (by rw [beq_iff_eq]; omega), if_neg (by rw [beq_iff_eq]; omega), if_neg (by omega)]
  -- the second byte is kept from shorter forms behind 0xf0, and from beyond Unicode behind 0xf4
  by_cases h₀ : n / 262144 = 0
  · refine ⟨0x90, 0xbf, by rw [h₀]; rfl, ?_, hr.2⟩
    rw [UInt8.le_iff_toNat_le, hc]
    show 0x90 ≤ _
    omega
  · rw [if_neg (by rw [beq_iff_eq]; omega)]
    by_cases h₄ : n / 262144 = 4
    · refine ⟨0x80, 0x8f, by rw [h₄]; rfl, hr.1, ?_⟩
      rw [UInt8.le_iff_toNat_le, hc]
      show _ ≤ 0x8f
      omega
    · rw [if_pos (by omega), Nat.add_sub_cancel_left]
      exact ⟨0x80, 0xbf, rfl, hr⟩

/-- A form is read to its end, and what follows it is read from the start. -/
theorem decodeFrom_encodePoint (c : Char) (bytes : List UInt8) :
    decodeFrom none (encodePoint (CodePoint.ofChar c) ++ bytes) = c :: decodeFrom none bytes := by
  have hv := CodePoint.valid_toNat c
  have hc : ∀ n, n = c.toNat → Char.ofNat n = c := fun n h => h ▸ Char.ofNat_toNat c
  rw [encodePoint_char]
  -- a form of one, two, three or four bytes
  by_cases h₁ : c.toNat < 0x80
  · have hb : (UInt8.ofNat c.toNat).toNat = c.toNat := by
      rw [UInt8.toNat_ofNat']
      omega
    rw [if_pos h₁, List.singleton_append, decodeFrom_cons, step, begin, lead,
      hb, if_pos h₁, hc _ rfl]
    rfl
  · rw [if_neg h₁]
    by_cases h₂ : c.toNat < 0x800
    · rw [if_pos h₂, List.cons_append, decodeFrom_cons, step, begin, lead_two (by omega) h₂]
      dsimp only
      rw [List.cons_append, decodeFrom_cons, step_last (continuation_range _), hc _ (by omega)]
      rfl
    · rw [if_neg h₂]
      by_cases h₃ : c.toNat < 0x10000
      · obtain ⟨low, high, hl, hr⟩ := lead_three (by omega) h₃ (by omega)
        rw [if_pos h₃, List.cons_append, decodeFrom_cons, step, begin, hl]
        dsimp only
        rw [List.cons_append, decodeFrom_cons, step_more hr, List.cons_append, decodeFrom_cons,
          step_last (continuation_range _), hc _ (by omega)]
        rfl
      · obtain ⟨low, high, hl, hr⟩ := lead_four (by omega) (show c.toNat < 0x110000 by omega)
        rw [if_neg h₃, List.cons_append, decodeFrom_cons, step, begin, hl]
        dsimp only
        rw [List.cons_append, decodeFrom_cons, step_more hr, List.cons_append, decodeFrom_cons,
          step_more (continuation_range _), List.cons_append, decodeFrom_cons,
          step_last (continuation_range _), hc _ (by omega)]
        rfl

/-- Only NUL has a zero byte in its form. -/
theorem zero_not_mem_encodePoint {c : Char} (h : c ≠ '\x00') :
    0 ∉ encodePoint (CodePoint.ofChar c) := by
  have hv := CodePoint.valid_toNat c
  have h₀ : c.toNat ≠ 0 := fun e => h (by rw [← Char.ofNat_toNat c, e])
  have hz : ∀ n, 0 < n → n < 256 → (0 : UInt8) ≠ UInt8.ofNat n := by
    intro n hp hlt e
    have := congrArg UInt8.toNat e
    rw [UInt8.toNat_ofNat', Nat.mod_eq_of_lt hlt] at this
    exact Nat.ne_of_lt hp this
  have hc : ∀ n, 0 ≠ continuation n := fun n => hz _ (by omega) (by omega)
  rw [encodePoint_char]
  split_ifs <;> simp only [List.mem_cons, List.not_mem_nil, or_false, not_or]
  · exact hz _ (by omega) (by omega)
  · exact ⟨hz _ (by omega) (by omega), hc _⟩
  · exact ⟨hz _ (by omega) (by omega), hc _, hc _⟩
  · exact ⟨hz _ (by omega) (by omega), hc _, hc _, hc _⟩

/-! ### Texts -/

/-- Decoding undoes encoding for every text without surrogates. -/
theorem decode_encode (cs : List Char) : decode (encode (cs.map CodePoint.ofChar)) = cs := by
  induction cs with
  | nil => rfl
  | cons c cs ih =>
      rw [List.map_cons, encode, List.flatMap_cons, decode, decodeFrom_encodePoint]
      exact congrArg _ ih

theorem zero_not_mem_encode {cs : List Char} (h : '\x00' ∉ cs) :
    0 ∉ encode (cs.map CodePoint.ofChar) := by
  intro h₀
  obtain ⟨p, hp, hz⟩ := List.mem_flatMap.mp h₀
  obtain ⟨c, hc, rfl⟩ := List.mem_map.mp hp
  exact zero_not_mem_encodePoint (fun e => h (e ▸ hc)) hz

theorem toByteArray_encode (cs : List Char) :
    (encode (cs.map CodePoint.ofChar)).toByteArray = cs.utf8Encode := by
  rw [encode, List.flatMap_map, List.utf8Encode]
  exact congrArg (fun f => (cs.flatMap f).toByteArray) (funext encodePoint_ofChar)

/-- Well-formed bytes are those of the text that is read from them. -/
theorem encode_decode {bytes : List UInt8} (h : bytes.toByteArray.IsValidUTF8) :
    encode ((decode bytes).map CodePoint.ofChar) = bytes := by
  obtain ⟨cs, hcs⟩ := h
  -- well-formed bytes are by definition those of some text
  have hb : bytes = encode (cs.map CodePoint.ofChar) := by
    rw [← toByteArray_encode] at hcs
    exact List.toByteArray_inj.mp hcs
  rw [hb, decode_encode]

end Utf8

namespace Hebrew

/-- The characters with a byte of their own, and the mark for the others. -/
def Known (c : Char) : Prop := c ∈ table.map (·.1) ∨ c = unknownChar

/-- The bytes of the alphabet, and that of the mark for other characters. -/
def KnownByte (b : UInt8) : Prop := b ∈ table.map (·.2) ∨ b = unknownByte

/-- The table is one-to-one, in a form that can be looked through. -/
theorem table_inverse : ∀ entry ∈ table,
    byte? (CodePoint.ofChar entry.1) = some entry.2 ∧ char? entry.2 = some entry.1 ∧
      entry.2 ≠ 0 := by
  decide

theorem byte?_unknownChar : byte? (CodePoint.ofChar unknownChar) = none := by decide

theorem char?_unknownByte : char? unknownByte = none := by decide

theorem decode_encode {cs : List Char} (h : ∀ c ∈ cs, Known c) :
    decode (encode (cs.map CodePoint.ofChar)) = cs := by
  induction cs with
  | nil => rfl
  | cons c cs ih =>
      have hc : (char? ((byte? (CodePoint.ofChar c)).getD unknownByte)).getD unknownChar = c := by
        rcases h c List.mem_cons_self with hc | rfl
        · obtain ⟨entry, he, rfl⟩ := List.mem_map.mp hc
          rw [(table_inverse entry he).1, Option.getD_some, (table_inverse entry he).2.1,
            Option.getD_some]
        · rw [byte?_unknownChar, Option.getD_none, char?_unknownByte, Option.getD_none]
      rw [List.map_cons, encode, List.map_cons, decode, List.map_cons, hc]
      exact congrArg _ (ih fun d hd => h d (List.mem_cons_of_mem _ hd))

/-- Known bytes are those of the text that is read from them. -/
theorem encode_decode {bytes : List UInt8} (h : ∀ b ∈ bytes, KnownByte b) :
    encode ((decode bytes).map CodePoint.ofChar) = bytes := by
  induction bytes with
  | nil => rfl
  | cons b bytes ih =>
      have hb : (byte? (CodePoint.ofChar ((char? b).getD unknownChar))).getD unknownByte = b := by
        rcases h b List.mem_cons_self with hb | rfl
        · obtain ⟨entry, he, rfl⟩ := List.mem_map.mp hb
          rw [(table_inverse entry he).2.1, Option.getD_some, (table_inverse entry he).1,
            Option.getD_some]
        · rw [char?_unknownByte, Option.getD_none, byte?_unknownChar, Option.getD_none]
      rw [decode, List.map_cons, List.map_cons, encode, List.map_cons, hb]
      exact congrArg _ (ih fun d hd => h d (List.mem_cons_of_mem _ hd))

/-- No byte of the alphabet is the one that ends a text. -/
theorem zero_not_mem_encode (points : List CodePoint) : 0 ∉ encode points := by
  intro h
  obtain ⟨p, -, hz⟩ := List.mem_map.mp h
  cases hp : byte? p with
  | none => rw [hp] at hz; cases hz
  | some b =>
      rw [hp, Option.getD_some] at hz
      obtain ⟨entry, hf, rfl⟩ := Option.map_eq_some_iff.mp hp
      exact (table_inverse entry (List.mem_of_find?_eq_some hf)).2.2 hz

end Hebrew

/-! ### Either charset -/

namespace Charset

/-- Bytes that are the encoding of some text. -/
def WellFormed : Charset → List UInt8 → Prop
  | utf8, bytes => bytes.toByteArray.IsValidUTF8
  | hebrew, bytes => ∀ b ∈ bytes, Hebrew.KnownByte b

/-- A text that a field gives back: in UTF-8 it has neither NUL nor surrogates, and in the Hebrew
charset known characters only. -/
def Canonical : Charset → Text → Prop
  | utf8, t => ∀ p ∈ t, p.val ≠ 0 ∧ p.isSurrogate = false
  | hebrew, t => ∀ p ∈ t, ∃ c, Hebrew.Known c ∧ p = CodePoint.ofChar c

theorem Canonical.exists_chars {charset : Charset} {t : Text} (h : charset.Canonical t) :
    ∃ cs, t = Text.ofChars cs := by
  refine ⟨_, (Text.ofChars_chars fun p hp => ?_).symm⟩
  cases charset with
  | utf8 => exact (h p hp).2
  | hebrew =>
      obtain ⟨c, -, rfl⟩ := h p hp
      exact CodePoint.isSurrogate_ofChar c

theorem canonical_utf8_iff {cs : List Char} :
    utf8.Canonical (Text.ofChars cs) ↔ '\x00' ∉ cs := by
  constructor
  · intro h hc
    exact (h _ (List.mem_map_of_mem hc)).1 rfl
  · intro h p hp
    obtain ⟨c, hc, rfl⟩ := List.mem_map.mp hp
    refine ⟨fun hz => h ?_, CodePoint.isSurrogate_ofChar c⟩
    have hnul : c = '\x00' := by rw [← Char.ofNat_toNat c, ← CodePoint.val_ofChar, hz]
    exact hnul ▸ hc

theorem canonical_hebrew_iff {cs : List Char} :
    hebrew.Canonical (Text.ofChars cs) ↔ ∀ c ∈ cs, Hebrew.Known c := by
  constructor
  · intro h c hc
    obtain ⟨d, hd, he⟩ := h _ (List.mem_map_of_mem hc)
    exact CodePoint.ofChar_inj.mp he ▸ hd
  · intro h p hp
    obtain ⟨c, hc, rfl⟩ := List.mem_map.mp hp
    exact ⟨c, h c hc, rfl⟩

/-- Well-formed bytes are those of the text that is read from them. -/
theorem encode_decodeText {charset : Charset} {bytes : List UInt8}
    (h : charset.WellFormed bytes) : charset.encode (charset.decodeText bytes) = bytes := by
  cases charset with
  | utf8 => exact Utf8.encode_decode h
  | hebrew => exact Hebrew.encode_decode h

/-- A canonical text is read from its bytes. -/
theorem decodeText_encode {charset : Charset} {t : Text} (h : charset.Canonical t) :
    charset.decodeText (charset.encode t) = t := by
  obtain ⟨cs, rfl⟩ := h.exists_chars
  refine congrArg Text.ofChars ?_
  cases charset with
  | utf8 => exact Utf8.decode_encode _
  | hebrew => exact Hebrew.decode_encode (canonical_hebrew_iff.mp h)

/-- A canonical text has no zero among its bytes. -/
theorem zero_not_mem_encode_of_canonical {charset : Charset} {t : Text}
    (h : charset.Canonical t) : 0 ∉ charset.encode t := by
  cases charset with
  | utf8 =>
      obtain ⟨cs, rfl⟩ := h.exists_chars
      exact Utf8.zero_not_mem_encode (canonical_utf8_iff.mp h)
  | hebrew => exact Hebrew.zero_not_mem_encode _

end Charset

end WireSchema
