import WireSchema.Proofs.Text.Charset

/-!
# Text — Any code points

What becomes of code points that a charset does not map, surrogates among them: they are written as
a question mark is, and read as one. So a text comes back with marks in their places
(`Charset.map_decode_encode`), and code point by code point it comes back as it is if each is a
character of the charset or the mark (`Charset.shown_eq_self_iff`). Only NUL is written with a zero
byte, and only in UTF-8 (`Charset.zero_not_mem_encode`); the characters of a charset are written
with its bytes only (`Charset.isTextByte_of_mem_encode`).
-/

namespace WireSchema

namespace CodePoint

/-- The question mark, which stands for code points that a charset does not map. -/
def mark : CodePoint := ofChar '?'

end CodePoint

namespace Charset

open CodePoint (mark)

/-- What a code point is read as after it has been written: a mark, if it is a surrogate in UTF-8,
or outside the Hebrew table. -/
def shown : Charset → CodePoint → CodePoint
  | utf8, p => if 0xd800 ≤ p.val ∧ p.val ≤ 0xdfff then mark else p
  | hebrew, p => if p ∈ Hebrew.table.map (CodePoint.ofChar ·.1) then p else mark

end Charset

namespace Utf8

open CodePoint (mark)

theorem encodePoint_surrogate {p : CodePoint} (h : 0xd800 ≤ p.val ∧ p.val ≤ 0xdfff) :
    encodePoint p = encodePoint mark := by
  have hs : p.isSurrogate = true := by
    rw [CodePoint.isSurrogate, decide_eq_true h.1, decide_eq_true h.2]
    rfl
  rw [encodePoint, hs, if_neg (by omega), if_neg (by omega), if_pos rfl]
  rfl

/-- A text is written as the characters that it is shown with. -/
theorem exists_chars (points : List CodePoint) : ∃ cs : List Char,
    cs.map CodePoint.ofChar = points.map (Charset.utf8.shown) ∧
      encode points = encode (cs.map CodePoint.ofChar) := by
  induction points with
  | nil => exact ⟨[], rfl, rfl⟩
  | cons p points ih =>
      obtain ⟨cs, hcs, hpoints⟩ := ih
      obtain ⟨c, hc, hp⟩ : ∃ c : Char, CodePoint.ofChar c = Charset.utf8.shown p ∧
          encodePoint p = encodePoint (CodePoint.ofChar c) := by
        by_cases h : 0xd800 ≤ p.val ∧ p.val ≤ 0xdfff
        · exact ⟨'?', (if_pos h).symm, encodePoint_surrogate h⟩
        · obtain ⟨c, rfl⟩ := CodePoint.exists_char h
          exact ⟨c, (if_neg h).symm, rfl⟩
      refine ⟨c :: cs, congrArg₂ List.cons hc hcs, ?_⟩
      rw [encode, List.flatMap_cons, hp]
      exact congrArg _ hpoints

/-- Only NUL is written with a zero byte. -/
theorem zero_not_mem_encode_points {points : List CodePoint} (h : ∀ p ∈ points, p.val ≠ 0) :
    0 ∉ encode points := by
  obtain ⟨cs, hcs, hpoints⟩ := exists_chars points
  rw [hpoints]
  refine zero_not_mem_encode fun hnul => ?_
  have hmem : CodePoint.ofChar '\x00' ∈ points.map Charset.utf8.shown :=
    hcs ▸ List.mem_map_of_mem hnul
  obtain ⟨p, hp, hshown⟩ := List.mem_map.mp hmem
  rw [Charset.shown] at hshown
  split at hshown
  · cases hshown
  · exact h p hp (congrArg CodePoint.val hshown)

theorem isTextByte_ofNat {n : Nat} (h : 0 < n ∧ n < 0xc0 ∨ 0xc2 ≤ n ∧ n ≤ 0xf4) :
    isTextByte (UInt8.ofNat n).toNat = true := by
  have hn : (UInt8.ofNat n).toNat = n := by
    rw [UInt8.toNat_ofNat']
    omega
  rw [hn, isTextByte, Bool.or_eq_true, Bool.and_eq_true, Bool.and_eq_true]
  simp only [decide_eq_true_eq]
  omega

/-- A character other than NUL is written with bytes of texts only. -/
theorem isTextByte_of_mem_encodePoint {c : Char} (h : c ≠ '\x00') {b : UInt8}
    (hb : b ∈ encodePoint (CodePoint.ofChar c)) : isTextByte b.toNat = true := by
  have hv := CodePoint.valid_toNat c
  have h₀ : c.toNat ≠ 0 := fun e => h (by rw [← Char.ofNat_toNat c, e])
  have hk : ∀ n, isTextByte (continuation n).toNat = true :=
    fun n => isTextByte_ofNat (Or.inl (by omega))
  rw [encodePoint_char] at hb
  split_ifs at hb <;> simp only [List.mem_cons, List.not_mem_nil, or_false] at hb
  · rw [hb]
    exact isTextByte_ofNat (by omega)
  · rcases hb with rfl | rfl
    · exact isTextByte_ofNat (by omega)
    · exact hk _
  · rcases hb with rfl | rfl | rfl
    · exact isTextByte_ofNat (by omega)
    · exact hk _
    · exact hk _
  · rcases hb with rfl | rfl | rfl | rfl
    · exact isTextByte_ofNat (by omega)
    · exact hk _
    · exact hk _
    · exact hk _

theorem isTextPoint_iff {p : CodePoint} :
    isTextPoint p = true ↔ p.val ≠ 0 ∧ ¬ (0xd800 ≤ p.val ∧ p.val ≤ 0xdfff) := by
  rw [isTextPoint, CodePoint.isSurrogate, Bool.and_eq_true, bne_iff_ne, Bool.not_eq_true',
    Bool.and_eq_false_iff, decide_eq_false_iff_not, decide_eq_false_iff_not, not_and_or]

end Utf8

namespace Hebrew

open CodePoint (mark)

/-- The code points that have a byte are those of the table. -/
theorem isTextPoint_iff {p : CodePoint} :
    isTextPoint p = true ↔ p ∈ table.map (CodePoint.ofChar ·.1) := by
  rw [isTextPoint, byte?, Option.isSome_map, List.find?_isSome, List.mem_map]
  refine exists_congr fun entry => and_congr_right fun _ => ?_
  rw [beq_iff_eq, ← CodePoint.val_ofChar]
  constructor
  · intro h
    cases p
    cases h
    rfl
  · exact congrArg CodePoint.val

theorem map_decode_encode (points : List CodePoint) :
    (decode (encode points)).map CodePoint.ofChar = points.map Charset.hebrew.shown := by
  rw [encode, decode, List.map_map, List.map_map]
  refine List.map_congr_left fun p _ => ?_
  rw [Charset.shown]
  split
  · next h =>
      obtain ⟨entry, he, rfl⟩ := List.mem_map.mp h
      dsimp only [Function.comp_apply]
      rw [(table_inverse entry he).1, Option.getD_some, (table_inverse entry he).2.1,
        Option.getD_some]
  · next h =>
      have hnone : byte? p = none := by
        rw [← isTextPoint_iff, isTextPoint, Option.not_isSome_iff_eq_none] at h
        exact h
      dsimp only [Function.comp_apply]
      rw [hnone, Option.getD_none, char?_unknownByte, Option.getD_none]
      rfl

/-- Every code point is written with a known byte. -/
theorem knownByte_of_mem_encode {points : List CodePoint} {b : UInt8} (h : b ∈ encode points) :
    KnownByte b := by
  obtain ⟨p, -, rfl⟩ := List.mem_map.mp h
  cases hp : byte? p with
  | none => exact Or.inr rfl
  | some b =>
      obtain ⟨entry, hf, rfl⟩ := Option.map_eq_some_iff.mp hp
      exact Or.inl (List.mem_map_of_mem (List.mem_of_find?_eq_some hf))

theorem isTextByte_of_mem_encode {points : List CodePoint} (h : ∀ p ∈ points, isTextPoint p = true)
    {b : UInt8} (hb : b ∈ encode points) : isTextByte b.toNat = true := by
  obtain ⟨p, hp, rfl⟩ := List.mem_map.mp hb
  obtain ⟨entry, he, rfl⟩ := List.mem_map.mp (isTextPoint_iff.mp (h p hp))
  rw [(table_inverse entry he).1, Option.getD_some, isTextByte, List.any_eq_true]
  exact ⟨entry, he, beq_self_eq_true _⟩

end Hebrew

/-! ### Either charset -/

namespace Charset

open CodePoint (mark)

variable {charset : Charset} {points : List CodePoint}

/-- A text comes back with a mark in place of every code point that is not mapped. -/
theorem map_decode_encode (charset : Charset) (points : List CodePoint) :
    (charset.decode (charset.encode points)).map CodePoint.ofChar = points.map charset.shown := by
  cases charset with
  | utf8 =>
      obtain ⟨cs, hcs, hpoints⟩ := Utf8.exists_chars points
      rw [encode, decode, hpoints, Utf8.decode_encode, hcs]
  | hebrew => exact Hebrew.map_decode_encode points

/-- A code point comes back as it is if it is a character of the charset, or the mark. -/
theorem shown_eq_self_iff {p : CodePoint} (h : charset = utf8 → p.val ≠ 0) :
    charset.shown p = p ↔ charset.isTextChar [p] = true ∨ p = mark := by
  have hiff : ∀ {P : Prop} [Decidable P], (charset.isTextChar [p] = true ↔ P) →
      ((if P then p else mark) = p ↔ charset.isTextChar [p] = true ∨ p = mark) := by
    intro P _ hP
    rw [hP]
    split
    · next hp => exact iff_of_true rfl (Or.inl hp)
    · next hp => exact ⟨fun e => Or.inr e.symm, fun e => (e.resolve_left hp).symm⟩
  cases charset with
  | utf8 =>
      rw [shown, ← ite_not]
      exact hiff (Utf8.isTextPoint_iff.trans (and_iff_right (h rfl)))
  | hebrew => exact hiff Hebrew.isTextPoint_iff

/-- A text comes back as it is if every code point does. -/
theorem map_shown_eq_self_iff (h : charset = utf8 → ∀ p ∈ points, p.val ≠ 0) :
    points.map charset.shown = points ↔
      ∀ p ∈ points, charset.isTextChar [p] = true ∨ p = mark := by
  have hmap := List.map_inj_left (l := points) (f := charset.shown) (g := id)
  rw [List.map_id] at hmap
  exact hmap.trans (forall₂_congr fun p hp => shown_eq_self_iff fun e => h e p hp)

theorem zero_not_mem_encode (h : charset = utf8 → ∀ p ∈ points, p.val ≠ 0) :
    0 ∉ charset.encode points := by
  cases charset with
  | utf8 => exact Utf8.zero_not_mem_encode_points (h rfl)
  | hebrew => exact Hebrew.zero_not_mem_encode points

theorem isTextByte_of_mem_encode (h : ∀ p ∈ points, charset.isTextChar [p] = true) {b : UInt8}
    (hb : b ∈ charset.encode points) : charset.isTextByte b.toNat = true := by
  cases charset with
  | utf8 =>
      obtain ⟨p, hp, hb⟩ := List.mem_flatMap.mp hb
      obtain ⟨hnul, hscalar⟩ := Utf8.isTextPoint_iff.mp (h p hp)
      obtain ⟨c, rfl⟩ := CodePoint.exists_char hscalar
      exact Utf8.isTextByte_of_mem_encodePoint (fun e => hnul (by rw [e]; rfl)) hb
  | hebrew => exact Hebrew.isTextByte_of_mem_encode h hb

/-- Only well-formed bytes are written. -/
theorem wellFormed_encode (charset : Charset) (points : List CodePoint) :
    charset.WellFormed (charset.encode points) := by
  cases charset with
  | utf8 =>
      obtain ⟨cs, -, hpoints⟩ := Utf8.exists_chars points
      refine ⟨cs, ?_⟩
      rw [← Utf8.toByteArray_encode, ← hpoints]
      rfl
  | hebrew => exact fun b hb => Hebrew.knownByte_of_mem_encode hb

end Charset

end WireSchema
