import WireSchema.Proofs.Bits.Packing

/-!
# Bits — Reading

A cursor walks over a list of bits. `c.Takes bs c'` says that the bits `bs` lie between `c` and
`c'`; every read that succeeds is of this kind, and reads what the bits spell: `take?_eq_some_iff`,
`bytes?_eq_some_iff`, `text?_eq_some_iff`.
-/

namespace WireSchema

namespace Cursor

theorem ext {c d : Cursor} (hd : c.data = d.data) (hp : c.position = d.position) : c = d := by
  cases c; cases d; cases hd; cases hp; rfl

/-- From `c` the bits `bs` are read, and then the cursor is `c'`. -/
structure Takes (c : Cursor) (bs : Bits) (c' : Cursor) : Prop where
  data_eq : c'.data = c.data
  position_eq : c'.position = c.position + bs.length
  rest_eq : c.rest = bs ++ c'.rest

theorem length_rest (c : Cursor) : c.rest.length = c.remaining := by
  rw [rest, List.length_drop, Bits.length_ofBytes, Array.length_toList, remaining]

namespace Takes

variable {c c' d : Cursor} {bs cs : Bits}

theorem refl (c : Cursor) : c.Takes [] c := ⟨rfl, rfl, rfl⟩

/-- What is taken in two steps is taken in one. -/
theorem trans (h : c.Takes bs c') (h' : c'.Takes cs d) : c.Takes (bs ++ cs) d :=
  ⟨h'.data_eq.trans h.data_eq,
    by rw [h'.position_eq, h.position_eq, List.length_append, Nat.add_assoc],
    by rw [h.rest_eq, h'.rest_eq, List.append_assoc]⟩

/-- The same bits lead to the same place. -/
theorem unique (h : c.Takes bs c') (h' : c.Takes bs d) : c' = d :=
  Cursor.ext (h.data_eq.trans h'.data_eq.symm) (h.position_eq.trans h'.position_eq.symm)

/-- The bits that remain are those taken and those that remain behind them. -/
theorem remaining_eq (h : c.Takes bs c') : c.remaining = bs.length + c'.remaining := by
  rw [← length_rest, h.rest_eq, List.length_append, length_rest]

/-- Bits that lie ahead are taken. -/
theorem of_rest {more : Bits} (h : c.rest = bs ++ more) :
    ∃ c', c.Takes bs c' ∧ c'.rest = more := by
  have hl : c.remaining = bs.length + more.length := by
    rw [← length_rest, h, List.length_append]
  have hle := c.position_le
  have hp : c.position + bs.length ≤ 8 * c.data.size := by
    rw [remaining] at hl; omega
  have hr : Cursor.rest ⟨c.data, c.position + bs.length, hp⟩ = more := by
    show (Bits.ofBytes c.data.toList).drop (c.position + bs.length) = more
    rw [← List.drop_drop]
    show c.rest.drop bs.length = more
    rw [h, List.drop_left]
  exact ⟨⟨c.data, c.position + bs.length, hp⟩, ⟨rfl, rfl, by rw [h, hr]⟩, hr⟩

/-- What is taken in one go can be taken in two. -/
theorem split (h : c.Takes (bs ++ cs) d) : ∃ c', c.Takes bs c' ∧ c'.Takes cs d := by
  obtain ⟨c', h₁, hr⟩ := of_rest (h.rest_eq.trans (List.append_assoc _ _ _))
  refine ⟨c', h₁, h.data_eq.trans h₁.data_eq.symm, ?_, hr⟩
  rw [h.position_eq, h₁.position_eq, List.length_append, Nat.add_assoc]

end Takes

/-- Before a byte array are all its bits. -/
theorem rest_ofBytes (data : Array UInt8) :
    (Cursor.ofBytes data).rest = Bits.ofBytes data.toList := rfl

/-! ### Bits and bytes -/

/-- The bits of a field are found by counting from the start. -/
theorem bitsAt_eq (data : Array UInt8) {w i : Nat} (h : i + w ≤ 8 * data.size) :
    bitsAt data w i = ((Bits.ofBytes data.toList).drop i).take w := by
  induction w generalizing i with
  | zero => exact List.take_zero.symm
  | succ w ih =>
      have hi : (Bits.ofBytes data.toList)[i]? = some (bitAt data i) := by
        rw [getElem?_ofBytes_toList, if_pos (by omega)]
      obtain ⟨hlt, hget⟩ := List.getElem?_eq_some_iff.mp hi
      rw [bitsAt, ih (by omega), List.drop_eq_getElem_cons hlt, List.take_succ_cons, hget]

/-- The next `w` bits are taken exactly when there are so many. -/
theorem take?_eq_some_iff {c c' : Cursor} {w : Nat} {bs : Bits} :
    c.take? w = some (bs, c') ↔ bs.length = w ∧ c.Takes bs c' := by
  unfold take?
  constructor
  · intro h
    split at h
    · next hle =>
        cases h
        have hl : (bitsAt c.data w c.position).length = w := by
          rw [bitsAt_eq _ hle, List.length_take, List.length_drop, Bits.length_ofBytes,
            Array.length_toList]
          omega
        refine ⟨hl, rfl, by rw [hl], ?_⟩
        rw [bitsAt_eq _ hle, rest, rest, ← List.drop_drop, List.take_append_drop]
    · cases h
  · rintro ⟨rfl, h⟩
    have hr := h.remaining_eq
    have hle := c.position_le
    rw [remaining] at hr
    have hp : c.position + bs.length ≤ 8 * c.data.size := by omega
    rw [dif_pos hp, Option.some.injEq, Prod.mk.injEq, bitsAt_eq _ hp]
    refine ⟨?_, Cursor.ext h.data_eq.symm h.position_eq.symm⟩
    show c.rest.take bs.length = bs
    rw [h.rest_eq, List.take_left]

/-- The bits of a byte, taken as a number, are the byte. -/
theorem take?_ofByte {c c' : Cursor} {b : UInt8} (h : c.Takes (Bits.ofByte b) c') :
    c.take? 8 = some (Bits.ofByte b, c') :=
  take?_eq_some_iff.mpr ⟨Bits.length_ofByte b, h⟩

theorem bytesAt_eq {data : Array UInt8} {n i : Nat} {bytes : List UInt8} {more : Bits}
    (hn : bytes.length = n)
    (h : (Bits.ofBytes data.toList).drop i = Bits.ofBytes bytes ++ more) :
    bytesAt data n i = bytes := by
  induction n generalizing i bytes with
  | zero => rw [List.length_eq_zero_iff.mp hn]; rfl
  | succ n ih =>
      obtain ⟨b, bytes, rfl⟩ := List.exists_cons_of_length_eq_add_one hn
      have hl := congrArg List.length h
      simp only [List.length_drop, Bits.length_ofBytes, Array.length_toList, List.length_append,
        List.length_cons] at hl
      rw [Bits.ofBytes_cons, List.append_assoc] at h
      have hb : bitsAt data 8 i = Bits.ofByte b := by
        rw [bitsAt_eq data (by omega), h, List.take_left' (Bits.length_ofByte b)]
      rw [bytesAt, hb, Bits.toNat_ofByte, UInt8.ofNat_toNat, ih (Nat.succ.inj hn)]
      rw [← List.drop_drop, h, List.drop_left' (Bits.length_ofByte b)]

/-- Bytes are read exactly if they lie ahead. -/
theorem bytes?_eq_some_iff {c c' : Cursor} {n : Nat} {bytes : List UInt8} :
    c.bytes? n = some (bytes, c') ↔ bytes.length = n ∧ c.Takes (Bits.ofBytes bytes) c' := by
  have hle := c.position_le
  unfold bytes?
  constructor
  · intro h
    split at h
    · next hp =>
        cases h
        have hl : (c.rest.take (8 * n)).length = 8 * n := by
          rw [List.length_take, length_rest, remaining]
          omega
        obtain ⟨bytes, hn, hb⟩ := Bits.exists_ofBytes hl
        have hsplit : c.rest = Bits.ofBytes bytes ++ c.rest.drop (8 * n) := by
          rw [← hb, List.take_append_drop]
        obtain rfl := bytesAt_eq hn hsplit
        refine ⟨hn, rfl, ?_, ?_⟩
        · rw [Bits.length_ofBytes, hn]
        · refine hsplit.trans ?_
          rw [rest, rest, List.drop_drop]
    · cases h
  · rintro ⟨rfl, h⟩
    have hr := h.remaining_eq
    have hpos := h.position_eq
    rw [Bits.length_ofBytes] at hr hpos
    rw [remaining] at hr
    rw [dif_pos (by omega), Option.some.injEq, Prod.mk.injEq]
    exact ⟨bytesAt_eq rfl h.rest_eq, Cursor.ext h.data_eq.symm hpos.symm⟩

/-! ### Texts -/

/-- What is read up to a zero has none, and lies ahead with it. -/
theorem zeroTerminated?_sound {fuel : Nat} : ∀ {c c' : Cursor} {bytes : List UInt8},
    c.zeroTerminated? fuel = some (bytes, c') →
      0 ∉ bytes ∧ c.Takes (Bits.ofBytes (bytes ++ [0])) c' := by
  induction fuel with
  | zero => intro c c' bytes h; cases h
  | succ fuel ih =>
      intro c c' bytes h
      rw [zeroTerminated?] at h
      cases ht : c.take? 8 with
      | none => rw [ht] at h; cases h
      | some p =>
          obtain ⟨bs, d⟩ := p
          obtain ⟨h₈, htake⟩ := take?_eq_some_iff.mp ht
          rw [← Bits.ofByte_toNat h₈] at htake
          rw [ht] at h
          dsimp only at h
          split at h
          · next h₀ =>
              cases h
              rw [h₀] at htake
              exact ⟨List.not_mem_nil, htake⟩
          · next h₀ =>
              obtain ⟨⟨rest, d'⟩, hz, he⟩ := Option.map_eq_some_iff.mp h
              cases he
              obtain ⟨hmem, hrest⟩ := ih hz
              refine ⟨fun hm => ?_, ?_⟩
              · rcases List.mem_cons.mp hm with e | hm
                · exact h₀ e.symm
                · exact hmem hm
              · rw [List.cons_append, Bits.ofBytes_cons]
                exact htake.trans hrest

/-- Bytes without a zero that lie ahead with one behind them are read. -/
theorem zeroTerminated?_complete {bytes : List UInt8} : ∀ {fuel : Nat} {c c' : Cursor},
    bytes.length < fuel → 0 ∉ bytes → c.Takes (Bits.ofBytes (bytes ++ [0])) c' →
      c.zeroTerminated? fuel = some (bytes, c') := by
  induction bytes with
  | nil =>
      intro fuel c c' hf _ h
      obtain ⟨fuel, rfl⟩ := Nat.exists_eq_succ_of_ne_zero (Nat.ne_zero_of_lt hf)
      rw [List.nil_append, Bits.ofBytes_cons, Bits.ofBytes_nil, List.append_nil] at h
      rw [zeroTerminated?, take?_ofByte h]
      rfl
  | cons b bytes ih =>
      intro fuel c c' hf hmem h
      obtain ⟨hb, hmem⟩ := not_or.mp (mt List.mem_cons.mpr hmem)
      obtain ⟨fuel, rfl⟩ := Nat.exists_eq_succ_of_ne_zero (Nat.ne_zero_of_lt hf)
      rw [List.cons_append, Bits.ofBytes_cons] at h
      obtain ⟨d, h₁, h₂⟩ := h.split
      rw [zeroTerminated?, take?_ofByte h₁]
      dsimp only
      rw [Bits.toNat_ofByte, UInt8.ofNat_toNat, if_neg (Ne.symm hb),
        ih (Nat.lt_of_succ_lt_succ hf) hmem h₂]
      rfl

/-- A text is read exactly when its bytes lie ahead with the first zero byte behind them. -/
theorem text?_eq_some_iff {c c' : Cursor} {charset : Charset} {chars : List Char} :
    c.text? charset = some (chars, c') ↔
      ∃ bytes, 0 ∉ bytes ∧ charset.decode bytes = chars ∧
        c.Takes (Bits.ofBytes (bytes ++ [0])) c' := by
  constructor
  · intro h
    obtain ⟨⟨bytes, d⟩, hz, he⟩ := Option.map_eq_some_iff.mp h
    cases he
    obtain ⟨hmem, ht⟩ := zeroTerminated?_sound hz
    exact ⟨bytes, hmem, rfl, ht⟩
  · rintro ⟨bytes, hmem, rfl, ht⟩
    have hr := ht.remaining_eq
    rw [Bits.length_ofBytes, List.length_append, List.length_singleton] at hr
    rw [text?, zeroTerminated?_complete (by omega) hmem ht]
    rfl

end Cursor

end WireSchema
