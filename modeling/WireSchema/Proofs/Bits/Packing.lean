import WireSchema.Bits.Cursor
import WireSchema.Bits.Packer
import WireSchema.Proofs.Bits.Number

/-!
# Bits — Packing

A packer is a list of bits: pushing puts bits behind those it holds (`toBits_push`), its bytes are
those bits filled up with zeros (`ofBytes_toBytes`), and a sequence of writes packs the bits that
they stand for one behind the other (`writeAll_eq`). Where a packer begins and how its buffer grows
does not show.

A byte that is begun must be zero beyond the bits written, since the next bit is put in by an "or".
That is `Tidy`; an empty packer is tidy and every push leaves one so.
-/

namespace WireSchema

/-! ### The bits of a buffer, one by one -/

namespace Bits

/-- The first bit of a number is its highest. -/
theorem getElem?_ofNat (w n i : Nat) :
    (ofNat w n)[i]? = if i < w then some (n.testBit (w - 1 - i)) else none := by
  induction w generalizing i with
  | zero => rfl
  | succ w ih =>
      cases i with
      | zero => simp [ofNat]
      | succ i =>
          rw [ofNat, List.getElem?_cons_succ, ih, show w + 1 - 1 - (i + 1) = w - 1 - i by omega]
          simp only [Nat.add_lt_add_iff_right]

/-- Bits lie in bytes by eights, the highest first. -/
theorem getElem?_ofBytes (bytes : List UInt8) (i : Nat) :
    (ofBytes bytes)[i]? = (bytes[i / 8]?).map fun b => b.toNat.testBit (7 - i % 8) := by
  induction bytes generalizing i with
  | nil => rfl
  | cons b bytes ih =>
      rw [ofBytes_cons]
      by_cases h : i < 8
      · rw [List.getElem?_append_left (by rwa [length_ofByte]), ofByte, getElem?_ofNat, if_pos h,
          Nat.div_eq_of_lt h, Nat.mod_eq_of_lt h]
        rfl
      · rw [List.getElem?_append_right (by rw [length_ofByte]; omega), length_ofByte, ih,
          show i / 8 = (i - 8) / 8 + 1 by omega, List.getElem?_cons_succ,
          show (i - 8) % 8 = i % 8 by omega]

end Bits

namespace Cursor

/-- Beyond the data all bits are off. -/
theorem bitAt_of_le {data : Array UInt8} {i : Nat} (h : 8 * data.size ≤ i) :
    bitAt data i = false := by
  rw [bitAt, Array.getD_eq_getD_getElem?, Array.getElem?_eq_none (by omega)]
  exact Nat.zero_testBit _

/-- The bits of the data are those that the cursor finds. -/
theorem getElem?_ofBytes_toList (data : Array UInt8) (i : Nat) :
    (Bits.ofBytes data.toList)[i]? = if i < 8 * data.size then some (bitAt data i) else none := by
  rw [Bits.getElem?_ofBytes, Array.getElem?_toList, bitAt, Array.getD_eq_getD_getElem?]
  by_cases h : i < 8 * data.size
  · rw [if_pos h, Array.getElem?_eq_getElem (show i / 8 < data.size by omega)]
    rfl
  · rw [if_neg h, Array.getElem?_eq_none (by omega)]
    rfl

end Cursor

namespace Packer

open Cursor (bitAt)

/-- The bits of a packer are those in its buffer, up to its length. -/
theorem getElem?_toBits (p : Packer) (i : Nat) :
    p.toBits[i]? = if i < p.length then some (bitAt p.buffer i) else none := by
  have := p.length_le
  rw [toBits, List.getElem?_take, Cursor.getElem?_ofBytes_toList]
  by_cases h : i < p.length
  · rw [if_pos h, if_pos h, if_pos (by omega)]
  · rw [if_neg h, if_neg h]

@[simp] theorem length_toBits (p : Packer) : p.toBits.length = p.length := by
  have := p.length_le
  rw [toBits, List.length_take, Bits.length_ofBytes, Array.length_toList]
  omega

/-! ### Pushing -/

/-- Zero beyond the bits written, within the byte that is begun. -/
def Tidy (p : Packer) : Prop :=
  ∀ i, p.length ≤ i → i < 8 * ((p.length + 7) / 8) → bitAt p.buffer i = false

/-- Where nothing is written, nothing is set. -/
theorem tidy_withCapacity (capacity : Nat) (h : 0 < capacity) : (withCapacity capacity h).Tidy :=
  fun i _ hi => absurd hi (by show ¬ i < 8 * ((0 + 7) / 8); omega)

@[simp] theorem toBits_withCapacity (capacity : Nat) (h : 0 < capacity) :
    (withCapacity capacity h).toBits = [] :=
  List.take_zero

theorem length_reserve (p : Packer) : p.reserve.1.length = p.length := by
  unfold reserve
  split <;> rfl

/-- More room does not change what is written. -/
theorem bitAt_reserve (p : Packer) (i : Nat) : bitAt p.reserve.1.buffer i = bitAt p.buffer i := by
  unfold reserve
  split
  · rfl
  · by_cases h : i < 8 * p.buffer.size
    · simp only [bitAt, Array.getD_eq_getD_getElem?]
      rw [Array.getElem?_append_left (by omega)]
    · -- the room made is zero, and so is what lies beyond a buffer
      rw [Cursor.bitAt_of_le (Nat.not_lt.mp h), bitAt, Array.getD_eq_getD_getElem?,
        Array.getElem?_append_right (by omega), Array.getElem?_replicate]
      split <;> exact Nat.zero_testBit _

/-- A mask sets one bit of a byte and no other. -/
theorem testBit_or_mask (byte : UInt8) (b : Bool) {k j : Nat} (hk : k ≤ 7) (hj : j ≤ 7) :
    (byte ||| if b then 1 <<< UInt8.ofNat k else 0).toNat.testBit j =
      (byte.toNat.testBit j || (b && decide (j = k))) := by
  cases b with
  | false => simp
  | true =>
      rw [if_pos rfl, UInt8.toNat_or, Nat.testBit_or, UInt8.toNat_shiftLeft, UInt8.toNat_ofNat',
        Nat.mod_eq_of_lt (show k < 2 ^ 8 by omega), Nat.mod_eq_of_lt (show k < 8 by omega),
        UInt8.toNat_one, Nat.testBit_mod_two_pow, Nat.one_shiftLeft, Nat.testBit_two_pow,
        decide_eq_true (show j < 8 by omega), Bool.true_and, Bool.true_and]
      simp only [eq_comm]

@[simp] theorem length_pushBit (p : Packer) (b : Bool) : (p.pushBit b).length = p.length + 1 :=
  congrArg (· + 1) p.length_reserve

/-- What a push does to a buffer: to the byte that holds the new bit, and to no other. -/
theorem bitAt_pushBit (p : Packer) (b : Bool) (i : Nat) :
    bitAt (p.pushBit b).buffer i =
      if i / 8 = p.length / 8 then
        ((if p.length % 8 = 0 then false else bitAt p.buffer i) || (b && decide (i = p.length)))
      else bitAt p.buffer i := by
  rw [← bitAt_reserve p i]
  unfold pushBit
  generalize hq : p.reserve = q
  have hl : p.length = q.1.length := by rw [← hq, length_reserve]
  rw [hl]
  obtain ⟨⟨buffer, length, le, pos⟩, room⟩ := q
  dsimp only at room ⊢
  by_cases h : i / 8 = length / 8
  · have hmod : decide (7 - i % 8 = 7 - length % 8) = decide (i = length) := by
      rw [decide_eq_decide]; omega
    rw [if_pos h, bitAt, Array.getD_eq_getD_getElem?, h, Array.getElem?_set_self (by omega),
      Option.getD_some, testBit_or_mask _ _ (by omega) (by omega), hmod]
    by_cases h₀ : length % 8 = 0
    · rw [if_pos h₀, if_pos h₀]
      simp
    · rw [if_neg h₀, if_neg h₀, bitAt, Array.getD_eq_getD_getElem?, h,
        Array.getElem?_eq_getElem (by omega), Option.getD_some]
  · rw [if_neg h, bitAt, Array.getD_eq_getD_getElem?, Array.getElem?_set_ne (by omega) (Ne.symm h),
      ← Array.getD_eq_getD_getElem?, bitAt]

/-- Behind the last bit that is written all bits stay off. -/
theorem Tidy.pushBit {p : Packer} (h : p.Tidy) (b : Bool) : (p.pushBit b).Tidy := by
  intro i hi hlt
  rw [length_pushBit] at hi hlt
  rw [bitAt_pushBit]
  have hne : decide (i = p.length) = false := decide_eq_false (by omega)
  rw [if_pos (by omega), hne, Bool.and_false, Bool.or_false]
  by_cases h₀ : p.length % 8 = 0
  · exact if_pos h₀
  · rw [if_neg h₀]
    exact h i (by omega) (by omega)

/-- A bit is put at the end. -/
theorem toBits_pushBit {p : Packer} (h : p.Tidy) (b : Bool) :
    (p.pushBit b).toBits = p.toBits ++ [b] := by
  refine List.ext_getElem? fun i => ?_
  -- before, at and behind the place of the new bit
  rw [getElem?_toBits, length_pushBit, bitAt_pushBit, List.getElem?_append, length_toBits,
    getElem?_toBits]
  rcases lt_trichotomy i p.length with hi | rfl | hi
  · have hne : decide (i = p.length) = false := decide_eq_false (by omega)
    rw [if_pos (by omega), if_pos hi, if_pos hi, hne, Bool.and_false, Bool.or_false]
    by_cases hb : i / 8 = p.length / 8
    · rw [if_pos hb, if_neg (by omega)]
    · rw [if_neg hb]
  · have hold : (if p.length % 8 = 0 then false else bitAt p.buffer p.length) = false := by
      split
      · rfl
      · next h₀ => exact h _ (Nat.le_refl _) (by omega)
    rw [if_pos (Nat.lt_succ_self _), if_pos rfl, hold, if_neg (Nat.lt_irrefl _), Nat.sub_self,
      decide_eq_true rfl, Bool.and_true, Bool.false_or]
    rfl
  · rw [if_neg (by omega), if_neg (by omega), List.getElem?_eq_none]
    exact Nat.le_sub_of_add_le (by rw [List.length_singleton]; omega)

theorem Tidy.push {p : Packer} (h : p.Tidy) (bs : Bits) : (p.push bs).Tidy := by
  induction bs generalizing p with
  | nil => exact h
  | cons b bs ih => exact ih (h.pushBit b)

/-- The bits pushed lie behind those held before. -/
theorem toBits_push {p : Packer} (h : p.Tidy) (bs : Bits) :
    (p.push bs).toBits = p.toBits ++ bs := by
  induction bs generalizing p with
  | nil => exact (List.append_nil _).symm
  | cons b bs ih =>
      rw [push, List.foldl_cons, ← push, ih (h.pushBit b), toBits_pushBit h, List.append_assoc]
      rfl

/-! ### Bytes and writes -/

/-- The last byte need not be full. -/
theorem size_toBytes (p : Packer) : p.toBytes.size = (p.length + 7) / 8 := by
  have := p.length_le
  rw [toBytes, Array.size_extract]
  omega

/-- The bytes of a tidy packer are its bits, filled up with zeros to whole bytes. -/
theorem ofBytes_toBytes {p : Packer} (h : p.Tidy) :
    Bits.ofBytes p.toBytes.toList = p.toBits.padded := by
  have hle := p.length_le
  have hbit : ∀ i, i < 8 * ((p.length + 7) / 8) → bitAt p.toBytes i = bitAt p.buffer i := by
    intro i hi
    simp only [bitAt, Array.getD_eq_getD_getElem?, toBytes]
    rw [Array.getElem?_extract, if_pos (by omega), Nat.zero_add]
  refine List.ext_getElem? fun i => ?_
  rw [Cursor.getElem?_ofBytes_toList, size_toBytes, Bits.padded, List.getElem?_append,
    length_toBits, getElem?_toBits, List.getElem?_replicate]
  by_cases hi : i < p.length
  · rw [if_pos (by omega), if_pos hi, if_pos hi, hbit i (by omega)]
  · by_cases hj : i < 8 * ((p.length + 7) / 8)
    · rw [if_pos hj, if_neg hi, if_pos (by omega), hbit i hj, h i (by omega) hj]
    · rw [if_neg hj, if_neg hi, if_neg (by omega)]

end Packer

namespace Write

/-- The bits of a sequence of writes, one behind the other. -/
def allBits : List Write → Except WidthError Bits
  | [] => .ok []
  | w :: ws => do return (← w.toBits) ++ (← allBits ws)

theorem allBits_cons_eq {w : Write} {ws : List Write} {bs cs : Bits} (hw : w.toBits = .ok bs)
    (hws : allBits ws = .ok cs) : allBits (w :: ws) = .ok (bs ++ cs) := by
  rw [allBits, hw, hws]
  rfl

/-- What several writes put down is what the first does, and the others behind it. -/
theorem allBits_cons_eq_ok {w : Write} {ws : List Write} {bs : Bits}
    (h : allBits (w :: ws) = .ok bs) :
    ∃ b₁ b₂, w.toBits = .ok b₁ ∧ allBits ws = .ok b₂ ∧ bs = b₁ ++ b₂ := by
  rw [allBits] at h
  cases h₁ : w.toBits with
  | error e => rw [h₁] at h; cases h
  | ok b₁ =>
      cases h₂ : allBits ws with
      | error e => rw [h₁, h₂] at h; cases h
      | ok b₂ =>
          rw [h₁, h₂] at h
          cases h
          exact ⟨b₁, b₂, rfl, rfl, rfl⟩

/-- Writes one behind the other put down their bits one behind the other. -/
theorem allBits_append {ws vs : List Write} {bs cs : Bits} (hw : allBits ws = .ok bs)
    (hv : allBits vs = .ok cs) : allBits (ws ++ vs) = .ok (bs ++ cs) := by
  induction ws generalizing bs with
  | nil => cases hw; exact hv
  | cons w ws ih =>
      obtain ⟨b₁, b₂, h₁, h₂, rfl⟩ := allBits_cons_eq_ok hw
      rw [List.cons_append, allBits_cons_eq h₁ (ih h₂), List.append_assoc]

end Write

namespace Packer

/-- Writes pack the bits that they stand for. -/
theorem writeAll_eq (p : Packer) {ws : List Write} {bs : Bits} (h : Write.allBits ws = .ok bs) :
    p.writeAll ws = .ok (p.push bs) := by
  induction ws generalizing p bs with
  | nil => cases h; rfl
  | cons w ws ih =>
      obtain ⟨b₁, b₂, h₁, h₂, rfl⟩ := Write.allBits_cons_eq_ok h
      rw [writeAll, write, h₁]
      show (p.push b₁).writeAll ws = .ok (p.push (b₁ ++ b₂))
      rw [ih _ h₂, push, push, push, List.foldl_append]

end Packer

end WireSchema
