import Mathlib.Algebra.Group.Nat.Defs
import WireSchema.Proofs.Text.Charset

/-!
# Text — What is decoded comes back

Whatever the bytes of a field, none of which is zero, the text that a charset reads from them is one
that it gives back (`Charset.canonical_decodeText`): the Hebrew table and its mark give known
characters, and UTF-8 never gives NUL.

The second holds since a form, wherever it is broken off, can only come to characters. The numbers
that it can still come to lie between two bounds (`Pending.least`, `Pending.most`), which every byte
narrows, and from the first byte on there is no surrogate and no zero between them
(`Pending.Sound`).
-/

namespace WireSchema

namespace Utf8

/-! ### Forms that have begun -/

/-- The least number that a form can come to. -/
def Pending.least (p : Pending) : Nat := (p.payload * 64 + p.low.toNat % 64) * 64 ^ (p.missing - 1)

/-- The number behind the greatest that a form can come to. -/
def Pending.most (p : Pending) : Nat :=
  (p.payload * 64 + p.high.toNat % 64 + 1) * 64 ^ (p.missing - 1)

/-- A form that can come to characters only, and not to NUL. -/
structure Pending.Sound (p : Pending) : Prop where
  missing_pos : 1 ≤ p.missing
  low_ge : 0x80 ≤ p.low.toNat
  high_le : p.high.toNat ≤ 0xbf
  least_pos : 0 < p.least
  valid : p.most ≤ 0xd800 ∨ 0xe000 ≤ p.least ∧ p.most ≤ 0x110000

theorem Pending.least_full {n m : Nat} (hm : 1 ≤ m) :
    Pending.least ⟨n, m, 0x80, 0xbf⟩ = n * 64 ^ m := by
  obtain ⟨k, rfl⟩ := Nat.exists_eq_add_of_le' hm
  have hlow : (0x80 : UInt8).toNat % 64 = 0 := by decide
  rw [least, hlow, Nat.add_zero, Nat.add_sub_cancel, Nat.pow_succ', Nat.mul_assoc]

theorem Pending.most_full {n m : Nat} (hm : 1 ≤ m) :
    Pending.most ⟨n, m, 0x80, 0xbf⟩ = (n + 1) * 64 ^ m := by
  obtain ⟨k, rfl⟩ := Nat.exists_eq_add_of_le' hm
  have hhigh : (0xbf : UInt8).toNat % 64 + 1 = 64 := by decide
  rw [most, Nat.add_assoc, hhigh, ← Nat.succ_mul, Nat.add_sub_cancel, Nat.pow_succ', Nat.mul_assoc]

/-- A form that any payload may follow. -/
theorem Pending.Sound.full {n m : Nat} (hm : 1 ≤ m) (hpos : 0 < n)
    (hvalid : (n + 1) * 64 ^ m ≤ 0xd800 ∨ 0xe000 ≤ n * 64 ^ m ∧ (n + 1) * 64 ^ m ≤ 0x110000) :
    Pending.Sound ⟨n, m, 0x80, 0xbf⟩ := by
  refine ⟨hm, Nat.le_refl 0x80, Nat.le_refl 0xbf, ?_, ?_⟩
  · rw [least_full hm]
    exact Nat.mul_pos hpos (Nat.pow_pos (by decide))
  · rwa [least_full hm, most_full hm]

theorem ofNat_ne_nul {n : Nat} (hpos : 0 < n)
    (hvalid : n < 0xd800 ∨ 0xe000 ≤ n ∧ n < 0x110000) : Char.ofNat n ≠ '\x00' := by
  intro h
  rw [← CodePoint.toNat_ofNat hvalid, h] at hpos
  exact Nat.lt_irrefl 0 hpos

namespace Pending.Sound

variable {p : Pending} {b : UInt8}

/-- A byte that a form admits leaves it between its bounds. -/
theorem between (h : p.Sound) (hb : p.low ≤ b ∧ b ≤ p.high) :
    p.least ≤ (p.payload * 64 + b.toNat % 64) * 64 ^ (p.missing - 1) ∧
      (p.payload * 64 + b.toNat % 64 + 1) * 64 ^ (p.missing - 1) ≤ p.most := by
  have hlow := UInt8.le_iff_toNat_le.mp hb.1
  have hhigh := UInt8.le_iff_toNat_le.mp hb.2
  have := h.low_ge
  have := h.high_le
  exact ⟨Nat.mul_le_mul_right _ (by omega), Nat.mul_le_mul_right _ (by omega)⟩

/-- The last byte of a form gives a character that is not NUL. -/
theorem last (h : p.Sound) (hb : p.low ≤ b ∧ b ≤ p.high) (hm : p.missing ≤ 1) :
    Char.ofNat (p.payload * 64 + b.toNat % 64) ≠ '\x00' := by
  obtain ⟨hleast, hmost⟩ := h.between hb
  have hone : 64 ^ (p.missing - 1) = 1 := by rw [Nat.sub_eq_zero_of_le hm, Nat.pow_zero]
  rw [hone, Nat.mul_one] at hleast hmost
  have hpos := h.least_pos
  have hvalid := h.valid
  exact ofNat_ne_nul (by omega) (by omega)

/-- A byte inside a form leaves a form that is sound. -/
theorem more (h : p.Sound) (hb : p.low ≤ b ∧ b ≤ p.high) (hm : ¬ p.missing ≤ 1) :
    Pending.Sound ⟨p.payload * 64 + b.toNat % 64, p.missing - 1, 0x80, 0xbf⟩ := by
  obtain ⟨hleast, hmost⟩ := h.between hb
  refine .full (by omega) ?_ ?_
  · exact Nat.pos_of_mul_pos_right (Nat.lt_of_lt_of_le h.least_pos hleast)
  · exact h.valid.imp (Nat.le_trans hmost) fun hv =>
      ⟨Nat.le_trans hv.1 hleast, Nat.le_trans hmost hv.2⟩

end Pending.Sound

/-- What a byte is where a form begins. The ranges of the second byte keep out the numbers that have
a shorter form, those of surrogates and those beyond the last character. -/
inductive Led (n : Nat) : Lead → Prop
  | single : n < 0x80 → Led n (.complete (Char.ofNat n))
  | stray : 0x80 ≤ n → n < 0xc2 → Led n .invalid
  | two (m : Nat) : n = 0xc0 + m → 2 ≤ m → m < 32 → Led n (.incomplete ⟨m, 1, 0x80, 0xbf⟩)
  | three (m : Nat) : n = 0xe0 + m → 0 < m → m < 16 → m ≠ 13 →
      Led n (.incomplete ⟨m, 2, 0x80, 0xbf⟩)
  | threeFirst : n = 0xe0 → Led n (.incomplete ⟨0, 2, 0xa0, 0xbf⟩)
  | threeSurrogate : n = 0xed → Led n (.incomplete ⟨0xd, 2, 0x80, 0x9f⟩)
  | four (m : Nat) : n = 0xf0 + m → 0 < m → m < 4 → Led n (.incomplete ⟨m, 3, 0x80, 0xbf⟩)
  | fourFirst : n = 0xf0 → Led n (.incomplete ⟨0, 3, 0x90, 0xbf⟩)
  | fourLast : n = 0xf4 → Led n (.incomplete ⟨4, 3, 0x80, 0x8f⟩)
  | beyond : 0xf4 < n → Led n .invalid

theorem led_lead (b : UInt8) : Led b.toNat (lead b) := by
  rw [lead]
  generalize b.toNat = n
  by_cases h₁ : n < 0x80
  · rw [if_pos h₁]
    exact .single h₁
  rw [if_neg h₁]
  by_cases h₂ : n < 0xc2
  · rw [if_pos h₂]
    exact .stray (Nat.le_of_not_lt h₁) h₂
  rw [if_neg h₂]
  by_cases h₃ : n < 0xe0
  · rw [if_pos h₃]
    exact .two _ (by omega) (by omega) (by omega)
  rw [if_neg h₃]
  by_cases h₄ : n = 0xe0
  · rw [if_pos (beq_iff_eq.mpr h₄)]
    exact .threeFirst h₄
  rw [if_neg (mt beq_iff_eq.mp h₄)]
  by_cases h₅ : n = 0xed
  · rw [if_pos (beq_iff_eq.mpr h₅)]
    exact .threeSurrogate h₅
  rw [if_neg (mt beq_iff_eq.mp h₅)]
  by_cases h₆ : n < 0xf0
  · rw [if_pos h₆]
    exact .three _ (by omega) (by omega) (by omega) (by omega)
  rw [if_neg h₆]
  by_cases h₇ : n = 0xf0
  · rw [if_pos (beq_iff_eq.mpr h₇)]
    exact .fourFirst h₇
  rw [if_neg (mt beq_iff_eq.mp h₇)]
  by_cases h₈ : n < 0xf4
  · rw [if_pos h₈]
    exact .four _ (by omega) (by omega) (by omega)
  rw [if_neg h₈]
  by_cases h₉ : n = 0xf4
  · rw [if_pos (beq_iff_eq.mpr h₉)]
    exact .fourLast h₉
  · rw [if_neg (mt beq_iff_eq.mp h₉)]
    exact .beyond (by omega)

/-- A form begins so that it can come to characters only. -/
theorem sound_of_lead {b : UInt8} {p : Pending} (h : lead b = .incomplete p) : p.Sound := by
  have hled := led_lead b
  rw [h] at hled
  cases hled with
  | two m => exact .full (by decide) (by omega) (by omega)
  | three m => exact .full (by decide) (by omega) (by omega)
  | four m => exact .full (by decide) (by omega) (by omega)
  | threeFirst => exact ⟨by decide, by decide, by decide, by decide, by decide⟩
  | threeSurrogate => exact ⟨by decide, by decide, by decide, by decide, by decide⟩
  | fourFirst => exact ⟨by decide, by decide, by decide, by decide, by decide⟩
  | fourLast => exact ⟨by decide, by decide, by decide, by decide, by decide⟩

theorem begin_sound {b : UInt8} (hb : b ≠ 0) :
    '\x00' ∉ (begin b).1 ∧ ∀ p, (begin b).2 = some p → p.Sound := by
  rw [begin]
  split
  · next c hc =>
      refine ⟨?_, fun q hq => by cases hq⟩
      rw [List.mem_singleton]
      have hpos : 0 < b.toNat := by
        refine Nat.pos_of_ne_zero fun h₀ => hb ?_
        exact UInt8.toNat_inj.mp h₀
      have hled := led_lead b
      rw [hc] at hled
      cases hled with
      | single => exact (ofNat_ne_nul hpos (by omega)).symm
  · next p hp => exact ⟨List.not_mem_nil, fun q hq => by cases hq; exact sound_of_lead hp⟩
  · exact ⟨by decide, fun q hq => by cases hq⟩

theorem step_sound {state : Option Pending} {b : UInt8} (hb : b ≠ 0)
    (h : ∀ p, state = some p → p.Sound) :
    '\x00' ∉ (step state b).1 ∧ ∀ p, (step state b).2 = some p → p.Sound := by
  cases state with
  | none => exact begin_sound hb
  | some p =>
      have hp := h p rfl
      rw [step]
      split
      · next hr =>
          dsimp only
          split
          · next hm =>
              refine ⟨?_, fun q hq => by cases hq⟩
              rw [List.mem_singleton]
              exact (hp.last hr hm).symm
          · next hm =>
              refine ⟨List.not_mem_nil, fun q hq => ?_⟩
              cases hq
              exact hp.more hr hm
      · obtain ⟨hchars, hnext⟩ := begin_sound hb
        refine ⟨?_, hnext⟩
        rw [List.mem_cons, not_or]
        exact ⟨by decide, hchars⟩

/-! ### Texts -/

theorem nul_not_mem_decodeFrom {bytes : List UInt8} : ∀ {state : Option Pending}, 0 ∉ bytes →
    (∀ p, state = some p → p.Sound) → '\x00' ∉ decodeFrom state bytes := by
  induction bytes with
  | nil =>
      intro state _ _
      cases state with
      | none => exact List.not_mem_nil
      | some p => rw [decodeFrom]; decide
  | cons b bytes ih =>
      intro state hb h
      rw [List.mem_cons, not_or] at hb
      obtain ⟨hchars, hnext⟩ := step_sound (Ne.symm hb.1) h
      rw [decodeFrom_cons, List.mem_append, not_or]
      exact ⟨hchars, ih hb.2 hnext⟩

end Utf8

namespace Hebrew

/-- Every byte is read as a known character. -/
theorem known_of_mem_decode {bytes : List UInt8} {c : Char} (h : c ∈ decode bytes) : Known c := by
  obtain ⟨b, -, rfl⟩ := List.mem_map.mp h
  cases hb : char? b with
  | none => exact Or.inr rfl
  | some c =>
      obtain ⟨entry, hf, rfl⟩ := Option.map_eq_some_iff.mp hb
      exact Or.inl (List.mem_map_of_mem (List.mem_of_find?_eq_some hf))

end Hebrew

/-- **What is decoded comes back**: whatever the bytes of a field. -/
theorem Charset.canonical_decodeText (charset : Charset) {bytes : List UInt8} (h : 0 ∉ bytes) :
    charset.Canonical (charset.decodeText bytes) := by
  cases charset with
  | utf8 => exact canonical_utf8_iff.mpr (Utf8.nul_not_mem_decodeFrom h nofun)
  | hebrew => exact canonical_hebrew_iff.mpr fun _ => Hebrew.known_of_mem_decode

end WireSchema
