import Mathlib.Tactic.Ring
import WireSchema.Bits.Write

/-!
# Bits — Numbers

Bit strings of one length and the numbers below a power of two are the same thing: `ofNat` and
`toNat` are inverse (`toNat_ofNat`, `ofNat_toNat`), and a bit string is settled by its length and
its number (`eq_of_toNat_eq`). `ofInt` and `toInt` are inverse in the same way, up to the modulus;
within the range that `fits` tells, an integer comes back as it is.
-/

namespace WireSchema

namespace Bits

/-- The bits behind a number are its lowest. -/
theorem foldl_toNat (bs : Bits) (a : Nat) :
    bs.foldl (fun n b => 2 * n + b.toNat) a = a * 2 ^ bs.length + bs.toNat := by
  induction bs generalizing a with
  | nil => simp [toNat]
  | cons b bs ih =>
      rw [toNat, List.foldl_cons, List.foldl_cons, ih, ih (2 * 0 + b.toNat), List.length_cons,
        pow_succ]
      ring

theorem toNat_cons (b : Bool) (bs : Bits) :
    toNat (b :: bs) = b.toNat * 2 ^ bs.length + bs.toNat := by
  rw [toNat, List.foldl_cons, foldl_toNat, Nat.mul_zero, Nat.zero_add]

/-- The number that `n` bits spell is below `2 ^ n`. -/
theorem toNat_lt (bs : Bits) : bs.toNat < 2 ^ bs.length := by
  induction bs with
  | nil => exact Nat.one_pos
  | cons b bs ih =>
      rw [toNat_cons, List.length_cons, pow_succ]
      cases b
      · rw [Bool.toNat_false]; omega
      · rw [Bool.toNat_true]; omega

/-- A bit string is settled by its length and its number. -/
theorem eq_of_toNat_eq {bs cs : Bits} (hl : bs.length = cs.length) (hn : bs.toNat = cs.toNat) :
    bs = cs := by
  induction bs generalizing cs with
  | nil => exact (List.length_eq_zero_iff.mp hl.symm).symm
  | cons b bs ih =>
      cases cs with
      | nil => cases hl
      | cons c cs =>
          have hl' : bs.length = cs.length := Nat.succ.inj hl
          have hb := toNat_lt bs
          have hc := toNat_lt cs
          rw [toNat_cons, toNat_cons, hl'] at hn
          rw [hl'] at hb
          -- the leading bits differ by a whole power of two, which the rest cannot make up for
          have hbc : b = c := by
            cases b
            · cases c
              · rfl
              · rw [Bool.toNat_false, Bool.toNat_true] at hn
                omega
            · cases c
              · rw [Bool.toNat_false, Bool.toNat_true] at hn
                omega
              · rfl
          subst hbc
          rw [ih hl' (Nat.add_left_cancel hn)]

/-- Of a number the lowest bits are kept. -/
@[simp] theorem toNat_ofNat (w n : Nat) : (ofNat w n).toNat = n % 2 ^ w := by
  induction w with
  | zero => simp [ofNat, toNat, Nat.mod_one]
  | succ w ih =>
      rw [ofNat, toNat_cons, ih, length_ofNat, Nat.mod_pow_succ, Nat.toNat_testBit]
      ring

/-! ### Integers -/

/-- Of an integer the lowest bits are kept, as if it were infinitely long. -/
theorem toNat_ofInt (w : Nat) (v : Int) : ((ofInt w v).toNat : Int) = v % (2 ^ w : Nat) := by
  have hw : (0 : Int) < (2 ^ w : Nat) := by exact_mod_cast Nat.two_pow_pos w
  have h₀ := Int.emod_nonneg v hw.ne'
  have h₁ := Int.emod_lt_of_pos v hw
  rw [ofInt, toNat_ofNat, Nat.pow_eq, Nat.mod_eq_of_lt (by omega), Int.toNat_of_nonneg h₀]

/-- What is read back of an integer is its remainder nearest to zero. -/
theorem toInt_ofInt (w : Nat) (v : Int) : (ofInt w v).toInt = v.bmod (2 ^ w) := by
  rw [toInt, toNat_ofInt, length_ofInt, Nat.pow_eq, Int.emod_bmod]

@[simp] theorem ofInt_toNat (bs : Bits) : ofInt bs.length bs.toNat = bs := by
  refine eq_of_toNat_eq (length_ofInt _ _) ?_
  have := toNat_ofInt bs.length bs.toNat
  rw [← Int.natCast_emod, Nat.mod_eq_of_lt (toNat_lt bs)] at this
  exact_mod_cast this

@[simp] theorem ofInt_toInt (bs : Bits) : ofInt bs.length bs.toInt = bs := by
  refine Eq.trans ?_ (ofInt_toNat bs)
  rw [ofInt, ofInt, toInt, Nat.pow_eq, Int.bmod_emod]

/-- A signed integer that fits is read as it was. -/
theorem toInt_ofInt_of_fits {w : Nat} (hw : 1 ≤ w) {v : Int} (h : fits true w v = true) :
    (ofInt w v).toInt = v := by
  obtain ⟨w, rfl⟩ := Nat.exists_eq_add_of_le' hw
  simp only [fits, if_true, Bool.and_eq_true, decide_eq_true_eq, Nat.pow_eq,
    Nat.add_sub_cancel] at h
  rw [toInt_ofInt]
  refine Int.bmod_eq_of_le ?_ ?_ <;> rw [pow_succ] <;> push_cast at h ⊢ <;> omega

/-- An unsigned integer that fits is read as it was. -/
theorem toNat_ofInt_of_fits {w : Nat} {v : Int} (h : fits false w v = true) :
    ((ofInt w v).toNat : Int) = v := by
  simp only [fits, Bool.false_eq_true, if_false, Bool.and_eq_true, decide_eq_true_eq,
    Nat.pow_eq] at h
  rw [toNat_ofInt, Int.emod_eq_of_lt h.1 h.2]

/-! ### Bytes -/

@[simp] theorem toNat_ofByte (b : UInt8) : (ofByte b).toNat = b.toNat := by
  rw [ofByte, toNat_ofNat, Nat.mod_eq_of_lt b.toNat_lt]

/-- Eight bits are those of the byte that they spell. -/
theorem ofByte_toNat {bs : Bits} (h : bs.length = 8) : ofByte (UInt8.ofNat bs.toNat) = bs := by
  have hlt := toNat_lt bs
  refine eq_of_toNat_eq (by rw [length_ofByte, h]) ?_
  rw [toNat_ofByte, UInt8.toNat_ofNat', Nat.mod_eq_of_lt (by rwa [h] at hlt)]

/-- Bits in eights are those of some bytes. -/
theorem exists_ofBytes {n : Nat} : ∀ {bs : Bits}, bs.length = 8 * n →
    ∃ bytes : List UInt8, bytes.length = n ∧ bs = ofBytes bytes := by
  induction n with
  | zero => exact fun h => ⟨[], rfl, List.length_eq_zero_iff.mp h⟩
  | succ n ih =>
      intro bs h
      have hl : (bs.drop 8).length = 8 * n := by rw [List.length_drop]; omega
      obtain ⟨bytes, hn, hbs⟩ := ih hl
      refine ⟨UInt8.ofNat (toNat (bs.take 8)) :: bytes, congrArg (· + 1) hn, ?_⟩
      have h₈ : (bs.take 8).length = 8 := by rw [List.length_take]; omega
      rw [ofBytes_cons, ofByte_toNat h₈, ← hbs, List.take_append_drop]

/-- A byte is known from its bits. -/
theorem ofByte_inj {a b : UInt8} (h : ofByte a = ofByte b) : a = b := by
  rw [← UInt8.toNat_inj, ← toNat_ofByte a, ← toNat_ofByte b, h]

/-- Bytes are settled by their bits. -/
theorem ofBytes_inj {xs : List UInt8} : ∀ {ys : List UInt8}, ofBytes xs = ofBytes ys → xs = ys := by
  induction xs with
  | nil =>
      intro ys h
      cases ys with
      | nil => rfl
      | cons y ys => cases h
  | cons x xs ih =>
      intro ys h
      cases ys with
      | nil => cases h
      | cons y ys =>
          rw [ofBytes_cons, ofBytes_cons] at h
          obtain ⟨hb, hrest⟩ := List.append_inj h ((length_ofByte x).trans (length_ofByte y).symm)
          rw [ofByte_inj hb, ih hrest]

end Bits

end WireSchema
