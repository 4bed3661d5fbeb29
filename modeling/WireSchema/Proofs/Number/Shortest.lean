import Mathlib.Tactic.Ring
import WireSchema.Number.Decimal
import WireSchema.Proofs.Number.Nearest

/-!
# Number — Decimals that read back

The decimal that is written for a finite double is read as this double (`toBinary64_shortest`). A
candidate among the seventeen precisions is only taken if it reads back. The decimal that is left
without one is exact: it has the double's own units for a numerator, over a power of ten that makes
up for the power of two, so nothing is rounded (`toBinary64_exact`). It lies between the powers of
ten beyond which no decimal is worked out, as a finite double does.

What a decimal is read as depends on its number alone, not on the zeros that it ends in
(`toBinary64_scale`), so these may be taken away or added.
-/

namespace WireSchema

/-- A quotient is rounded the same when both its sides are multiplied. -/
theorem roundHalfEven_mul_mul {c : Nat} (hc : 0 < c) (num den : Nat) :
    roundHalfEven (num * c) (den * c) = roundHalfEven num den := by
  have hr : 2 * (num * c % (den * c)) = 2 * (num % den) * c := by
    rw [Nat.mul_mod_mul_right, Nat.mul_assoc]
  simp only [roundHalfEven]
  rw [Nat.mul_div_mul_right _ _ hc, hr]
  simp only [Nat.mul_lt_mul_right hc]

/-- Rounding takes a fraction, not its numerator and denominator. -/
theorem Format.nearest_mul_mul (f : Format) {c : Nat} (hc : 0 < c) (num den : Nat) :
    f.nearest (num * c) (den * c) = f.nearest num den := by
  have hn : num * c * Nat.pow 2 f.scale = num * Nat.pow 2 f.scale * c := Nat.mul_right_comm _ _ _
  simp only [Format.nearest]
  rw [hn, Nat.mul_div_mul_right _ _ hc, Nat.mul_right_comm den c, roundHalfEven_mul_mul hc]

/-- Quotients that are equal have the same nearest number. -/
theorem Format.nearest_congr (f : Format) {num den num' den' : Nat} (hd : 0 < den)
    (hd' : 0 < den') (h : num * den' = num' * den) : f.nearest num den = f.nearest num' den' := by
  rw [← f.nearest_mul_mul hd' num den, ← f.nearest_mul_mul hd num' den', h, Nat.mul_comm den den']

/-- A bound of the finite numbers of a format, in units. -/
theorem Format.units_lt {f : Format} (hp : 0 < f.precision) {m : Nat} (h : m < f.infinity) :
    f.units m < 2 ^ (f.precision + (2 ^ f.exponentBits - 3)) := by
  have hb := f.two_mul_binade hp
  have hq : m / f.binade < 2 ^ f.exponentBits - 1 := (Nat.div_lt_iff_lt_mul f.binade_pos).mpr h
  have hsmall : f.units m < 2 * f.binade * 2 ^ (m / f.binade - 1) := by
    have hlt := Nat.mod_lt m f.binade_pos
    rw [Format.units]
    split
    · exact Nat.lt_of_lt_of_le (by omega) (Nat.le_mul_of_pos_right _ (Nat.two_pow_pos _))
    · exact Nat.mul_lt_mul_of_pos_right (by omega) (Nat.two_pow_pos _)
  refine Nat.lt_of_lt_of_le hsmall ?_
  rw [hb, ← pow_add]
  exact Nat.pow_le_pow_right (by decide) (by omega)

namespace Decimal

/-! ### The number of digits -/

/-- A number has at most `k` digits exactly if it is below `10 ^ k`. -/
theorem length_le_iff {n k : Nat} (hk : 0 < k) : length n ≤ k ↔ n < 10 ^ k :=
  Nat.length_toDigits_le_iff (by decide) hk

theorem lt_length_iff {n k : Nat} (hk : 0 < k) : k < length n ↔ 10 ^ k ≤ n := by
  rw [← Nat.not_le, length_le_iff hk, Nat.not_lt]

theorem length_ten_mul {n : Nat} (h : n ≠ 0) : length (10 * n) = length n + 1 := by
  have hb : 10 ≤ 10 * n := Nat.le_mul_of_pos_right 10 (Nat.pos_of_ne_zero h)
  rw [length, Nat.toDigits_of_base_le (by decide) hb, Nat.mul_div_cancel_left n (by decide),
    List.length_append, List.length_singleton, length]

/-! ### Zeros at the end -/

theorem ratio_pos (d : Decimal) : 0 < d.ratio.2 := by
  rw [ratio]
  split
  · exact Nat.one_pos
  · exact Nat.pow_pos (by decide)

/-- With a zero at its end and the exponent one less, a decimal has the same ratio. -/
theorem ratio_ten_mul (n : Nat) (e : Int) :
    (⟨10 * n, e - 1⟩ : Decimal).ratio.1 * (⟨n, e⟩ : Decimal).ratio.2 =
      (⟨n, e⟩ : Decimal).ratio.1 * (⟨10 * n, e - 1⟩ : Decimal).ratio.2 := by
  simp only [ratio, Nat.pow_eq]
  by_cases he : 1 ≤ e
  · have hs : e.toNat = (e - 1).toNat + 1 := by omega
    rw [if_pos (by omega), if_pos (by omega), hs, pow_succ]
    ring
  · by_cases h₀ : e = 0
    · subst h₀
      simp [Nat.mul_comm]
    · have hs : (-(e - 1)).toNat = (-e).toNat + 1 := by omega
      rw [if_neg (by omega), if_neg (by omega), hs, pow_succ]
      ring

theorem ratio_neg {s : Nat} (hs : 0 < s) (n : Nat) :
    (⟨n, -(s : Int)⟩ : Decimal).ratio = (n, 10 ^ s) := by
  simp only [ratio, Nat.pow_eq]
  rw [if_neg (by omega), Int.neg_neg, Int.toNat_natCast]

theorem toBinary64_ten_mul (negative : Bool) (n : Nat) (e : Int) :
    toBinary64 negative ⟨10 * n, e - 1⟩ = toBinary64 negative ⟨n, e⟩ := by
  by_cases hn : n = 0
  · subst hn
    rw [toBinary64, toBinary64, if_pos (.inl rfl), if_pos (.inl rfl)]
  · have htop : e - 1 + (length (10 * n) : Int) = e + length n := by
      rw [length_ten_mul hn]
      omega
    have hten : 10 * n ≠ 0 := Nat.mul_ne_zero (by decide) hn
    simp only [toBinary64, Binary64.ofRatio, htop, hn, hten]
    rw [Format.nearest_congr _ (ratio_pos _) (ratio_pos _) (ratio_ten_mul n e)]

/-- Zeros at the end of a decimal, made up for by the exponent, do not change what it is read as. -/
theorem toBinary64_scale (negative : Bool) (n k : Nat) (e : Int) :
    toBinary64 negative ⟨n * 10 ^ k, e - k⟩ = toBinary64 negative ⟨n, e⟩ := by
  induction k with
  | zero => rw [pow_zero, Nat.mul_one, Int.natCast_zero, Int.sub_zero]
  | succ k ih =>
      have he : e - ((k + 1 : Nat) : Int) = e - k - 1 := by omega
      rw [pow_succ, ← Nat.mul_assoc, Nat.mul_comm _ 10, he, toBinary64_ten_mul, ih]

/-- Dropping the zeros at the end of a decimal does not change its double. -/
theorem toBinary64_trim (negative : Bool) (d : Decimal) :
    d.trim.toBinary64 negative = d.toBinary64 negative := by
  rw [trim]
  generalize length d.digits = fuel
  induction fuel generalizing d with
  | zero => rfl
  | succ fuel ih =>
      rw [trim.go]
      split
      · next h =>
          have hten : 10 * (d.digits / 10) = d.digits := by omega
          have he : d.exponent + 1 - 1 = d.exponent := by omega
          rw [ih, ← toBinary64_ten_mul, hten, he]
      · rfl

/-! ### The exact decimal -/

theorem lt_length_mul {k m n : Nat} (hk : 0 < k) (hn : n ≠ 0) (hm : 10 ^ k ≤ m) :
    k < length (n * m) :=
  (lt_length_iff hk).mpr
    (Nat.le_trans hm (Nat.le_mul_of_pos_left m (Nat.pos_of_ne_zero hn)))

theorem length_mul_le {k l m n : Nat} (hk : 0 < k) (hm : 0 < m) (hn : n < l)
    (h : l * m ≤ 10 ^ k) : length (n * m) ≤ k :=
  (length_le_iff hk).mpr (Nat.lt_of_lt_of_le (Nat.mul_lt_mul_of_pos_right hn hm) h)

theorem units_ne_zero {x : Binary64} (h : x.magnitude ≠ 0) : x.units ≠ 0 := by
  rw [Binary.units, Format.units]
  split
  · exact h
  · refine Nat.mul_ne_zero ?_ (Nat.two_pow_pos _).ne'
    have := Format.binade_pos Format.double
    omega

/-- The double nearest to a finite double is that double. -/
theorem nearest_exact {x : Binary64} (h : x.isFinite = true) :
    Format.double.nearest (x.units * 5 ^ Format.double.scale) (10 ^ Format.double.scale) =
      x.magnitude := by
  have hm : x.magnitude < Format.double.infinity := of_decide_eq_true h
  obtain ⟨hs, hp⟩ := Format.pattern_units (f := Format.double) (by decide) x.magnitude
  have hu : x.units * 5 ^ Format.double.scale * 2 ^ Format.double.scale =
      x.units * 10 ^ Format.double.scale := by
    rw [show 10 = 5 * 2 from rfl, mul_pow, Nat.mul_assoc]
  rw [Format.nearest_of_exact (Nat.pow_pos (by decide)) hu hs, Binary.units, hp]
  exact Nat.min_eq_left hm.le

/-- The exact decimal of a double is read as the double. -/
theorem toBinary64_exact {x : Binary64} (h : x.isFinite = true) (h₀ : x.magnitude ≠ 0) :
    (exact x).toBinary64 x.negative = x := by
  have hu : x.units ≠ 0 := units_ne_zero h₀
  have hlt := Format.units_lt (f := Format.double) (by decide) (of_decide_eq_true h)
  -- The size lies between the bounds beyond which a decimal is a zero or an infinity.
  have hleast : 750 < length (x.units * 5 ^ Format.double.scale) :=
    lt_length_mul (by decide) hu (by decide +kernel)
  have hmost : length (x.units * 5 ^ Format.double.scale) ≤ 1383 :=
    length_mul_le (by decide) (Nat.pow_pos (by decide)) hlt (by decide +kernel)
  have hdigits : x.units * 5 ^ Format.double.scale ≠ 0 :=
    Nat.mul_ne_zero hu (Nat.pow_pos (by decide)).ne'
  have hratio : (exact x).ratio =
      (x.units * 5 ^ Format.double.scale, 10 ^ Format.double.scale) := by
    rw [exact, Nat.pow_eq, ratio_neg (by decide)]
  have hn : (exact x).digits = x.units * 5 ^ Format.double.scale := by rw [exact, Nat.pow_eq]
  have he : (exact x).exponent = -1074 := rfl
  rw [toBinary64, Binary64.ofRatio, hratio, nearest_exact h, hn, he,
    Binary.ofMagnitude_magnitude (by decide)]
  generalize x.units * 5 ^ Format.double.scale = n at hleast hmost hdigits
  rw [if_neg (by omega), if_neg (by omega)]

/-! ### The shortest decimal -/

/-- A decimal is taken only if it is read as the double. -/
theorem toBinary64_neighbour? {x : Binary64} {num den : Nat} {e : Int} {d : Decimal}
    (h : neighbour? x num den e = some d) : d.toBinary64 x.negative = x := by
  simp only [neighbour?] at h
  generalize (if 0 ≤ e then (num, den * Nat.pow 10 e.toNat)
    else (num * Nat.pow 10 (-e).toNat, den)) = q at h
  generalize (if roundHalfEven q.1 q.2 = q.1 / q.2 then (⟨q.1 / q.2, e⟩ : Decimal)
    else ⟨q.1 / q.2 + 1, e⟩) = nearer at h
  generalize (if roundHalfEven q.1 q.2 = q.1 / q.2 then (⟨q.1 / q.2 + 1, e⟩ : Decimal)
    else ⟨q.1 / q.2, e⟩) = further at h
  split at h
  · next hr =>
      cases h
      exact of_decide_eq_true hr
  · split at h
    · next hr =>
        cases h
        exact of_decide_eq_true hr
    · cases h

theorem toBinary64_getD {x : Binary64} (h : x.isFinite = true) (h₀ : x.magnitude ≠ 0)
    {found : Option Decimal} (hf : ∀ d, found = some d → d.toBinary64 x.negative = x) :
    (found.getD (exact x)).toBinary64 x.negative = x := by
  cases found with
  | none => rw [Option.getD_none, toBinary64_exact h h₀]
  | some d => rw [Option.getD_some, hf d rfl]

/-- The decimal written for a finite double is read as this double. -/
theorem toBinary64_shortest {x : Binary64} (h : x.isFinite = true) :
    (shortest x).toBinary64 x.negative = x := by
  rw [shortest]
  split
  · next h₀ =>
      have hz : toBinary64 x.negative ⟨0, 0⟩ = Binary.ofMagnitude _ x.negative x.magnitude := by
        rw [h₀]
        rfl
      rw [hz, Binary.ofMagnitude_magnitude (by decide)]
  · next h₀ =>
      rw [toBinary64_trim]
      refine toBinary64_getD h h₀ fun d hd => ?_
      obtain ⟨k, -, hk⟩ := List.exists_of_findSome?_eq_some hd
      exact toBinary64_neighbour? hk

/-- The decimal written for a zero is a single digit. -/
theorem shortest_exponent {x : Binary64} (h : x.isFinite = true)
    (hd : (shortest x).digits = 0) : (shortest x).exponent = 0 := by
  have hx := toBinary64_shortest h
  have hz : (shortest x).toBinary64 x.negative = Binary.ofMagnitude _ x.negative 0 := by
    rw [toBinary64, if_pos (.inl hd)]
  have hm : x.magnitude = 0 := by
    rw [← hx, hz]
    exact Binary.magnitude_ofMagnitude (by decide) (by decide)
  rw [shortest, if_pos hm]

end Decimal

end WireSchema
