import Mathlib.Tactic.Ring
import WireSchema.Bits.Write

/-!
# Number — Exact numbers

Rounding leaves alone what needs no rounding. A number of units is the size of some pattern exactly
when the step between its neighbours divides it (`units_pattern`, `pattern_units`), and `nearest`
then gives that pattern (`nearest_of_exact`).

So a single-precision number, widened and narrowed again, is the one it was (`narrow_widen`); what
is not a number is made quiet by the first step, and stays as it then is (`widen_narrow_widen`). And
the bytes of a number, taken as a number, are the number (`ofLittleEndian_littleEndian`).
-/

namespace WireSchema

/-- What can be divided is not rounded. -/
theorem roundHalfEven_mul (q : Nat) {d : Nat} (hd : 0 < d) : roundHalfEven (q * d) d = q := by
  simp only [roundHalfEven]
  rw [Nat.mul_mod_left, Nat.mul_div_cancel _ hd, Nat.mul_zero, if_pos hd]

theorem log2_mul_two_pow {n : Nat} (h : n ≠ 0) (k : Nat) : (n * 2 ^ k).log2 = n.log2 + k := by
  induction k with
  | zero => rw [pow_zero, Nat.mul_one, Nat.add_zero]
  | succ k ih =>
      rw [pow_succ, ← Nat.mul_assoc, Nat.mul_comm, Nat.log2_two_mul, ih, Nat.add_assoc]
      exact Nat.mul_ne_zero h (Nat.two_pow_pos k).ne'

namespace Format

variable {f : Format}

/-- The exponent of the step between a number of units and its neighbours. -/
def step (f : Format) (units : Nat) : Nat := units.log2 + 1 - f.precision

/-- The pattern of a number of units that its step divides. -/
def pattern (f : Format) (units : Nat) : Nat :=
  f.step units * f.binade + units / 2 ^ f.step units

theorem binade_pos (f : Format) : 0 < f.binade := Nat.two_pow_pos _

/-- A number that is a whole number of steps is rounded to itself. -/
theorem nearest_of_exact {num den units : Nat} (hd : 0 < den)
    (hu : num * 2 ^ f.scale = units * den) (hs : 2 ^ f.step units ∣ units) :
    f.nearest num den = min (f.pattern units) f.infinity := by
  obtain ⟨q, hq⟩ := hs
  have hpow : 0 < 2 ^ f.step units := Nat.two_pow_pos _
  have hround : roundHalfEven (units * den) (den * 2 ^ f.step units) = q := by
    rw [show units * den = q * (den * 2 ^ f.step units) by nth_rewrite 1 [hq]; ring]
    exact roundHalfEven_mul q (Nat.mul_pos hd hpow)
  simp only [nearest, Nat.pow_eq]
  rw [hu, Nat.mul_div_cancel _ hd]
  show min (f.step units * f.binade + roundHalfEven (units * den) (den * 2 ^ f.step units)) _ = _
  rw [hround, pattern]
  congr 2
  exact (Nat.div_eq_of_eq_mul_right hpow hq).symm

section

variable (hp : 0 < f.precision)

include hp

/-- Two binades are a power of two. -/
theorem two_mul_binade : 2 * f.binade = 2 ^ f.precision := by
  rw [binade, Nat.pow_eq, ← pow_succ', Nat.sub_add_cancel hp]

/-- Below two binades steps are as small as can be. -/
theorem step_of_lt {units : Nat} (h : units < 2 * f.binade) : f.step units = 0 := by
  rw [two_mul_binade hp] at h
  rw [step]
  by_cases h₀ : units = 0
  · rw [h₀, Nat.log2_zero]; omega
  · have := (Nat.log2_lt h₀).mpr h
    omega

/-- Numbers of one binade, in steps of it. -/
theorem step_mul {q k : Nat} (h₁ : f.binade ≤ q) (h₂ : q < 2 * f.binade) :
    f.step (q * 2 ^ k) = k := by
  have h₀ : q ≠ 0 := Nat.ne_zero_of_lt (Nat.lt_of_lt_of_le f.binade_pos h₁)
  have hlog : q.log2 = f.precision - 1 := by
    refine (Nat.log2_eq_iff h₀).mpr ⟨h₁, ?_⟩
    rwa [Nat.sub_add_cancel hp, ← two_mul_binade hp]
  rw [step, log2_mul_two_pow h₀, hlog]
  omega

/-- A number above the first binade lies in a binade of its own. -/
theorem exists_mul_of_dvd {units : Nat} (h : f.binade ≤ units) (hs : 2 ^ f.step units ∣ units) :
    ∃ q, units = q * 2 ^ f.step units ∧ f.binade ≤ q ∧ q < 2 * f.binade := by
  obtain ⟨q, hq⟩ := hs
  rw [Nat.mul_comm] at hq
  have h₀ : units ≠ 0 := Nat.ne_zero_of_lt (Nat.lt_of_lt_of_le f.binade_pos h)
  have hlt : units < 2 ^ (units.log2 + 1) := (Nat.log2_lt h₀).mp (Nat.lt_succ_self _)
  have hle : 2 ^ units.log2 ≤ units := Nat.log2_self_le h₀
  have hlow : f.precision ≤ units.log2 + 1 := by
    by_contra hc
    have : units < f.binade := by
      refine Nat.lt_of_lt_of_le hlt ?_
      exact Nat.pow_le_pow_right (by decide) (by omega)
    omega
  have hk : f.step units = units.log2 + 1 - f.precision := rfl
  refine ⟨q, hq, ?_, ?_⟩
  · refine Nat.le_of_mul_le_mul_right (c := 2 ^ f.step units) ?_ (Nat.two_pow_pos _)
    rw [← hq, binade, Nat.pow_eq, ← pow_add, hk]
    refine Nat.le_trans (Nat.pow_le_pow_right (by decide) ?_) hle
    omega
  · refine Nat.lt_of_mul_lt_mul_right (a := 2 ^ f.step units) ?_
    rw [← hq, two_mul_binade hp, ← pow_add, hk]
    refine Nat.lt_of_lt_of_le hlt (Nat.pow_le_pow_right (by decide) ?_)
    omega

/-- The pattern of a number of units stands for that number. -/
theorem units_pattern {units : Nat} (hs : 2 ^ f.step units ∣ units) :
    f.units (f.pattern units) = units := by
  have hb := f.binade_pos
  by_cases h : units < f.binade
  · rw [pattern, step_of_lt hp (by omega), Nat.zero_mul, Nat.zero_add, pow_zero, Nat.div_one,
      Format.units, if_pos h]
  · obtain ⟨q, hq, h₁, h₂⟩ := exists_mul_of_dvd hp (Nat.not_lt.mp h) hs
    have hpat : f.pattern units = (q - f.binade) + f.binade * (f.step units + 1) := by
      rw [pattern, Nat.div_eq_of_eq_mul_left (Nat.two_pow_pos _) hq, Nat.mul_add, Nat.mul_one,
        Nat.mul_comm f.binade]
      omega
    have hlt : q - f.binade < f.binade := by omega
    rw [hpat, Format.units, if_neg (by rw [Nat.mul_add, Nat.mul_one]; omega),
      Nat.add_mul_mod_self_left, Nat.mod_eq_of_lt hlt, Nat.add_mul_div_left _ _ hb,
      Nat.div_eq_of_lt hlt, Nat.zero_add, Nat.add_sub_cancel, Nat.pow_eq,
      Nat.add_sub_cancel' h₁, ← hq]

/-- A pattern lies within the binade of its step. -/
theorem pattern_lt {units : Nat} (hs : 2 ^ f.step units ∣ units) :
    f.pattern units < (f.step units + 2) * f.binade := by
  have hq : units / 2 ^ f.step units < 2 * f.binade := by
    by_cases h : units < f.binade
    · rw [step_of_lt hp (by omega), pow_zero, Nat.div_one]
      omega
    · obtain ⟨q, hq, -, h₂⟩ := exists_mul_of_dvd hp (Nat.not_lt.mp h) hs
      rwa [Nat.div_eq_of_eq_mul_left (Nat.two_pow_pos _) hq]
  rw [pattern, Nat.add_mul]
  omega

/-- Every magnitude is the pattern of the units it stands for. -/
theorem pattern_units (m : Nat) :
    2 ^ f.step (f.units m) ∣ f.units m ∧ f.pattern (f.units m) = m := by
  have hb := f.binade_pos
  rw [Format.units]
  split
  · next h =>
      rw [pattern, step_of_lt hp (by omega)]
      simp
  · next h =>
      have hlt := Nat.mod_lt m hb
      have hq : 0 < m / f.binade := Nat.div_pos (Nat.not_lt.mp h) hb
      have hstep : f.step ((f.binade + m % f.binade) * 2 ^ (m / f.binade - 1)) =
          m / f.binade - 1 := step_mul hp (by omega) (by omega)
      rw [Nat.pow_eq, pattern, hstep, Nat.mul_div_cancel _ (Nat.two_pow_pos _)]
      refine ⟨Nat.dvd_mul_left _ _, ?_⟩
      obtain ⟨j, hj⟩ := Nat.exists_eq_succ_of_ne_zero hq.ne'
      rw [hj, Nat.succ_sub_one, ← Nat.add_assoc, ← Nat.succ_mul, ← hj, Nat.mul_comm]
      exact Nat.div_add_mod m f.binade

end

end Format

/-! ### Signs and magnitudes -/

namespace Binary

variable {f : Format}

/-- A magnitude leaves the sign alone. -/
theorem magnitude_lt (x : Binary f) : x.magnitude < f.signBit :=
  Nat.mod_lt _ (Nat.two_pow_pos _)

section

variable (hw : 0 < f.width)

include hw

theorem two_mul_signBit : f.signBit + f.signBit = 2 ^ f.width := by
  rw [Format.signBit, Nat.pow_eq, ← Nat.two_mul, ← pow_succ', Nat.sub_add_cancel hw]

/-- The pattern of a magnitude has the bit of the sign on top. -/
theorem pattern_ofMagnitude {negative : Bool} {m : Nat} (h : m < f.signBit) :
    (ofMagnitude f negative m).pattern = m + if negative then f.signBit else 0 := by
  have h₂ := two_mul_signBit hw
  refine Nat.mod_eq_of_lt ?_
  rw [Nat.pow_eq]
  split <;> omega

theorem negative_ofMagnitude {negative : Bool} {m : Nat} (h : m < f.signBit) :
    (ofMagnitude f negative m).negative = negative := by
  rw [Binary.negative, pattern_ofMagnitude hw h]
  cases negative
  · exact decide_eq_false (by rw [if_neg (by decide)]; omega)
  · exact decide_eq_true (by rw [if_pos rfl]; omega)

theorem magnitude_ofMagnitude {negative : Bool} {m : Nat} (h : m < f.signBit) :
    (ofMagnitude f negative m).magnitude = m := by
  rw [magnitude, pattern_ofMagnitude hw h]
  cases negative
  · exact Nat.mod_eq_of_lt h
  · rw [if_pos rfl, Nat.add_mod_right, Nat.mod_eq_of_lt h]

/-- What a double is made of is its sign and its magnitude. -/
theorem ofMagnitude_magnitude (x : Binary f) : ofMagnitude f x.negative x.magnitude = x := by
  have hx := x.lt
  have h₂ := two_mul_signBit hw
  rw [Nat.pow_eq] at hx
  obtain ⟨p, lt⟩ := x
  have hp : (ofMagnitude f (Binary.negative ⟨p, lt⟩) (magnitude ⟨p, lt⟩)).pattern = p := by
    rw [pattern_ofMagnitude hw (magnitude_lt _), magnitude, Binary.negative]
    dsimp only at hx ⊢
    by_cases h : f.signBit ≤ p
    · rw [decide_eq_true h, if_pos rfl, Nat.mod_eq_sub_mod h, Nat.mod_eq_of_lt (by omega)]
      omega
    · rw [decide_eq_false h, if_neg (by decide), Nat.mod_eq_of_lt (by omega)]
      rfl
  cases h : ofMagnitude f (Binary.negative ⟨p, lt⟩) (magnitude ⟨p, lt⟩)
  rw [h] at hp
  cases hp
  rfl

/-- A double is known from its sign and its magnitude. -/
theorem eq_of_magnitude_eq {x y : Binary f} (hn : x.negative = y.negative)
    (hm : x.magnitude = y.magnitude) : x = y := by
  rw [← ofMagnitude_magnitude hw x, hn, hm, ofMagnitude_magnitude hw y]

end

@[simp] theorem ofNat_pattern (x : Binary f) : ofNat f x.pattern = x := by
  obtain ⟨p, lt⟩ := x
  rw [ofNat]
  congr 1
  exact Nat.mod_eq_of_lt lt

end Binary

/-! ### The two precisions -/

namespace Binary64

/-- The smallest positive number of single precision is `2 ^ scaleGap` times that of double
precision. -/
@[irreducible]
def scaleGap : Nat := Format.double.scale - Format.single.scale

/-- How many of the least steps of doubles make one of singles, as a power of two. -/
theorem scaleGap_eq : scaleGap = 925 := by
  unfold scaleGap
  rfl

/-- Counted in the least steps, a finite single has 277 bits at most. -/
theorem log2_single_units_le {m : Nat} (h : m < Format.single.infinity)
    (h₀ : Format.single.units m ≠ 0) : (Format.single.units m).log2 ≤ 276 := by
  have hb : Format.single.binade = 2 ^ 23 := rfl
  have hi : Format.single.infinity = 255 * 2 ^ 23 := rfl
  rw [Format.units] at h₀ ⊢
  split at h₀
  · next hm =>
      rw [if_pos hm]
      have := (Nat.log2_lt h₀).mpr (hb ▸ hm)
      omega
  · next hm =>
      have hlt := Nat.mod_lt m (Format.binade_pos Format.single)
      have hq : m / Format.single.binade < 255 := by rw [Nat.div_lt_iff_lt_mul (by decide)]; omega
      have hsig : Format.single.binade + m % Format.single.binade ≠ 0 := by omega
      have hlog := (Nat.log2_lt hsig).mpr (show _ < 2 ^ 24 by rw [hb] at *; omega)
      rw [if_neg hm, Nat.pow_eq, log2_mul_two_pow hsig]
      omega

/-- The units of a single-precision number, counted in those of double precision, are those of a
pattern. -/
theorem single_units_dvd (m : Nat) :
    2 ^ Format.double.step (Format.single.units m * 2 ^ scaleGap) ∣
      Format.single.units m * 2 ^ scaleGap := by
  obtain ⟨hs, -⟩ := Format.pattern_units (f := Format.single) (by decide) m
  by_cases h₀ : Format.single.units m = 0
  · rw [h₀, Nat.zero_mul]
    exact Nat.dvd_zero _
  · have hle : Format.double.step (Format.single.units m * 2 ^ scaleGap) ≤
        Format.single.step (Format.single.units m) + scaleGap := by
      rw [Format.step, Format.step, log2_mul_two_pow h₀, scaleGap_eq]
      show _ + 925 + 1 - 53 ≤ _ + 1 - 24 + 925
      omega
    have hdvd := Nat.mul_dvd_mul_right hs (2 ^ scaleGap)
    rw [← pow_add] at hdvd
    exact Nat.dvd_trans (Nat.pow_dvd_pow 2 hle) hdvd

/-- A finite single is finite as a double. -/
theorem double_pattern_lt {m : Nat} (h : m < Format.single.infinity) :
    Format.double.pattern (Format.single.units m * 2 ^ scaleGap) < Format.double.infinity := by
  have hlt := Format.pattern_lt (f := Format.double) (by decide) (single_units_dvd m)
  have hstep : Format.double.step (Format.single.units m * 2 ^ scaleGap) ≤ 1149 := by
    by_cases h₀ : Format.single.units m = 0
    · rw [h₀, Nat.zero_mul]
      exact Nat.zero_le _
    · have := log2_single_units_le h h₀
      rw [Format.step, log2_mul_two_pow h₀, scaleGap_eq]
      show _ + 925 + 1 - 53 ≤ _
      omega
  have hle : (1149 + 2) * Format.double.binade ≤ Format.double.infinity := by decide
  exact Nat.lt_of_lt_of_le hlt
    (Nat.le_trans (Nat.mul_le_mul_right _ (Nat.add_le_add_right hstep 2)) hle)

/-- Widening a finite number keeps its size to the unit. -/
theorem widen_of_isFinite {y : Binary32} (h : y.isFinite = true) :
    widen y = .ofMagnitude _ y.negative
      (Format.double.pattern (Format.single.units y.magnitude * 2 ^ scaleGap)) := by
  have hm : y.magnitude < Format.single.infinity := of_decide_eq_true h
  have hnan : y.isNaN = false := decide_eq_false (by omega)
  have hinf : y.isInfinite = false := decide_eq_false (by omega)
  have hscale : scaleGap + Format.single.scale = Format.double.scale := by
    rw [scaleGap_eq]
    rfl
  have hn : Format.double.nearest (Format.single.units y.magnitude) (2 ^ Format.single.scale) =
      Format.double.pattern (Format.single.units y.magnitude * 2 ^ scaleGap) := by
    rw [Format.nearest_of_exact (Nat.two_pow_pos _) ?_ (single_units_dvd y.magnitude)]
    · exact Nat.min_eq_left (double_pattern_lt hm).le
    · rw [Nat.mul_assoc, ← pow_add, hscale]
  rw [widen, Binary.convert, hnan, hinf, if_neg Bool.false_ne_true, if_neg Bool.false_ne_true]
  exact congrArg _ hn

theorem infinity_lt_signBit : Format.double.infinity < Format.double.signBit := by decide

theorem widen_of_isInfinite {y : Binary32} (h : y.isInfinite = true) :
    widen y = infinity y.negative := by
  have hm : y.magnitude = Format.single.infinity := of_decide_eq_true h
  have hnan : y.isNaN = false := decide_eq_false (by omega)
  rw [widen, Binary.convert, hnan, h, if_neg Bool.false_ne_true, if_pos rfl, infinity]

/-- The patterns behind infinity fill one binade, up to the sign bit. -/
theorem signBit_eq : Format.single.signBit = Format.single.infinity + Format.single.binade ∧
    Format.double.signBit = Format.double.infinity + Format.double.binade :=
  ⟨rfl, rfl⟩

/-- What is not a number is converted with its sign and the leading bits of its payload, made quiet.
-/
theorem convert_of_isNaN {f g : Format} (hf : f.signBit = f.infinity + f.binade)
    (hg : g.signBit = g.infinity + g.binade) (hp : 2 ≤ g.precision) {x : Binary f}
    (h : x.isNaN = true) :
    (x.convert g).negative = x.negative ∧ (x.convert g).magnitude =
      g.infinity + ((x.magnitude - f.infinity) * g.binade / f.binade ||| g.binade / 2) := by
  have hm : f.infinity < x.magnitude := of_decide_eq_true h
  have hlt := x.magnitude_lt
  obtain ⟨k, hk⟩ : ∃ k, g.precision = k + 2 := ⟨g.precision - 2, by omega⟩
  have hb : g.binade = 2 ^ (k + 1) := by
    rw [Format.binade, hk]
    rfl
  have hpay : (x.magnitude - f.infinity) * g.binade / f.binade < 2 ^ (k + 1) := by
    rw [Nat.div_lt_iff_lt_mul (Format.binade_pos _), hb, Nat.mul_comm]
    exact Nat.mul_lt_mul_of_pos_left (by omega) (Nat.two_pow_pos _)
  have hor := Nat.or_lt_two_pow hpay (Nat.div_lt_self (Nat.two_pow_pos _) (Nat.one_lt_two))
  rw [← hb] at hor
  have hw : 0 < g.width := by
    rw [Format.width]
    omega
  rw [Binary.convert, if_pos h]
  exact ⟨Binary.negative_ofMagnitude hw (by rw [hg]; omega),
    Binary.magnitude_ofMagnitude hw (by rw [hg]; omega)⟩

/-- What is no number is converted to what is none. -/
theorem isNaN_convert {f g : Format} (hf : f.signBit = f.infinity + f.binade)
    (hg : g.signBit = g.infinity + g.binade) (hp : 2 ≤ g.precision) {x : Binary f}
    (h : x.isNaN = true) : (x.convert g).isNaN = true := by
  have hhalf : 0 < g.binade / 2 := by
    rw [Format.binade, Nat.pow_eq, Nat.div_pos_iff]
    exact ⟨Nat.two_pos, Nat.le_self_pow (by omega) 2⟩
  refine decide_eq_true ?_
  rw [(convert_of_isNaN hf hg hp h).2]
  exact Nat.lt_add_of_pos_right (Nat.lt_of_lt_of_le hhalf Nat.right_le_or)

/-- Widening makes nothing a number that is none. -/
theorem isNaN_widen (y : Binary32) : (widen y).isNaN = y.isNaN := by
  have hw : 0 < Format.double.width := by decide
  have hsign := infinity_lt_signBit
  rcases lt_trichotomy y.magnitude Format.single.infinity with h | h | h
  · -- finite, infinite, and not a number
    have hlt := double_pattern_lt h
    rw [widen_of_isFinite (decide_eq_true h), Binary.isNaN, Binary.isNaN,
      Binary.magnitude_ofMagnitude hw (hlt.trans hsign), decide_eq_false (Nat.not_lt.mpr hlt.le),
      decide_eq_false (Nat.not_lt.mpr h.le)]
  · rw [widen_of_isInfinite (decide_eq_true h), infinity, Binary.isNaN, Binary.isNaN,
      Binary.magnitude_ofMagnitude hw hsign, decide_eq_false (Nat.lt_irrefl _), h,
      decide_eq_false (Nat.lt_irrefl _)]
  · have hy : y.isNaN = true := decide_eq_true h
    rw [hy, widen, isNaN_convert signBit_eq.1 signBit_eq.2 (by decide) hy]

/-- Single precision loses nothing of what came from it. -/
theorem narrow_widen {y : Binary32} (h : y.isNaN = false) : narrow (widen y) = y := by
  have hw : 0 < Format.double.width := by decide
  have hsign := infinity_lt_signBit
  have hnan : (widen y).isNaN = false := (isNaN_widen y).trans h
  have hle : y.magnitude ≤ Format.single.infinity := Nat.not_lt.mp (of_decide_eq_false h)
  rw [narrow, Binary.convert, hnan, if_neg Bool.false_ne_true]
  rcases Nat.lt_or_eq_of_le hle with hlt | heq
  · -- a finite number: both ways keep its units, and no rounding takes place
    have hpat := double_pattern_lt hlt
    have hmag : (widen y).magnitude =
        Format.double.pattern (Format.single.units y.magnitude * 2 ^ scaleGap) := by
      rw [widen_of_isFinite (decide_eq_true hlt),
        Binary.magnitude_ofMagnitude hw (hpat.trans hsign)]
    have hneg : (widen y).negative = y.negative := by
      rw [widen_of_isFinite (decide_eq_true hlt),
        Binary.negative_ofMagnitude hw (hpat.trans hsign)]
    have hinf : (widen y).isInfinite = false :=
      decide_eq_false (by rw [hmag]; exact hpat.ne)
    obtain ⟨hdvd, hback⟩ := Format.pattern_units (f := Format.single) (by decide) y.magnitude
    have hscale : scaleGap + Format.single.scale = Format.double.scale := by
      rw [scaleGap_eq]
      rfl
    have hn : Format.single.nearest (widen y).units (2 ^ Format.double.scale) = y.magnitude := by
      rw [Binary.units, hmag, Format.units_pattern (by decide) (single_units_dvd _),
        Format.nearest_of_exact (Nat.two_pow_pos _) ?_ hdvd, hback, Nat.min_eq_left hle]
      rw [Nat.mul_assoc, ← pow_add, hscale]
    rw [hinf, if_neg Bool.false_ne_true, hneg, Nat.pow_eq, hn]
    exact Binary.ofMagnitude_magnitude (by decide) y
  · have hwid := widen_of_isInfinite (decide_eq_true heq)
    have hinf : (widen y).isInfinite = true := by
      rw [hwid]
      exact decide_eq_true (Binary.magnitude_ofMagnitude hw hsign)
    rw [hinf, if_pos rfl, hwid, infinity, Binary.negative_ofMagnitude hw hsign, ← heq]
    exact Binary.ofMagnitude_magnitude (by decide) y

/-- The bits of a payload that single precision keeps are those it had. -/
theorem payload_widen (p : Nat) :
    ((p * 2 ^ 52 / 2 ^ 23 ||| 2 ^ 51) * 2 ^ 23 / 2 ^ 52 ||| 2 ^ 22) * 2 ^ 52 / 2 ^ 23 ||| 2 ^ 51 =
      p * 2 ^ 52 / 2 ^ 23 ||| 2 ^ 51 := by
  have hup : ∀ n : Nat, n * 2 ^ 52 / 2 ^ 23 = n <<< 29 := fun n => by
    rw [Nat.shiftLeft_eq]
    omega
  have hdown : ∀ n : Nat, n * 2 ^ 23 / 2 ^ 52 = n >>> 29 := fun n => by
    rw [Nat.shiftRight_eq_div_pow]
    omega
  have hquiet : 2 ^ 51 = 2 ^ 22 <<< 29 := rfl
  rw [hup, hup, hdown, hquiet, ← Nat.shiftLeft_or_distrib, ← Nat.shiftLeft_or_distrib,
    Nat.shiftLeft_shiftRight, Nat.or_assoc, Nat.or_self, Nat.or_assoc, Nat.or_self]

/-- What came from single precision comes from it again. -/
theorem widen_narrow_widen (y : Binary32) : widen (narrow (widen y)) = widen y := by
  cases h : y.isNaN with
  | false => rw [narrow_widen h]
  | true =>
      have hw : (widen y).isNaN = true := (isNaN_widen y).trans h
      have hn : (narrow (widen y)).isNaN = true :=
        isNaN_convert signBit_eq.2 signBit_eq.1 (by decide) hw
      have hmag₁ : (widen y).magnitude = _ :=
        (convert_of_isNaN signBit_eq.1 signBit_eq.2 (by decide) h).2
      obtain ⟨hneg₂, hmag₂⟩ :
          (narrow (widen y)).negative = (widen y).negative ∧ (narrow (widen y)).magnitude = _ :=
        convert_of_isNaN signBit_eq.2 signBit_eq.1 (by decide) hw
      obtain ⟨hneg₃, hmag₃⟩ : (widen (narrow (widen y))).negative = (narrow (widen y)).negative ∧
          (widen (narrow (widen y))).magnitude = _ :=
        convert_of_isNaN signBit_eq.1 signBit_eq.2 (by decide) hn
      refine Binary.eq_of_magnitude_eq (by decide) (hneg₃.trans hneg₂) ?_
      rw [hmag₃, hmag₂, hmag₁, Nat.add_sub_cancel_left, Nat.add_sub_cancel_left]
      exact congrArg _ (payload_widen _)

end Binary64

/-! ### Bytes -/

theorem length_littleEndian (count n : Nat) : (littleEndian count n).length = count := by
  induction count generalizing n with
  | zero => rfl
  | succ count ih => rw [littleEndian, List.length_cons, ih]

theorem ofLittleEndian_littleEndian {count n : Nat} (h : n < 256 ^ count) :
    ofLittleEndian (littleEndian count n) = n := by
  induction count generalizing n with
  | zero => exact (Nat.lt_one_iff.mp h).symm
  | succ count ih =>
      rw [littleEndian, ofLittleEndian, ih (by rw [pow_succ] at h; omega), UInt8.toNat_ofNat']
      omega

/-- The number that `n` bytes hold is below `256 ^ n`. -/
theorem ofLittleEndian_lt (bytes : List UInt8) : ofLittleEndian bytes < 256 ^ bytes.length := by
  induction bytes with
  | nil => exact Nat.one_pos
  | cons b bytes ih =>
      have := b.toNat_lt
      rw [ofLittleEndian, List.length_cons, pow_succ]
      omega

/-- Bytes are those of the number that they hold. -/
theorem littleEndian_ofLittleEndian (bytes : List UInt8) :
    littleEndian bytes.length (ofLittleEndian bytes) = bytes := by
  induction bytes with
  | nil => rfl
  | cons b bytes ih =>
      have := b.toNat_lt
      rw [List.length_cons, littleEndian, ofLittleEndian,
        show (b.toNat + 256 * ofLittleEndian bytes) / 256 = ofLittleEndian bytes by omega, ih]
      congr 1
      rw [← UInt8.toNat_inj, UInt8.toNat_ofNat']
      omega

end WireSchema
