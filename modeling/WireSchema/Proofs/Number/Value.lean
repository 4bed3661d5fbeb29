import Mathlib.Order.WithBot
import WireSchema.Proofs.Number.Rounding

/-!
# Number — Values

The rational number that a pattern stands for (`Binary.value`), with the infinities at the two ends
of all numbers (`Binary.number`), and what it is for a number to be the nearest of its format
(`Binary.IsNearest`).

Narrowing gives the nearest single-precision number (`Binary64.narrow_rounds`) and the conversion of
an integer the nearest double (`Binary64.ofInt_rounds`). Of a number that is rounded so
(`Binary.Rounds`) it is known that it is the nearest one (`Binary.Rounds.isNearest`), when it is
infinite (`Binary.Rounds.isInfinite_iff`), and that larger numbers have no smaller one
(`Binary.Rounds.value_le`). Widening keeps numbers (`Binary64.number_widen`).
-/

namespace WireSchema

namespace Binary

variable {f g : Format}

/-- The rational number that a finite pattern stands for; of an infinity, the number that would
follow the largest one. -/
def value (x : Binary f) : ℚ :=
  let size : ℚ := x.units / 2 ^ f.scale
  if x.negative then -size else size

/-- The number that a pattern stands for; an infinity lies at its end of the others. -/
def number (x : Binary f) : WithBot (WithTop ℚ) :=
  if x.isInfinite then if x.negative then ⊥ else ⊤ else ((x.value : WithTop ℚ) : WithBot _)

/-- The significand, with the leading one that is not written. -/
def significand (x : Binary f) : ℕ :=
  if x.magnitude < f.binade then x.magnitude else f.binade + x.magnitude % f.binade

/-- `y` is the finite number nearest to `q`: no other is nearer, and of two equally near it is the
one of even significand. -/
structure IsNearest (y : Binary f) (q : ℚ) : Prop where
  finite : y.isFinite = true
  near : ∀ z : Binary f, z.isFinite = true → |q - y.value| ≤ |q - z.value|
  even : ∀ z : Binary f, z.isFinite = true → |q - y.value| = |q - z.value| →
    z.value ≠ y.value → Even y.significand

/-- `y` is what `q` is rounded to, the sign of zero left open. -/
structure Rounds (y : Binary f) (q : ℚ) : Prop where
  nonpos : y.negative = true → q ≤ 0
  nonneg : y.negative = false → 0 ≤ q
  magnitude : f.Rounds (|q| * 2 ^ f.scale) y.magnitude

/-! ### Values and signs -/

/-- Values are counted in steps of the least number. -/
theorem abs_value (x : Binary f) : |x.value| = x.units / 2 ^ f.scale := by
  have h : (0 : ℚ) ≤ x.units / 2 ^ f.scale := by positivity
  rw [value]
  cases x.negative
  · exact abs_of_nonneg h
  · exact (abs_neg _).trans (abs_of_nonneg h)

theorem value_of_negative {x : Binary f} (h : x.negative = true) : x.value = -|x.value| := by
  rw [abs_value, value, h]
  rfl

theorem value_of_not_negative {x : Binary f} (h : x.negative = false) : x.value = |x.value| := by
  rw [abs_value, value, h]
  rfl

/-- Values with the same sign and the same size are the same. -/
theorem value_eq_of_abs {x : Binary f} {y : Binary g} (hn : x.negative = y.negative)
    (h : |x.value| = |y.value|) : x.value = y.value := by
  cases hx : x.negative with
  | false => rw [value_of_not_negative hx, value_of_not_negative (hn.symm.trans hx), h]
  | true => rw [value_of_negative hx, value_of_negative (hn.symm.trans hx), h]

/-- Values are ordered in size as their magnitudes are. -/
theorem abs_value_le_iff {x y : Binary f} :
    |x.value| ≤ |y.value| ↔ x.magnitude ≤ y.magnitude := by
  rw [abs_value, abs_value, div_le_div_iff_of_pos_right (by positivity), Nat.cast_le]
  exact f.units_strictMono.le_iff_le

theorem abs_value_eq_iff {x y : Binary f} :
    |x.value| = |y.value| ↔ x.magnitude = y.magnitude := by
  rw [le_antisymm_iff, le_antisymm_iff, abs_value_le_iff, abs_value_le_iff]

/-- A significand is even exactly if the pattern is: there the last bits are the same. -/
theorem even_significand_iff (hp : 1 < f.precision) (x : Binary f) :
    Even x.significand ↔ Even x.magnitude := by
  rw [significand]
  split
  · exact Iff.rfl
  · have hb := Format.even_binade hp
    rw [Nat.even_add, iff_true_left hb]
    exact ⟨fun h => by
      rw [← Nat.div_add_mod x.magnitude f.binade]
      exact (hb.mul_right _).add h, fun h => by
      rw [Nat.even_iff] at h ⊢
      rw [Nat.mod_mod_of_dvd _ hb.two_dvd]
      exact h⟩

/-- Beyond infinity there is no number. -/
theorem magnitude_le_of_not_isNaN {x : Binary f} (h : x.isNaN = false) :
    x.magnitude ≤ f.infinity :=
  Nat.not_lt.mp (of_decide_eq_false h)

theorem isFinite_or_isInfinite {x : Binary f} (h : x.isNaN = false) :
    x.isFinite = true ∨ x.isInfinite = true :=
  (Nat.lt_or_eq_of_le (magnitude_le_of_not_isNaN h)).imp decide_eq_true decide_eq_true

theorem isNaN_of_isFinite {x : Binary f} (h : x.isFinite = true) : x.isNaN = false :=
  decide_eq_false (Nat.not_lt.mpr (of_decide_eq_true h : x.magnitude < f.infinity).le)

theorem isInfinite_of_isFinite {x : Binary f} (h : x.isFinite = true) : x.isInfinite = false :=
  decide_eq_false (of_decide_eq_true h : x.magnitude < f.infinity).ne

theorem isNaN_of_isInfinite {x : Binary f} (h : x.isInfinite = true) : x.isNaN = false :=
  decide_eq_false (Nat.not_lt.mpr (of_decide_eq_true h : x.magnitude = f.infinity).le)

/-! ### The order of numbers -/

/-- The number of what is finite is its value. -/
theorem number_of_isFinite {x : Binary f} (h : x.isFinite = true) :
    x.number = ((x.value : WithTop ℚ) : WithBot _) := by
  rw [number, isInfinite_of_isFinite h]
  rfl

/-- The infinities are the ends of the order. -/
theorem number_of_isInfinite {x : Binary f} (h : x.isInfinite = true) :
    x.number = if x.negative then ⊥ else ⊤ := by
  rw [number, h]
  rfl

/-- Infinity is larger than all that is finite. -/
theorem abs_value_lt {x y : Binary f} (hx : x.isFinite = true) (hy : y.isInfinite = true) :
    |x.value| < |y.value| := by
  rw [← not_le, abs_value_le_iff, (of_decide_eq_true hy : _ = f.infinity)]
  exact Nat.not_le.mpr (of_decide_eq_true hx)

theorem abs_value_pos (hf : 0 < f.infinity) {x : Binary f} (h : x.isInfinite = true) :
    0 < |x.value| := by
  rw [abs_value, units, (of_decide_eq_true h : _ = f.infinity)]
  have := f.units_strictMono hf
  have : (0 : ℚ) < f.units f.infinity := by exact_mod_cast Nat.zero_lt_of_lt this
  positivity

/-- The order of numbers is that of values. -/
theorem number_le_number_iff (hf : 0 < f.infinity) {x y : Binary f} (hx : x.isNaN = false)
    (hy : y.isNaN = false) : x.number ≤ y.number ↔ x.value ≤ y.value := by
  rcases isFinite_or_isInfinite hx with hx | hx <;> rcases isFinite_or_isInfinite hy with hy | hy
  · rw [number_of_isFinite hx, number_of_isFinite hy, WithBot.coe_le_coe, WithTop.coe_le_coe]
  · -- below the upper end and above the lower one
    have hlt := abs_lt.mp (abs_value_lt hx hy)
    rw [number_of_isFinite hx, number_of_isInfinite hy]
    cases hn : y.negative with
    | false =>
        rw [value_of_not_negative hn]
        exact iff_of_true le_top hlt.2.le
    | true =>
        rw [value_of_negative hn]
        exact iff_of_false (not_le.mpr (WithBot.bot_lt_coe _)) (not_le.mpr hlt.1)
  · have hlt := abs_lt.mp (abs_value_lt hy hx)
    rw [number_of_isInfinite hx, number_of_isFinite hy]
    cases hn : x.negative with
    | false =>
        rw [value_of_not_negative hn]
        exact iff_of_false (not_le.mpr (WithBot.coe_lt_coe.mpr (WithTop.coe_lt_top _)))
          (not_le.mpr hlt.2)
    | true =>
        rw [value_of_negative hn]
        exact iff_of_true bot_le hlt.1.le
  · have hpos := abs_value_pos hf hx
    have heq : |x.value| = |y.value| := abs_value_eq_iff.mpr
      ((of_decide_eq_true hx : _ = f.infinity).trans (of_decide_eq_true hy : _ = f.infinity).symm)
    rw [number_of_isInfinite hx, number_of_isInfinite hy]
    cases hnx : x.negative with
    | false =>
        rw [value_of_not_negative hnx]
        cases hny : y.negative with
        | false =>
            rw [value_of_not_negative hny]
            exact iff_of_true le_rfl heq.le
        | true =>
            rw [value_of_negative hny]
            exact iff_of_false (not_le.mpr bot_lt_top) (not_le.mpr (by linarith))
    | true =>
        rw [value_of_negative hnx]
        exact iff_of_true bot_le (by linarith [neg_abs_le y.value])

/-- One number in two formats is finite in both, or in neither. -/
theorem value_eq_or_isInfinite {x : Binary f} {y : Binary g} (hx : x.isNaN = false)
    (hy : y.isNaN = false) (h : x.number = y.number) :
    x.isFinite = true ∧ y.isFinite = true ∧ x.value = y.value ∨
      x.isInfinite = true ∧ y.isInfinite = true := by
  have hne : ∀ (b : Bool) (q : ℚ),
      (if b then ⊥ else ⊤ : WithBot (WithTop ℚ)) ≠ ((q : WithTop ℚ) : WithBot _) := by
    intro b q
    cases b with
    | false => exact (WithBot.coe_lt_coe.mpr (WithTop.coe_lt_top q)).ne'
    | true => exact (WithBot.bot_lt_coe _).ne
  rcases isFinite_or_isInfinite hx with hfx | hix <;>
    rcases isFinite_or_isInfinite hy with hfy | hiy
  · rw [number_of_isFinite hfx, number_of_isFinite hfy] at h
    exact .inl ⟨hfx, hfy, WithTop.coe_injective (WithBot.coe_injective h)⟩
  · rw [number_of_isFinite hfx, number_of_isInfinite hiy] at h
    exact absurd h.symm (hne _ _)
  · rw [number_of_isInfinite hix, number_of_isFinite hfy] at h
    exact absurd h (hne _ _)
  · exact .inr ⟨hix, hiy⟩

/-! ### Rounded numbers -/

namespace Rounds

variable {x y : Binary f} {q p : ℚ}

/-- What a number is rounded to is a number. -/
theorem isNaN (h : y.Rounds q) : y.isNaN = false :=
  decide_eq_false (Nat.not_lt.mpr h.magnitude.le_infinity)

/-- What a number is rounded to has its sign, so the two are as far apart as their sizes are. -/
theorem abs_sub_value (h : y.Rounds q) : |q - y.value| = abs (|q| - |y.value|) := by
  cases hn : y.negative with
  | false => rw [value_of_not_negative hn, abs_abs, abs_of_nonneg (h.nonneg hn)]
  | true =>
      rw [value_of_negative hn, abs_neg, abs_abs, abs_of_nonpos (h.nonpos hn), ← abs_neg]
      congr 1
      ring

/-- How far apart two sizes are, in steps of the least number. -/
theorem abs_abs_sub_value (z : Binary f) :
    abs (|q| - |z.value|) * 2 ^ f.scale = |(|q| * 2 ^ f.scale) - z.units| := by
  have hpow : (0 : ℚ) < 2 ^ f.scale := by positivity
  rw [← abs_of_pos hpow, ← abs_mul, abs_of_pos hpow, sub_mul, abs_value,
    div_mul_cancel₀ _ hpow.ne']

/-- Nothing else is nearer. -/
theorem near (h : y.Rounds q) {z : Binary f} (hz : z.magnitude ≤ f.infinity) :
    abs (|q| - |y.value|) ≤ abs (|q| - |z.value|) := by
  refine le_of_mul_le_mul_right ?_ (by positivity : (0 : ℚ) < 2 ^ f.scale)
  rw [abs_abs_sub_value, abs_abs_sub_value]
  exact h.magnitude.near _ hz

theorem value_eq_zero (h : y.Rounds 0) : y.value = 0 := by
  have hmag := h.magnitude
  rw [abs_zero, zero_mul] at hmag
  have hzero := Format.Rounds.of_units (f := f) (Nat.zero_le _)
  rw [Format.units_of_lt f.binade_pos, Nat.cast_zero] at hzero
  rw [← abs_eq_zero, abs_value, units, hmag.unique hzero, Format.units_of_lt f.binade_pos,
    Nat.cast_zero, zero_div]

/-- A finite number that is rounded to is the nearest one. -/
theorem isNearest (hp : 1 < f.precision) (h : y.Rounds q) (hy : y.isFinite = true) :
    y.IsNearest q where
  finite := hy
  near z hz := by
    rw [h.abs_sub_value]
    exact (h.near (magnitude_le_of_not_isNaN (isNaN_of_isFinite hz))).trans
      (abs_abs_sub_abs_le q z.value)
  even z hz e hne := by
    have hle := h.near (magnitude_le_of_not_isNaN (isNaN_of_isFinite hz))
    have hge := abs_abs_sub_abs_le q z.value
    rw [← e, h.abs_sub_value] at hge
    have htie : abs (|q| - |y.value|) * 2 ^ f.scale = abs (|q| - |z.value|) * 2 ^ f.scale := by
      rw [le_antisymm hle hge]
    rw [abs_abs_sub_value, abs_abs_sub_value] at htie
    refine (even_significand_iff hp y).mpr ?_
    refine h.magnitude.even _ (magnitude_le_of_not_isNaN (isNaN_of_isFinite hz)) htie fun hm => ?_
    -- of opposite signs they are equally near to zero only, which is a number itself
    rcases abs_eq_abs.mp (abs_value_eq_iff.mpr hm) with heq | heq
    · exact hne heq
    rcases abs_eq_abs.mp e with hsub | hsub
    · exact hne (by linarith)
    · obtain rfl : q = 0 := by linarith
      have := h.value_eq_zero
      exact hne (by rw [heq, this, neg_zero])

/-- Larger numbers are not rounded to smaller ones. -/
theorem value_le (hx : x.Rounds q) (hy : y.Rounds p) (h : q ≤ p) : x.value ≤ y.value := by
  have hpow : (0 : ℚ) ≤ 2 ^ f.scale := by positivity
  cases hnx : x.negative with
  | true =>
      rw [value_of_negative hnx]
      cases hny : y.negative with
      | true =>
          rw [value_of_negative hny, neg_le_neg_iff, abs_value_le_iff]
          refine hy.magnitude.le_of_le hx.magnitude (mul_le_mul_of_nonneg_right ?_ hpow)
          rw [abs_of_nonpos (hx.nonpos hnx), abs_of_nonpos (hy.nonpos hny)]
          exact neg_le_neg h
      | false =>
          rw [value_of_not_negative hny]
          exact (neg_nonpos.mpr (abs_nonneg _)).trans (abs_nonneg _)
  | false =>
      cases hny : y.negative with
      | true =>
          -- both are rounded from zero
          have hq := hx.nonneg hnx
          have hp := hy.nonpos hny
          obtain rfl : q = 0 := le_antisymm (h.trans hp) hq
          obtain rfl : p = 0 := le_antisymm hp h
          rw [hx.value_eq_zero, hy.value_eq_zero]
      | false =>
          rw [value_of_not_negative hnx, value_of_not_negative hny, abs_value_le_iff]
          refine hx.magnitude.le_of_le hy.magnitude (mul_le_mul_of_nonneg_right ?_ hpow)
          rw [abs_of_nonneg (hx.nonneg hnx), abs_of_nonneg (hy.nonneg hny)]
          exact h

/-- Infinity is what is half a step above the largest finite number, or farther. -/
theorem isInfinite_iff (hp : 1 < f.precision) (hf : 0 < f.infinity) (h : y.Rounds q) :
    y.isInfinite = true ↔ f.limit / 2 ^ f.scale ≤ |q| := by
  rw [isInfinite, decide_eq_true_iff, h.magnitude.eq_infinity_iff hp hf,
    div_le_iff₀ (by positivity)]

end Rounds

end Binary

/-! ### Conversions -/

namespace Binary

variable {f g : Format}

/-- A magnitude that is near, with the sign of the number, is what the number is rounded to. -/
theorem rounds_ofMagnitude (hw : 0 < f.width) (hs : f.infinity < f.signBit) {negative : Bool}
    {m : ℕ} {q : ℚ} (hpos : negative = true → q ≤ 0) (hneg : negative = false → 0 ≤ q)
    (h : f.Rounds (|q| * 2 ^ f.scale) m) : (ofMagnitude f negative m).Rounds q := by
  have hm : m < f.signBit := h.le_infinity.trans_lt hs
  constructor
  · rwa [negative_ofMagnitude hw hm]
  · rwa [negative_ofMagnitude hw hm]
  · rwa [magnitude_ofMagnitude hw hm]

/-- A finite number is converted to the nearest one. -/
theorem convert_rounds (hp : 1 < g.precision) (hs : g.infinity < g.signBit) {x : Binary f}
    (h : x.isFinite = true) : (x.convert g).Rounds x.value := by
  rw [convert, isNaN_of_isFinite h, isInfinite_of_isFinite h, if_neg Bool.false_ne_true,
    if_neg Bool.false_ne_true]
  refine rounds_ofMagnitude (by rw [Format.width]; omega) hs (fun hn => ?_) (fun hn => ?_) ?_
  · rw [value_of_negative hn]
    exact neg_nonpos.mpr (abs_nonneg _)
  · rw [value_of_not_negative hn]
    exact abs_nonneg _
  · have := Format.nearest_rounds hp x.units (Nat.two_pow_pos f.scale)
    rwa [Nat.cast_pow, Nat.cast_ofNat, mul_div_right_comm, ← abs_value] at this

/-- Infinity is converted to infinity. -/
theorem convert_of_isInfinite {x : Binary f} (h : x.isInfinite = true) :
    x.convert g = ofMagnitude g x.negative g.infinity := by
  rw [convert, isNaN_of_isInfinite h, h, if_neg Bool.false_ne_true, if_pos rfl]

section

variable (hw : 0 < f.width) (hs : f.infinity < f.signBit)

include hw hs

theorem isInfinite_ofMagnitude (negative : Bool) :
    (ofMagnitude f negative f.infinity).isInfinite = true := by
  rw [isInfinite, magnitude_ofMagnitude hw hs]
  exact decide_eq_true rfl

/-- The number of infinity is an end of the order. -/
theorem number_ofMagnitude_infinity (negative : Bool) :
    (ofMagnitude f negative f.infinity).number = if negative then ⊥ else ⊤ := by
  rw [number_of_isInfinite (isInfinite_ofMagnitude hw hs negative), negative_ofMagnitude hw hs]

/-- There is one infinity of each sign. -/
theorem eq_ofMagnitude_of_isInfinite {x : Binary f} (h : x.isInfinite = true) :
    x = ofMagnitude f x.negative f.infinity := by
  refine eq_of_magnitude_eq hw (negative_ofMagnitude hw hs).symm ?_
  rw [magnitude_ofMagnitude hw hs]
  exact of_decide_eq_true h

end

section

variable (hp : 1 < g.precision) (hs : g.infinity < g.signBit)

include hp hs

/-- A number is converted to a number of its sign. -/
theorem convert_sign {x : Binary f} (h : x.isNaN = false) :
    (x.convert g).isNaN = false ∧ (x.convert g).negative = x.negative := by
  have hw : 0 < g.width := by rw [Format.width]; omega
  rcases isFinite_or_isInfinite h with h | h
  · refine ⟨(convert_rounds hp hs h).isNaN, ?_⟩
    rw [convert, isNaN_of_isFinite h, isInfinite_of_isFinite h, if_neg Bool.false_ne_true,
      if_neg Bool.false_ne_true]
    exact negative_ofMagnitude hw ((Nat.min_le_right _ _).trans_lt hs)
  · rw [convert_of_isInfinite h]
    exact ⟨isNaN_of_isInfinite (isInfinite_ofMagnitude hw hs _), negative_ofMagnitude hw hs⟩

/-- Larger numbers are not converted to smaller ones. -/
theorem number_convert_le (hf : 0 < f.infinity) (hg : 0 < g.infinity) {x y : Binary f}
    (hx : x.isNaN = false) (hy : y.isNaN = false) (h : x.number ≤ y.number) :
    (x.convert g).number ≤ (y.convert g).number := by
  have hw : 0 < g.width := by rw [Format.width]; omega
  rcases isFinite_or_isInfinite hx with hfx | hix <;>
    rcases isFinite_or_isInfinite hy with hfy | hiy
  · have hle := (number_le_number_iff hf hx hy).mp h
    have hxr := convert_rounds hp hs hfx
    have hyr := convert_rounds hp hs hfy
    exact (number_le_number_iff hg hxr.isNaN hyr.isNaN).mpr (hxr.value_le hyr hle)
  · rw [number_of_isInfinite hiy] at h
    rw [convert_of_isInfinite hiy, number_ofMagnitude_infinity hw hs]
    cases hn : y.negative with
    | false => exact le_top
    | true =>
        rw [hn, number_of_isFinite hfx] at h
        exact absurd h (not_le.mpr (WithBot.bot_lt_coe _))
  · rw [number_of_isInfinite hix] at h
    rw [convert_of_isInfinite hix, number_ofMagnitude_infinity hw hs]
    cases hn : x.negative with
    | true => exact bot_le
    | false =>
        rw [hn, number_of_isFinite hfy] at h
        exact absurd h (not_le.mpr (WithBot.coe_lt_coe.mpr (WithTop.coe_lt_top _)))
  · rw [convert_of_isInfinite hix, convert_of_isInfinite hiy, number_ofMagnitude_infinity hw hs,
      number_ofMagnitude_infinity hw hs, ← number_of_isInfinite hix, ← number_of_isInfinite hiy]
    exact h

end

end Binary

namespace Binary64

/-- The double of an integer is what the integer is rounded to. -/
theorem ofInt_rounds (i : ℤ) : (ofInt i).Rounds i := by
  refine Binary.rounds_ofMagnitude (by decide) infinity_lt_signBit (fun hn => ?_) (fun hn => ?_) ?_
  · exact_mod_cast (of_decide_eq_true hn).le
  · exact_mod_cast not_lt.mp (of_decide_eq_false hn)
  · have := Format.nearest_rounds (f := .double) (by decide) i.natAbs Nat.one_pos
    rwa [Nat.cast_one, div_one, Nat.cast_natAbs, Int.cast_abs] at this

/-- From halfway between the greatest single and the next power of two on, all is infinite. -/
theorem limit_single : Format.single.limit / 2 ^ Format.single.scale = 2 ^ 128 - 2 ^ 103 :=
  Format.limit_div (f := .single) (by decide) rfl

/-- So it is with doubles. -/
theorem limit_double : Format.double.limit / 2 ^ Format.double.scale = 2 ^ 1024 - 2 ^ 970 := by
  rw [show 1024 = Format.double.precision + 1 + 970 from rfl]
  exact Format.limit_div (by decide) rfl

/-- Widening keeps the sign. -/
theorem negative_widen {y : Binary32} (h : y.isNaN = false) :
    (widen y).negative = y.negative :=
  (Binary.convert_sign (by decide) infinity_lt_signBit h).2

/-- A finite number keeps its value when it is widened. -/
theorem value_widen {y : Binary32} (h : y.isFinite = true) :
    (widen y).isFinite = true ∧ (widen y).value = y.value := by
  have hlt := double_pattern_lt (of_decide_eq_true h : y.magnitude < _)
  have hmagnitude : (widen y).magnitude =
      Format.double.pattern (Format.single.units y.magnitude * 2 ^ scaleGap) := by
    rw [widen_of_isFinite h, Binary.magnitude_ofMagnitude (by decide)
      (hlt.trans infinity_lt_signBit)]
  have hscale : Format.double.scale = scaleGap + Format.single.scale := by
    rw [scaleGap_eq]
    rfl
  refine ⟨decide_eq_true (hmagnitude ▸ hlt),
    Binary.value_eq_of_abs (negative_widen (Binary.isNaN_of_isFinite h)) ?_⟩
  rw [Binary.abs_value, Binary.abs_value, Binary.units, hmagnitude,
    Format.units_pattern (by decide) (single_units_dvd _), hscale, pow_add]
  push_cast
  rw [mul_comm, mul_div_mul_left _ _ (by positivity)]
  rfl

/-- A number keeps its place among all numbers when it is widened. -/
theorem number_widen {y : Binary32} (h : y.isNaN = false) : (widen y).number = y.number := by
  rcases Binary.isFinite_or_isInfinite h with h | h
  · obtain ⟨hfinite, hvalue⟩ := value_widen h
    rw [Binary.number_of_isFinite hfinite, Binary.number_of_isFinite h, hvalue]
  · rw [widen_of_isInfinite h, infinity,
      Binary.number_ofMagnitude_infinity (by decide) infinity_lt_signBit,
      Binary.number_of_isInfinite h]

end Binary64

end WireSchema
