import Mathlib.Algebra.Order.Field.Rat
import Mathlib.Data.Nat.Cast.Order.Field
import Mathlib.Order.Monotone.Basic
import Mathlib.Tactic.FieldSimp
import Mathlib.Tactic.Linarith
import Mathlib.Tactic.Positivity
import WireSchema.Proofs.Number.Nearest

/-!
# Number — Rounding

`Format.nearest` gives the nearest magnitude (`Format.nearest_rounds`): no other is nearer, infinity
counted as the number that would follow the largest one, and a tie goes to the even magnitude.
Nothing more is used of it later on. As magnitudes run in the order of their sizes
(`Format.units_strictMono`), at most one of them is nearest, and a larger number has no smaller one
(`Format.Rounds.le_of_le`); infinity is nearest from half a step above the largest finite number on
(`Format.Rounds.eq_infinity_iff`).
-/

namespace WireSchema

/-! ### Whole numbers -/

/-- A quotient is rounded by half at most, and by half to an even number only. -/
theorem roundHalfEven_near (num : Nat) {den : Nat} (hd : 0 < den) :
    |(num / den : ℚ) - roundHalfEven num den| ≤ 1 / 2 ∧
      (|(num / den : ℚ) - roundHalfEven num den| = 1 / 2 → Even (roundHalfEven num den)) := by
  have hpos : (0 : ℚ) < den := by exact_mod_cast hd
  have hsplit : (num / den : ℚ) = (num / den : ℕ) + (num % den : ℕ) / den := by
    have hdiv : (num : ℚ) = den * (num / den : ℕ) + (num % den : ℕ) := by
      exact_mod_cast (Nat.div_add_mod num den).symm
    rw [div_eq_iff hpos.ne', add_mul, div_mul_cancel₀ _ hpos.ne', mul_comm]
    exact hdiv
  have hlow : (0 : ℚ) ≤ (num % den : ℕ) / den := by positivity
  -- the remainder is below half the divisor, above it, or half of it
  simp only [hsplit, roundHalfEven]
  split
  · next h =>
      have hlt : ((num % den : ℕ) / den : ℚ) < 1 / 2 := by
        rw [div_lt_div_iff₀ hpos two_pos]
        exact_mod_cast (by omega : num % den * 2 < 1 * den)
      rw [add_sub_cancel_left, abs_of_nonneg hlow]
      exact ⟨hlt.le, fun e => absurd e hlt.ne⟩
  split
  · next h =>
      have hlt : (1 / 2 : ℚ) < (num % den : ℕ) / den := by
        rw [div_lt_div_iff₀ two_pos hpos]
        exact_mod_cast (by omega : 1 * den < num % den * 2)
      have hle : ((num % den : ℕ) / den : ℚ) ≤ 1 := by
        rw [div_le_one hpos]
        exact_mod_cast (Nat.mod_lt num hd).le
      rw [Nat.cast_add, Nat.cast_one, add_sub_add_left_eq_sub, abs_of_nonpos (by linarith)]
      exact ⟨by linarith, fun e => absurd e (by linarith)⟩
  · next h h' =>
      have hhalf : ((num % den : ℕ) / den : ℚ) = 1 / 2 := by
        rw [div_eq_div_iff hpos.ne' two_ne_zero]
        exact_mod_cast (by omega : num % den * 2 = 1 * den)
      have heven : Even (num / den + num / den % 2) := by
        rw [Nat.even_iff]
        omega
      refine ⟨?_, fun _ => heven⟩
      rw [hhalf, Nat.cast_add, add_sub_add_left_eq_sub]
      rcases Nat.mod_two_eq_zero_or_one (num / den) with e | e <;> rw [e] <;> norm_num

/-- A number half away at most from a whole one is as far from any other, or farther. -/
theorem abs_sub_le_of_near {x : ℚ} {r q : ℕ} (h : |x - r| ≤ 1 / 2) (hne : r ≠ q) :
    1 / 2 ≤ |x - q| := by
  have hstep : (1 : ℚ) ≤ |(r : ℚ) - q| := by
    have : (1 : ℤ) ≤ |(r : ℤ) - q| := Int.one_le_abs (by omega)
    exact_mod_cast this
  have htri := abs_sub_le (r : ℚ) x q
  rw [abs_sub_comm (r : ℚ) x] at htri
  linarith

namespace Format

variable {f : Format}

/-! ### Sizes of magnitudes -/

theorem units_of_lt {m : ℕ} (h : m < f.binade) : f.units m = m := if_pos h

/-- Within a binade sizes differ by the step of it. -/
theorem units_mul_add {k s : ℕ} (h : s < f.binade) :
    f.units ((k + 1) * f.binade + s) = (f.binade + s) * 2 ^ k := by
  have hle : ¬ (k + 1) * f.binade + s < f.binade := by
    rw [Nat.add_mul]
    omega
  rw [units, if_neg hle, Nat.add_comm _ s, Nat.add_mul_mod_self_right, Nat.mod_eq_of_lt h,
    Nat.add_mul_div_right _ _ f.binade_pos, Nat.div_eq_of_lt h, Nat.zero_add, Nat.add_sub_cancel]
  rfl

/-- A magnitude is one of the first binade, or stands at a place in a later one. -/
theorem lt_binade_or_exists (m : ℕ) :
    m < f.binade ∨ ∃ k s, s < f.binade ∧ m = (k + 1) * f.binade + s := by
  rcases Nat.lt_or_ge m f.binade with h | h
  · exact .inl h
  · obtain ⟨k, hk⟩ := Nat.exists_eq_succ_of_ne_zero (Nat.div_pos h f.binade_pos).ne'
    refine .inr ⟨k, m % f.binade, Nat.mod_lt m f.binade_pos, ?_⟩
    rw [← Nat.succ_eq_add_one, ← hk, Nat.mul_comm]
    exact (Nat.div_add_mod m f.binade).symm

/-- From a magnitude to the next the size grows by one step. -/
theorem units_succ (m : ℕ) : f.units (m + 1) = f.units m + 2 ^ (m / f.binade - 1) := by
  have hb := f.binade_pos
  rcases f.lt_binade_or_exists m with h | ⟨k, s, h, rfl⟩
  · rw [Nat.div_eq_of_lt h, units_of_lt h]
    rcases Nat.lt_or_eq_of_le (show m + 1 ≤ f.binade from h) with hlt | heq
    · rw [units_of_lt hlt]
      rfl
    · have := f.units_mul_add (k := 0) hb
      rw [Nat.zero_add, Nat.one_mul, Nat.add_zero, pow_zero, Nat.mul_one] at this
      rw [heq, this, ← heq]
      rfl
  · rw [Nat.add_comm _ s, Nat.add_mul_div_right _ _ hb, Nat.div_eq_of_lt h, Nat.zero_add,
      Nat.add_sub_cancel, Nat.add_comm s, units_mul_add h]
    rcases Nat.lt_or_eq_of_le (show s + 1 ≤ f.binade from h) with hlt | heq
    · rw [Nat.add_assoc, units_mul_add hlt]
      ring
    · -- the last one of a binade
      have hnext : (k + 1) * f.binade + s + 1 = (k + 1 + 1) * f.binade + 0 := by
        rw [Nat.add_mul (k + 1) 1]
        omega
      rw [hnext, units_mul_add hb, ← heq]
      ring

theorem units_strictMono (f : Format) : StrictMono f.units :=
  strictMono_nat_of_lt_succ fun m => by
    rw [units_succ]
    exact Nat.lt_add_of_pos_right (Nat.two_pow_pos _)

/-- A number of steps that the precision holds, or one more, is the size of the magnitude found by
counting binades. -/
theorem units_mul_binade_add {k r : ℕ} (h : k ≠ 0 → f.binade ≤ r) (h' : r ≤ 2 * f.binade) :
    f.units (k * f.binade + r) = r * 2 ^ k := by
  have hb := f.binade_pos
  rcases Nat.lt_or_ge r f.binade with hlow | hlow
  · have hk : k = 0 := by
      by_contra hk
      have := h hk
      omega
    rw [hk, Nat.zero_mul, Nat.zero_add, units_of_lt hlow, pow_zero, Nat.mul_one]
  obtain ⟨s, rfl⟩ := Nat.exists_eq_add_of_le hlow
  rw [← Nat.add_assoc, ← Nat.succ_mul]
  rcases Nat.lt_or_eq_of_le (show s ≤ f.binade by omega) with hlt | rfl
  · exact units_mul_add hlt
  · -- the carry into the next binade
    have := f.units_mul_add (k := k + 1) hb
    rw [Nat.add_zero, Nat.add_zero, Nat.succ_mul] at this
    rw [this]
    ring

/-- The sizes from some binade on are whole numbers of its steps. -/
theorem dvd_units_or_lt (m k : ℕ) :
    2 ^ k ∣ f.units m ∨ k ≠ 0 ∧ f.units m < f.binade * 2 ^ k := by
  rcases Nat.eq_zero_or_pos k with rfl | hk
  · exact .inl (one_dvd _)
  rcases f.lt_binade_or_exists m with h | ⟨j, s, h, rfl⟩
  · rw [units_of_lt h]
    exact .inr ⟨hk.ne', h.trans_le (Nat.le_mul_of_pos_right _ (Nat.two_pow_pos k))⟩
  rw [units_mul_add h]
  rcases Nat.lt_or_ge j k with hjk | hjk
  · refine .inr ⟨hk.ne', ?_⟩
    calc (f.binade + s) * 2 ^ j
        < (2 * f.binade) * 2 ^ j := Nat.mul_lt_mul_of_pos_right (by omega) (Nat.two_pow_pos j)
      _ = f.binade * 2 ^ (j + 1) := by ring
      _ ≤ f.binade * 2 ^ k := Nat.mul_le_mul_left _ (Nat.pow_le_pow_right two_pos hjk)
  · exact .inl ((Nat.pow_dvd_pow 2 hjk).trans (Nat.dvd_mul_left _ _))

/-- As many steps as the precision holds are the size of a magnitude, wherever they lie. -/
theorem exists_units_eq (hp : 0 < f.precision) {r : ℕ} (h : r ≤ 2 * f.binade) (k : ℕ) :
    ∃ m ≤ (k + 2) * f.binade, f.units m = r * 2 ^ k := by
  rcases Nat.lt_or_eq_of_le h with hlt | rfl
  · have hstep : f.step (r * 2 ^ k) ≤ k := by
      by_cases h₀ : r = 0
      · rw [h₀, Nat.zero_mul, step_of_lt hp (Nat.mul_pos two_pos f.binade_pos)]
        exact Nat.zero_le k
      · have := step_of_lt hp hlt
        rw [step] at this ⊢
        rw [log2_mul_two_pow h₀]
        omega
    have hdvd : 2 ^ f.step (r * 2 ^ k) ∣ r * 2 ^ k :=
      (Nat.pow_dvd_pow 2 hstep).trans (Nat.dvd_mul_left _ _)
    exact ⟨_, (pattern_lt hp hdvd).le.trans (Nat.mul_le_mul_right _ (by omega)),
      units_pattern hp hdvd⟩
  · refine ⟨k * f.binade + 2 * f.binade, (Nat.add_mul k 2 f.binade).ge, ?_⟩
    exact units_mul_binade_add (fun _ => by omega) le_rfl

/-! ### The nearest magnitude -/

/-- A size of `u` units lies where numbers are `2 ^ k` units apart, and is rounded to `r` of these
steps. -/
structure Steps (f : Format) (u : ℚ) (k r : ℕ) : Prop where
  lt : u < 2 * f.binade * 2 ^ k
  le : k ≠ 0 → f.binade * 2 ^ k ≤ u
  near : |u / 2 ^ k - r| ≤ 1 / 2
  even : |u / 2 ^ k - r| = 1 / 2 → Even r

/-- `m` is the magnitude that a size of `u` units is rounded to: no other is nearer, and of two
equally near it is the even one. Infinity counts as the number that would follow the largest. -/
structure Rounds (f : Format) (u : ℚ) (m : ℕ) : Prop where
  le_infinity : m ≤ f.infinity
  near : ∀ n ≤ f.infinity, |u - f.units m| ≤ |u - f.units n|
  even : ∀ n ≤ f.infinity, |u - f.units m| = |u - f.units n| → n ≠ m → Even m

section

variable {u v : ℚ} {k r m n : ℕ}

namespace Steps

variable (h : f.Steps u k r)

include h

theorem binade_le (hk : k ≠ 0) : f.binade ≤ r := by
  have hpow : (0 : ℚ) < 2 ^ k := by positivity
  have hle : (f.binade : ℚ) ≤ u / 2 ^ k := (le_div_iff₀ hpow).mpr (h.le hk)
  have hnear := (abs_le.mp h.near).2
  have : (f.binade : ℚ) < r + 1 := by linarith
  exact Nat.lt_succ_iff.mp (by exact_mod_cast this)

theorem le_two_mul_binade : r ≤ 2 * f.binade := by
  have hpow : (0 : ℚ) < 2 ^ k := by positivity
  have hlt : u / 2 ^ k < 2 * f.binade := (div_lt_iff₀ hpow).mpr h.lt
  have hnear := (abs_le.mp h.near).1
  have : (r : ℚ) < 2 * f.binade + 1 := by linarith
  exact Nat.lt_succ_iff.mp (by exact_mod_cast this)

theorem units_eq : f.units (k * f.binade + r) = r * 2 ^ k :=
  units_mul_binade_add h.binade_le h.le_two_mul_binade

/-- No whole number of steps is nearer. -/
theorem near_natCast (q : ℕ) : |u / 2 ^ k - r| ≤ |u / 2 ^ k - q| := by
  rcases eq_or_ne r q with rfl | hne
  · exact le_rfl
  · exact h.near.trans (abs_sub_le_of_near h.near hne)

/-- No magnitude is nearer, as those below the binade are farther than its first one; and another
one as near is half a step away. -/
theorem near_units (n : ℕ) :
    |u - f.units (k * f.binade + r)| ≤ |u - f.units n| ∧
      (|u - f.units (k * f.binade + r)| = |u - f.units n| → n ≠ k * f.binade + r → Even r) := by
  have hpow : (0 : ℚ) < 2 ^ k := by positivity
  have hdist : ∀ q : ℕ, |u - (q * 2 ^ k : ℕ)| = |u / 2 ^ k - q| * 2 ^ k := by
    intro q
    rw [← abs_of_pos hpow, ← abs_mul, abs_of_pos hpow, sub_mul, div_mul_cancel₀ _ hpow.ne']
    push_cast
    rfl
  rw [h.units_eq, hdist]
  rcases f.dvd_units_or_lt n k with ⟨q, hq⟩ | ⟨hk, hlt⟩
  · rw [hq, Nat.mul_comm, hdist]
    refine ⟨mul_le_mul_of_nonneg_right (h.near_natCast q) hpow.le, fun e hne => ?_⟩
    have hrq : r ≠ q := by
      rintro rfl
      refine hne (f.units_strictMono.injective ?_)
      rw [h.units_eq, hq, Nat.mul_comm]
    have hhalf := abs_sub_le_of_near h.near hrq
    rw [← mul_right_cancel₀ hpow.ne' e] at hhalf
    exact h.even (le_antisymm h.near hhalf)
  · have hle := h.le hk
    have hunits : (f.units n : ℚ) < f.binade * 2 ^ k := by exact_mod_cast hlt
    have hfirst : |u / 2 ^ k - r| * 2 ^ k ≤ u - f.binade * 2 ^ k := by
      have hnonneg : 0 ≤ u / 2 ^ k - f.binade := by
        rw [sub_nonneg, le_div_iff₀ hpow]
        exact hle
      have := mul_le_mul_of_nonneg_right (h.near_natCast f.binade) hpow.le
      rwa [abs_of_nonneg hnonneg, sub_mul, div_mul_cancel₀ _ hpow.ne'] at this
    rw [abs_of_nonneg (by linarith : 0 ≤ u - f.units n)]
    exact ⟨by linarith, fun e => absurd e (by linarith)⟩

end Steps

theorem exists_steps (hp : 0 < f.precision) (num : ℕ) {den : ℕ} (hd : 0 < den) :
    ∃ k r, f.Steps (num * 2 ^ f.scale / den) k r ∧
      f.nearest num den = min (k * f.binade + r) f.infinity := by
  have hden : (0 : ℚ) < den := by exact_mod_cast hd
  simp only [nearest, Nat.pow_eq]
  have hcast : (num * 2 ^ f.scale / den : ℚ) = (num * 2 ^ f.scale : ℕ) / den := by push_cast; rfl
  rw [hcast]
  generalize num * 2 ^ f.scale = n
  have hlow : ((n / den : ℕ) : ℚ) ≤ n / den := Nat.cast_div_le
  have hhigh : (n / den : ℚ) < (n / den : ℕ) + 1 := by
    rw [div_lt_iff₀ hden, mul_comm]
    exact_mod_cast Nat.lt_mul_div_succ n hd
  have htwo := two_mul_binade hp
  obtain ⟨hnear, heven⟩ :=
    roundHalfEven_near n (Nat.mul_pos hd (Nat.two_pow_pos ((n / den).log2 + 1 - f.precision)))
  rw [Nat.cast_mul, Nat.cast_pow, Nat.cast_ofNat, ← div_div] at hnear heven
  refine ⟨_, _, ⟨?_, fun hk => ?_, hnear, heven⟩, rfl⟩
  · -- the whole part has no more bits than the precision and the steps together
    have hbits : n / den + 1 ≤ 2 * f.binade * 2 ^ ((n / den).log2 + 1 - f.precision) := by
      rw [htwo, ← pow_add]
      exact Nat.lt_log2_self.trans_le (Nat.pow_le_pow_right two_pos (by omega))
    exact hhigh.trans_le (by exact_mod_cast hbits)
  · have hne : n / den ≠ 0 := by
      intro h
      rw [h, Nat.log2_zero] at hk
      omega
    have hbits : f.binade * 2 ^ ((n / den).log2 + 1 - f.precision) ≤ n / den := by
      refine le_trans (le_of_eq ?_) (Nat.log2_self_le hne)
      rw [binade, Nat.pow_eq, ← pow_add]
      congr 1
      omega
    exact le_trans (by exact_mod_cast hbits) hlow

/-- Of two numbers the farther one lies beyond the middle. -/
theorem add_le_two_mul_of_abs {x a b : ℚ} (hab : a < b) (h : |x - b| ≤ |x - a|) :
    a + b ≤ 2 * x := by
  have hb := (neg_le_abs (x - b)).trans h
  rcases abs_cases (x - a) with ⟨e, -⟩ | ⟨e, hlt⟩ <;> rw [e] at hb <;> linarith

theorem two_mul_le_add_of_abs {x a b : ℚ} (hab : a < b) (h : |x - a| ≤ |x - b|) :
    2 * x ≤ a + b := by
  have ha := (le_abs_self (x - a)).trans h
  rcases abs_cases (x - b) with ⟨e, hle⟩ | ⟨e, -⟩ <;> rw [e] at ha <;> linarith

theorem even_binade (hp : 1 < f.precision) : Even f.binade := by
  obtain ⟨j, hj⟩ : ∃ j, f.precision = j + 2 := ⟨f.precision - 2, by omega⟩
  rw [binade, hj, Nat.pow_eq]
  exact Nat.even_pow.mpr ⟨even_two, by omega⟩

theorem even_infinity (hp : 1 < f.precision) : Even f.infinity :=
  (even_binade hp).mul_left _

/-- **The nearest magnitude.** -/
theorem nearest_rounds (hp : 1 < f.precision) (num : ℕ) {den : ℕ} (hd : 0 < den) :
    f.Rounds (num * 2 ^ f.scale / den) (f.nearest num den) := by
  obtain ⟨k, r, hsteps, heq⟩ := exists_steps (f := f) (by omega) num hd
  generalize (num * 2 ^ f.scale / den : ℚ) = u at hsteps
  rw [heq]
  rcases Nat.le_total (k * f.binade + r) f.infinity with hle | hle
  · rw [Nat.min_eq_left hle]
    refine ⟨hle, fun n _ => (hsteps.near_units n).1, fun n _ e hne => ?_⟩
    exact ((even_binade hp).mul_left k).add ((hsteps.near_units n).2 e hne)
  · rw [Nat.min_eq_right hle]
    refine ⟨le_rfl, fun n hn => ?_, fun _ _ _ _ => even_infinity hp⟩
    -- beyond infinity: all magnitudes up to it lie below
    have hmono : ((f.units n : ℕ) : ℚ) ≤ f.units f.infinity := by
      exact_mod_cast f.units_strictMono.monotone hn
    rcases Nat.lt_or_eq_of_le hle with hlt | heq
    · have hunits : ((f.units f.infinity : ℕ) : ℚ) < f.units (k * f.binade + r) := by
        exact_mod_cast f.units_strictMono hlt
      have := add_le_two_mul_of_abs hunits (hsteps.near_units f.infinity).1
      rw [abs_of_nonneg (by linarith), abs_of_nonneg (by linarith)]
      linarith
    · rw [heq]
      exact (hsteps.near_units n).1

/-- Half-way between the largest finite number and the one that would follow it, in units. -/
def limit (f : Format) : ℚ := (f.units (f.infinity - 1) + f.units f.infinity) / 2

theorem limit_div (hp : 0 < f.precision) {j : ℕ}
    (h : f.infinity = (j + f.scale + 3) * f.binade) :
    f.limit / 2 ^ f.scale = 2 ^ (f.precision + 1 + j) - 2 ^ j := by
  obtain ⟨b, hb⟩ := Nat.exists_eq_succ_of_ne_zero f.binade_pos.ne'
  have hinfinity : f.units f.infinity = f.binade * 2 ^ (j + f.scale + 2) := by
    rw [h, ← Nat.add_zero ((j + f.scale + 3) * f.binade)]
    exact units_mul_add f.binade_pos
  have htop : f.units (f.infinity - 1) = (f.binade + b) * 2 ^ (j + f.scale + 1) := by
    have hpred : f.infinity - 1 = (j + f.scale + 1 + 1) * f.binade + b := by
      rw [h, show j + f.scale + 3 = j + f.scale + 1 + 1 + 1 from rfl, Nat.succ_mul, hb]
      rfl
    rw [hpred]
    exact units_mul_add (by omega)
  have hprecision : (2 : ℚ) ^ f.precision = 2 * f.binade := by
    exact_mod_cast (two_mul_binade hp).symm
  have hpow : (2 : ℚ) ^ f.scale ≠ 0 := by positivity
  have hbinade : (f.binade : ℚ) = b + 1 := by
    rw [hb]
    exact Nat.cast_succ b
  rw [limit, hinfinity, htop, div_eq_iff hpow, add_assoc f.precision,
    pow_add 2 f.precision, hprecision]
  push_cast
  rw [hbinade]
  ring

namespace Rounds

/-- A larger size has no smaller magnitude. -/
theorem le_of_le (hu : f.Rounds u m) (hv : f.Rounds v n) (h : u ≤ v) : m ≤ n := by
  by_contra hlt
  have hlt : n < m := Nat.not_le.mp hlt
  have hunits : (f.units n : ℚ) < f.units m := by exact_mod_cast f.units_strictMono hlt
  have hum := add_le_two_mul_of_abs hunits (hu.near n hv.le_infinity)
  have hvn := two_mul_le_add_of_abs hunits (hv.near m hu.le_infinity)
  -- both lie in the middle, where each of the two is even, so that another lies between
  obtain rfl : u = v := by linarith
  have htie : |u - f.units m| = |u - f.units n| := by
    rw [show u - f.units m = -(u - f.units n) by linarith, abs_neg]
  have hm := hu.even n hv.le_infinity htie hlt.ne
  have hn := hv.even m hu.le_infinity htie.symm hlt.ne'
  have hbetween : n + 1 < m := by
    rw [Nat.even_iff] at hm hn
    omega
  have hlow : (f.units n : ℚ) < f.units (n + 1) := by
    exact_mod_cast f.units_strictMono (Nat.lt_succ_self n)
  have hhigh : (f.units (n + 1) : ℚ) < f.units m := by exact_mod_cast f.units_strictMono hbetween
  have := add_le_two_mul_of_abs hhigh (hu.near (n + 1) (hbetween.le.trans hu.le_infinity))
  linarith

/-- One magnitude only is nearest. -/
theorem unique (hm : f.Rounds u m) (hn : f.Rounds u n) : m = n :=
  le_antisymm (hm.le_of_le hn le_rfl) (hn.le_of_le hm le_rfl)

/-- The size of a magnitude is rounded to this. -/
theorem of_units (h : m ≤ f.infinity) : f.Rounds (f.units m) m where
  le_infinity := h
  near n _ := by
    rw [sub_self, abs_zero]
    exact abs_nonneg _
  even n _ e hne := by
    rw [sub_self, abs_zero, eq_comm, abs_eq_zero, sub_eq_zero, Nat.cast_inj] at e
    exact absurd (f.units_strictMono.injective e).symm hne

/-- **Infinity is nearest from half a step above the largest finite number on.** -/
theorem eq_infinity_iff (hp : 1 < f.precision) (hf : 0 < f.infinity) (h : f.Rounds u m) :
    m = f.infinity ↔ f.limit ≤ u := by
  obtain ⟨top, htop⟩ := Nat.exists_eq_succ_of_ne_zero hf.ne'
  have hlt : (f.units top : ℚ) < f.units f.infinity := by
    rw [htop]
    exact_mod_cast f.units_strictMono (Nat.lt_succ_self top)
  rw [limit, htop, Nat.succ_sub_one, ← htop, div_le_iff₀ two_pos, mul_comm u]
  constructor
  · rintro rfl
    exact add_le_two_mul_of_abs hlt (h.near top (by omega))
  · intro hle
    by_contra hne
    have hm : m ≤ top := by
      have := h.le_infinity
      omega
    have hunits : (f.units m : ℚ) ≤ f.units top := by
      exact_mod_cast f.units_strictMono.monotone hm
    have hmid := two_mul_le_add_of_abs (hunits.trans_lt hlt) (h.near f.infinity le_rfl)
    -- in the middle the largest finite number would have to be even
    have htie : |u - f.units m| = |u - f.units f.infinity| := by
      rw [show u - f.units m = -(u - f.units f.infinity) by linarith, abs_neg]
    have heq : f.units m = f.units top := by
      have : (f.units m : ℚ) = f.units top := by linarith
      exact_mod_cast this
    have hmtop := f.units_strictMono.injective heq
    have heven := h.even f.infinity le_rfl htie (Ne.symm hne)
    have := even_infinity hp
    rw [hmtop, Nat.even_iff] at heven
    rw [htop, Nat.even_iff] at this
    omega

end Rounds

end

end Format
end WireSchema
