import WireSchema.Proofs.Codec.Canonical
import WireSchema.Proofs.Codec.Reading
import WireSchema.Proofs.Cursor
import WireSchema.Proofs.Number.Value

/-!
# Narrowing

**A single-precision field holds the nearest number** (`Packer.read_float32`). Written behind
anything and before anything, at whatever bit, a double is read again as the single-precision
number nearest to it, a tie going to the even significand, or as the infinity of its sign if it is
half a step above the largest of them, or farther. Its sign stays, that of zero too; a
single-precision number comes back bit for bit, and a larger number no smaller.

That the number is the nearest is said of the bytes by `Binary.convert_rounds`; that the double read
is this number, by `Binary64.value_widen`.
-/

namespace WireSchema

namespace Binary64

/-- `y` is what comes back of `x` from single precision. -/
structure IsNarrowed (x y : Binary64) : Prop where
  negative_eq : y.negative = x.negative
  nearest : x.isFinite = true → |x.value| < 2 ^ 128 - 2 ^ 103 →
    ∃ s : Binary32, s.IsNearest x.value ∧ y.isFinite = true ∧ y.value = s.value
  overflow : x.isInfinite = true ∨ 2 ^ 128 - 2 ^ 103 ≤ |x.value| → y = infinity x.negative
  exact : ∀ s : Binary32, s.isNaN = false → s.number = x.number → y = x

variable {x y : Binary64}

/-- Narrowing keeps the sign, and a number stays a number. -/
theorem narrow_sign (h : x.isNaN = false) :
    x.narrow.isNaN = false ∧ x.narrow.negative = x.negative :=
  Binary.convert_sign (by decide) (by decide) h

/-- A finite number is narrowed to the nearest one, ties to even. -/
theorem narrow_rounds (h : x.isFinite = true) : x.narrow.Rounds x.value :=
  Binary.convert_rounds (by decide) (by decide) h

/-- A finite number is too large for single precision from halfway between the largest finite one
and `2 ^ 128` on. -/
theorem isInfinite_narrow_iff (h : x.isFinite = true) :
    x.narrow.isInfinite = true ↔ 2 ^ 128 - 2 ^ 103 ≤ |x.value| := by
  rw [(narrow_rounds h).isInfinite_iff (by decide) (by decide), limit_single]

/-- Past the finite range only the sign is left. -/
theorem widen_narrow_of_overflow (hx : x.isNaN = false)
    (h : x.isInfinite = true ∨ 2 ^ 128 - 2 ^ 103 ≤ |x.value|) :
    widen x.narrow = infinity x.negative := by
  have hinfinite : x.narrow.isInfinite = true := by
    rcases Binary.isFinite_or_isInfinite hx with hfinite | hinfinite
    · refine (isInfinite_narrow_iff hfinite).mpr (h.resolve_left ?_)
      rw [Binary.isInfinite_of_isFinite hfinite]
      exact Bool.false_ne_true
    · rw [narrow, Binary.convert_of_isInfinite hinfinite]
      exact Binary.isInfinite_ofMagnitude (by decide) (by decide) _
  rw [widen_of_isInfinite hinfinite, (narrow_sign hx).2]

/-- A number that single precision has is rounded to itself. -/
theorem widen_narrow_of_number_eq (hx : x.isNaN = false) {s : Binary32} (hs : s.isNaN = false)
    (h : s.number = x.number) : widen x.narrow = x := by
  rcases Binary.value_eq_or_isInfinite hs hx h with ⟨hsf, hxf, hvalue⟩ | ⟨-, hinfinite⟩
  · have hround := (narrow_rounds hxf).magnitude
    have hself := Format.Rounds.of_units (Binary.magnitude_le_of_not_isNaN hs)
    have hunits : |x.value| * 2 ^ Format.single.scale = s.units := by
      rw [← hvalue, Binary.abs_value, div_mul_cancel₀ _ (by positivity)]
    rw [hunits] at hround
    have hnarrow : |x.narrow.value| = |s.value| :=
      Binary.abs_value_eq_iff.mpr (hround.unique hself)
    have hfinite : x.narrow.isFinite = true := by
      rw [Binary.isFinite, hround.unique hself]
      exact hsf
    obtain ⟨-, hwiden⟩ := value_widen hfinite
    have hsign := narrow_sign hx
    refine Binary.eq_of_magnitude_eq (by decide) ((negative_widen hsign.1).trans hsign.2) ?_
    rw [← Binary.abs_value_eq_iff, hwiden, hnarrow, hvalue]
  · rw [widen_narrow_of_overflow hx (.inl hinfinite)]
    exact (Binary.eq_ofMagnitude_of_isInfinite (by decide) infinity_lt_signBit hinfinite).symm

/-- A number that is narrowed and widened is the nearest one that single precision has. -/
theorem isNarrowed_widen_narrow (hx : x.isNaN = false) : x.IsNarrowed (widen x.narrow) where
  negative_eq := (negative_widen (narrow_sign hx).1).trans (narrow_sign hx).2
  nearest hfinite hlt := by
    have hnotinf : ¬ x.narrow.isInfinite = true := by
      rw [isInfinite_narrow_iff hfinite]
      exact not_le.mpr hlt
    have hnarrow := (Binary.isFinite_or_isInfinite (narrow_sign hx).1).resolve_right hnotinf
    exact ⟨x.narrow, (narrow_rounds hfinite).isNearest (by decide) hnarrow, value_widen hnarrow⟩
  overflow := widen_narrow_of_overflow hx
  exact _ hs h := widen_narrow_of_number_eq hx hs h

/-- Narrowing and widening is monotone. -/
theorem number_widen_narrow_le (hx : x.isNaN = false) (hy : y.isNaN = false)
    (h : x.number ≤ y.number) : (widen x.narrow).number ≤ (widen y.narrow).number := by
  rw [number_widen (narrow_sign hx).1, number_widen (narrow_sign hy).1]
  exact Binary.number_convert_le (by decide) (by decide) (by decide) (by decide) hx hy h

end Binary64

namespace Packer

/-- **A single-precision field holds the nearest number.** A double that is a number is accepted
wherever a packer stands. From there, in the bytes of the packer after more calls, a cursor reads 32
bits later what comes back of it from single precision; and no less comes back of a larger number.
-/
theorem read_float32 {capacity : Int} (hcapacity : 1 ≤ capacity) {x : Binary64}
    (hx : x.isNaN = false) (before after : List Call) :
    ∃ start p q r, withCapacity? capacity = .ok start ∧ (run call start before).2 = p ∧
      p.call (.write (.float32 x)) = (.accepted, q) ∧ (run call q after).2 = r ∧
      (∃ c d : Cursor, c.data = r.toBytes ∧ c.position = p.length ∧
        c.read .float32 = .ok (some (.float (.widen x.narrow)), d) ∧ d.position = q.length ∧
        d.position = c.position + 32) ∧
      x.IsNarrowed (.widen x.narrow) ∧
      ∀ y : Binary64, y.isNaN = false → x.number ≤ y.number →
        (Binary64.widen x.narrow).number ≤ (Binary64.widen y.narrow).number := by
  obtain ⟨start, p, q, r, hstart, hp, hcall, hr, hlength, c, hdata, hposition, more, hrest⟩ :=
    exists_ahead hcapacity (w := .float32 x) rfl before after
  rw [← Bits.ofBytes_eq_byByte] at hrest hlength
  obtain ⟨d, htakes, -⟩ := Cursor.Takes.of_rest hrest
  have hread : c.float32? = some (.widen x.narrow, d) :=
    Decode.float32?_eq_some_iff.mpr ⟨_, length_littleEndian _ _,
      (Write.ofSingleBytes_littleEndian _).symm, htakes⟩
  refine ⟨start, p, q, r, hstart, hp, hcall, hr, ⟨c, d, hdata, hposition, ?_, ?_, ?_⟩,
    Binary64.isNarrowed_widen_narrow hx, fun _ => Binary64.number_widen_narrow_le hx⟩
  · rw [Cursor.read, hread]
    rfl
  · rw [htakes.position_eq, hposition, hlength]
  · rw [htakes.position_eq, Bits.length_ofBytes, length_littleEndian]

/-- Between three bits and one: half a step below two, where the carry goes into the exponent. -/
theorem read_float32_carry :
    (1 : Int) ≤ 1 ∧ Binary.isNaN (f := .double) ⟨0x3ffffffff0000000, by decide⟩ = false ∧
      ∃ start p q r, withCapacity? 1 = .ok start ∧ (run call start [.write (.bits 5 3)]).2 = p ∧
        p.call (.write (.float32 ⟨0x3ffffffff0000000, by decide⟩)) = (.accepted, q) ∧
        (run call q [.write (.bits 1 1)]).2 = r ∧
        (∃ c d : Cursor, c.data = r.toBytes ∧ c.position = p.length ∧
          c.read .float32 = .ok (some (.float ⟨0x4000000000000000, by decide⟩), d) ∧
          d.position = q.length ∧ d.position = c.position + 32) ∧
        Binary64.IsNarrowed ⟨0x3ffffffff0000000, by decide⟩ ⟨0x4000000000000000, by decide⟩ ∧
        ∀ y : Binary64, y.isNaN = false →
          Binary.number (f := .double) ⟨0x3ffffffff0000000, by decide⟩ ≤ y.number →
          Binary.number (f := .double) ⟨0x4000000000000000, by decide⟩ ≤
            (Binary64.widen y.narrow).number := by
  have hx : Binary.isNaN (f := .double) ⟨0x3ffffffff0000000, by decide⟩ = false := by decide
  have htwo : Binary64.widen (Binary64.narrow ⟨0x3ffffffff0000000, by decide⟩) =
      ⟨0x4000000000000000, by decide⟩ := by decide +kernel
  refine ⟨Int.le_refl 1, hx, ?_⟩
  rw [← htwo]
  exact read_float32 (Int.le_refl 1) hx _ _

end Packer

end WireSchema
