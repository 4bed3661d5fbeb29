import WireSchema.Proofs.Codec.Places
import WireSchema.Proofs.Framing
import WireSchema.Proofs.Number.Value

/-!
# Float fields

**A float field takes an integer of any size, as the nearest double**
(`Schema.reads_nearest_float`). What is read is the double nearest to the integer, a tie going to
the even significand, or the infinity of its sign if it is half a step above the largest double, or
farther. So an integer of 53 bits comes back unchanged, and a larger one no smaller; a
single-precision field keeps of an integer what it keeps of that double.

Of one field this is said for any schema and any fields before it: the bits that are written there
are read so, wherever they lie. Of a message it is said for every place to which the encoder comes
with an integer for a float field, if what is encoded can be taken apart again (`Schema.Framing`).
-/

namespace WireSchema

namespace Binary64

/-- `x` is what an integer is converted to. -/
structure IsConverted (i : Int) (x : Binary64) : Prop where
  nearest : |(i : ℚ)| < 2 ^ 1024 - 2 ^ 970 → x.IsNearest i
  overflow : 2 ^ 1024 - 2 ^ 970 ≤ |(i : ℚ)| → x = infinity (decide (i < 0))
  exact : |i| ≤ 2 ^ 53 → x.isFinite = true ∧ x.value = i

theorem negative_ofInt (i : Int) : (ofInt i).negative = decide (i < 0) :=
  Binary.negative_ofMagnitude (by decide) ((Nat.min_le_right _ _).trans_lt infinity_lt_signBit)

/-- An integer is too large for a double from halfway between the largest finite one and `2 ^ 1024`
on. -/
theorem isInfinite_ofInt_iff (i : Int) :
    (ofInt i).isInfinite = true ↔ 2 ^ 1024 - 2 ^ 970 ≤ |(i : ℚ)| := by
  rw [(ofInt_rounds i).isInfinite_iff (by decide) (by decide), limit_double]

/-- An integer of 53 bits is a double. -/
theorem value_ofInt {i : Int} (h : |i| ≤ 2 ^ 53) :
    (ofInt i).isFinite = true ∧ (ofInt i).value = i := by
  have hle : i.natAbs ≤ 2 * Format.double.binade := by
    have hbinade : 2 * Format.double.binade = 2 ^ 53 := rfl
    rw [Int.abs_eq_natAbs] at h
    omega
  obtain ⟨m, hm, hunits⟩ := Format.exists_units_eq (f := .double) (by decide) hle
    Format.double.scale
  have hlt : m < Format.double.infinity := hm.trans_lt (by decide)
  have hself := Format.Rounds.of_units hlt.le
  rw [hunits, Nat.cast_mul, Nat.cast_pow, Nat.cast_ofNat, Nat.cast_natAbs, Int.cast_abs] at hself
  have hmagnitude := (ofInt_rounds i).magnitude.unique hself
  have habs : |(ofInt i).value| = |(i : ℚ)| := by
    rw [Binary.abs_value, Binary.units, hmagnitude, hunits, Nat.cast_mul, Nat.cast_pow,
      Nat.cast_ofNat, mul_div_cancel_right₀ _ (by positivity), Nat.cast_natAbs, Int.cast_abs]
  refine ⟨decide_eq_true (hmagnitude ▸ hlt), ?_⟩
  cases hn : (ofInt i).negative with
  | false => rw [Binary.value_of_not_negative hn, habs, abs_of_nonneg ((ofInt_rounds i).nonneg hn)]
  | true =>
      rw [Binary.value_of_negative hn, habs, abs_of_nonpos ((ofInt_rounds i).nonpos hn), neg_neg]

theorem isConverted_ofInt (i : Int) : IsConverted i (ofInt i) where
  nearest h := by
    refine (ofInt_rounds i).isNearest (by decide) ?_
    refine (Binary.isFinite_or_isInfinite (ofInt_rounds i).isNaN).resolve_right ?_
    rw [isInfinite_ofInt_iff]
    exact not_le.mpr h
  overflow h := by
    have hinfinite := (isInfinite_ofInt_iff i).mpr h
    rw [Binary.eq_ofMagnitude_of_isInfinite (by decide) infinity_lt_signBit hinfinite,
      negative_ofInt, infinity]
  exact := value_ofInt

/-- Making a double of an integer is monotone. -/
theorem number_ofInt_le {i j : Int} (h : i ≤ j) : (ofInt i).number ≤ (ofInt j).number := by
  refine (Binary.number_le_number_iff (by decide) (ofInt_rounds i).isNaN
    (ofInt_rounds j).isNaN).mpr ((ofInt_rounds i).value_le (ofInt_rounds j) ?_)
  exact_mod_cast h

end Binary64

/-- What a float field keeps of a double. -/
def FloatWidth.kept : FloatWidth → Binary64 → Binary64
  | .f32, x => .widen x.narrow
  | .f64, x => x

section

variable {schema : Schema}

theorem Rereads.kept {written : Fields} {width : FloatWidth} {default? : Option Binary64}
    {v w : Value} {x : Binary64} (h : Rereads schema written (.float width default?) v w)
    (number : Encode.float? v = some x) : w = .float (width.kept x) := by
  cases h with
  | single number' | double number' =>
      cases number.symm.trans number'
      rfl

/-- What is written for a number is the same for the double that it is converted to, and is read as
what the field keeps of it. -/
theorem Encode.exists_float {strict : Bool} {struct : Text → Path → Value → Encoding}
    {written : Fields} (width : FloatWidth) (default? : Option Binary64) {path : Path} {v : Value}
    {x : Binary64} (number : Encode.float? v = some x) :
    ∃ w bs, ofType schema strict struct written (.float width default?) path v =
        .done (.ofWrite w) ∧
      ofType schema strict struct written (.float width default?) path (.float x) =
        .done (.ofWrite w) ∧
      w.toBits = .ok bs ∧
      ∀ (struct' : Text → Path → Cursor → Decoding) (read : Fields) (path' : Path)
        (c c' : Cursor), c.Takes bs c' →
        Decode.ofType schema struct' read (.float width default?) path' c =
          .done (.float (width.kept x)) c' := by
  cases width with
  | f32 =>
      refine ⟨.float32 x, _, by simp only [ofType, number], rfl, rfl, fun _ _ _ c c' htakes => ?_⟩
      rw [Decode.ofType, Decode.float32?_eq_some_iff.mpr ⟨_, length_littleEndian _ _,
        (Write.ofSingleBytes_littleEndian _).symm, htakes⟩]
      rfl
  | f64 =>
      refine ⟨.float64 x, _, by simp only [ofType, number], rfl, rfl, fun _ _ _ c c' htakes => ?_⟩
      rw [Decode.ofType, Decode.float64?_eq_some_iff.mpr ⟨_, length_littleEndian _ _,
        (Write.ofDoubleBytes_littleEndian _).symm, htakes⟩]
      rfl

end

namespace Schema

/-- **A float field takes an integer of any size, as the nearest double.** -/
theorem reads_nearest_float (schema : Schema) (i : Int) :
    Binary64.IsConverted i (.ofInt i) ∧
    (∀ j, i ≤ j → (Binary64.ofInt i).number ≤ (Binary64.ofInt j).number) ∧
    (∀ strict struct written width default? path, ∃ w bs,
      Encode.ofType schema strict struct written (.float width default?) path (.int i) =
        .done (.ofWrite w) ∧
      Encode.ofType schema strict struct written (.float width default?) path
        (.float (.ofInt i)) = .done (.ofWrite w) ∧
      w.toBits = .ok bs ∧
      ∀ struct' read path' (c c' : Cursor), c.Takes bs c' →
        Decode.ofType schema struct' read (.float width default?) path' c =
          .done (.float (width.kept (.ofInt i))) c') ∧
    ∀ root v options bytes, schema.inconsistencies = [] →
      (schema.encode v root options).outcome = .ok bytes →
      Encode.KeepsCounts schema (.start root v) → Encode.ZeroFree schema (.start root v) →
      ∃ w, schema.decode bytes root = ⟨[], .ok (some w)⟩ ∧
        ∀ n earlier written width default? path,
          Encode.Reaches schema n (.start root v)
            (.value earlier written (.float width default?) path (.int i)) →
          w.at? path.steps = some (.float (width.kept (.ofInt i))) := by
  refine ⟨Binary64.isConverted_ofInt i, fun _ => Binary64.number_ofInt_le,
    fun _ _ _ width default? _ => Encode.exists_float width default? rfl, ?_⟩
  intro root v options bytes hschema hencode hcounts htexts
  have hc := Consistent.of_inconsistencies hschema
  obtain ⟨bs, notices, hw, -, -, hbytes⟩ := writes_of_encode hencode
  obtain ⟨w, c, -, -, hdecode, hrereads⟩ := decode_of_framed hc hw hbytes ⟨hcounts, htexts⟩
  refine ⟨w, hdecode, fun n earlier written width default? path walk => ?_⟩
  obtain ⟨x, hat, hx⟩ := hrereads.exists_at? hc walk
  rw [hat, hx.kept rfl]

/-- Doubles behind their count. -/
def gauge : Schema where
  structs :=
    [⟨"Gauge",
      [("count", .int false byte none),
        ("levels", .array (.float .f64 none) (.dynamic "count"))]⟩]
  enums := []
  names_nodup := by decide

theorem gauge_inconsistencies : gauge.inconsistencies = [] := by decide +kernel

/-- An integer half-way between two doubles, and one below all of them. -/
def gaugeValue : Value :=
  .map [("count", .int 2), ("levels", .list [.int (2 ^ 53 + 1), .int (-10 ^ 400)])]

theorem writes_gaugeValue (gaps : Bool) :
    ∃ bs, Writes gauge gaps [] (.struct "Gauge") gaugeValue bs :=
  ⟨_, .struct rfl (fun _ => by decide) (.cons (.given rfl) .int (.cons (.given rfl)
    (.array rfl (fun _ => rfl) (.cons (.given rfl) (.double rfl) (.cons (.given rfl) (.double rfl)
      .nil))) .nil))⟩

/-- The count of the levels is the one that is read. -/
theorem gauge_keepsCounts : Encode.KeepsCounts gauge (.start "Gauge" gaugeValue) := by
  have hc := Consistent.of_inconsistencies gauge_inconsistencies
  obtain ⟨bs, hw⟩ := writes_gaugeValue true
  have hspells : ∃ ds raws, Spells gauge [] (.struct "Gauge")
      (.map [("count", .int 2), ("levels", .list [.float (.ofInt (2 ^ 53 + 1)),
        .float (.ofInt (-10 ^ 400))])]) ds raws :=
    ⟨_, _, .struct rfl (.cons (.int (Bits.length_ofInt 8 2)) (.cons (.array rfl
      (.cons (.doubleFloat _ _) (.cons (.doubleFloat _ _) .nil))) .nil))⟩
  obtain ⟨ds, raws, hs⟩ := hspells
  exact Encode.keepsCounts_of_reread hc ⟨[], _, _, _, hw.sound_struct, .nil, hs,
    .struct rfl (.cons (.given rfl) .int (.cons (.given rfl) (.array rfl (.cons (.given rfl)
      (.double rfl) (.cons (.given rfl) (.double rfl) .nil))) .nil))⟩

/-- The integer half-way between two doubles is read as the even one. -/
theorem gauge_reads_nearest_float :
    gauge.inconsistencies = [] ∧ Encode.KeepsCounts gauge (.start "Gauge" gaugeValue) ∧
      Encode.ZeroFree gauge (.start "Gauge" gaugeValue) ∧
      ∃ bytes w, (gauge.encode gaugeValue "Gauge").outcome = .ok bytes ∧
        gauge.decode bytes "Gauge" = ⟨[], .ok (some w)⟩ ∧
        w.at? [.field "levels", .index 0] = some (.float ⟨0x4340000000000000, by decide⟩) := by
  have htexts : Encode.ZeroFree gauge (.start "Gauge" gaugeValue) :=
    Encode.zeroFree_of_texts (by decide) (by decide) (by decide)
  obtain ⟨bs, hw⟩ := writes_gaugeValue false
  obtain ⟨bytes, hencode, -⟩ := encode_of_writes hw
  have hbytes : (gauge.encode gaugeValue "Gauge").outcome = .ok bytes := by rw [hencode]
  have hfloat : Binary64.ofInt (2 ^ 53 + 1) = ⟨0x4340000000000000, by decide⟩ := by decide +kernel
  obtain ⟨w, hdecode, hplaces⟩ := (reads_nearest_float gauge (2 ^ 53 + 1)).2.2.2 "Gauge" gaugeValue
    {} bytes gauge_inconsistencies hbytes gauge_keepsCounts htexts
  refine ⟨gauge_inconsistencies, gauge_keepsCounts, htexts, bytes, w, hbytes, hdecode, ?_⟩
  rw [← hfloat]
  exact hplaces _ _ _ .f64 none _ (.opening (.struct rfl) (.on (.nextField (.given rfl) .int)
    (.on (.field (.given rfl)) (.on (.array rfl) (.on (.element (.given rfl)) .here)))))

end Schema

end WireSchema
