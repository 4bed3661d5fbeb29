import WireSchema.Json.Printer
import WireSchema.Json.Reader
import WireSchema.Proofs.Number.Shortest
import WireSchema.Proofs.Text.Plain

/-!
# JSON — Numbers that read back

An integer is read as it was (`scalar_int`), and so is a double (`scalar_float`), but for the
payload and the sign of what is no number.

What the reader takes for a number depends on what follows: it goes on while it can. So every
statement is about a number with a text behind it that stops it (`Stops`). A double is laid out in
one of four ways, with zeros put before its digits, behind them or not at all, and a point among
them or an exponent behind them (`number_place`); in three of them the digits and the exponent that
are read are those that were written, and in the other, which fills up with zeros to the point, the
number is the same.
-/

namespace WireSchema

/-! ### Digits -/

namespace Decimal

theorem ofDigits_eq (cs : List Char) : ofDigits cs = Nat.ofDigitChars 10 cs 0 :=
  Nat.ofDigitChars_eq_foldl.symm

/-- The digits of a number spell it. -/
theorem ofDigits_toDigits (n : Nat) : ofDigits (Nat.toDigits 10 n) = n := by
  rw [ofDigits_eq, Nat.ofDigitChars_ten_toDigits]

theorem ofDigits_zeros_append (k : Nat) (cs : List Char) :
    ofDigits (List.replicate k '0' ++ cs) = ofDigits cs := by
  rw [ofDigits_eq, ofDigits_eq, Nat.ofDigitChars_append, Nat.ofDigitChars_replicate_zero,
    Nat.mul_zero]

theorem ofDigits_append_zeros (cs : List Char) (k : Nat) :
    ofDigits (cs ++ List.replicate k '0') = ofDigits cs * 10 ^ k := by
  rw [ofDigits_eq, ofDigits_eq, Nat.ofDigitChars_append, Nat.ofDigitChars_replicate_zero,
    Nat.mul_comm]

/-- The digits of a number do not begin with a zero. -/
theorem head?_toDigits {n : Nat} (h : n ≠ 0) : (Nat.toDigits 10 n).head? ≠ some '0' := by
  have hdigit : ∀ d < 10, d ≠ 0 → some d.digitChar ≠ some '0' := by decide
  induction n using Nat.strongRecOn with
  | ind n ih =>
      by_cases hn : n < 10
      · rw [Nat.toDigits_of_lt_base hn, List.head?_cons]
        exact hdigit n hn h
      · have hrest := ih (n / 10) (by omega) (by omega)
        obtain ⟨c, cs, hcs⟩ :=
          List.exists_cons_of_ne_nil (Nat.toDigits_ne_nil (b := 10) (n := n / 10))
        rw [hcs] at hrest
        rw [Nat.toDigits_of_base_le (by decide) (Nat.not_lt.mp hn), hcs]
        exact hrest

end Decimal

namespace Json

def Digits (cs : List Char) : Prop := ∀ c ∈ cs, isDigit c = true

/-- A text that does not begin with a digit. -/
def NoDigit (cs : List Char) : Prop := ∀ c ∈ cs.head?, isDigit c = false

/-- A text that nothing of a number continues in. -/
structure Stops (cs : List Char) : Prop where
  noDigit : NoDigit cs
  noMark : ∀ c ∈ cs.head?, c ≠ '.' ∧ c ≠ 'e' ∧ c ≠ 'E'

/-- The whole part of a number: a zero alone, or digits that do not begin with one. -/
structure Whole (cs : List Char) : Prop where
  digits : Digits cs
  ne_nil : cs ≠ []
  zero : cs.head? = some '0' → cs = ['0']

theorem digits_toDigits (n : Nat) : Digits (Nat.toDigits 10 n) :=
  fun _ h => Nat.isDigit_of_mem_toDigits (by decide) (by decide) h

theorem digits_zeros (k : Nat) : Digits (List.replicate k '0') := by
  intro c hc
  rw [List.eq_of_mem_replicate hc]
  rfl

/-- Digits behind digits are digits. -/
theorem Digits.append {cs ds : List Char} (hc : Digits cs) (hd : Digits ds) : Digits (cs ++ ds) :=
  fun c h => (List.mem_append.mp h).elim (hc c) (hd c)

/-- The reader takes all digits, and nothing of what follows them. -/
theorem Digits.span {ds cs : List Char} (hd : Digits ds) (hc : NoDigit cs) :
    (ds ++ cs).takeWhile isDigit = ds ∧ (ds ++ cs).dropWhile isDigit = cs := by
  rw [List.takeWhile_append_of_pos hd, List.dropWhile_append_of_pos hd]
  cases cs with
  | nil => exact ⟨List.append_nil _, rfl⟩
  | cons c cs =>
      have hc := hc c rfl
      rw [List.takeWhile_cons_of_neg (by rw [hc]; decide),
        List.dropWhile_cons_of_neg (by rw [hc]; decide)]
      exact ⟨List.append_nil _, rfl⟩

theorem whole_zero : Whole ['0'] where
  digits := digits_zeros 1
  ne_nil := List.cons_ne_nil _ _
  zero _ := rfl

/-- A numeral has no zero in front, unless it is zero. -/
theorem whole_toDigits (n : Nat) : Whole (Nat.toDigits 10 n) where
  digits := digits_toDigits n
  ne_nil := Nat.toDigits_ne_nil
  zero h := by
    by_cases hn : n = 0
    · rw [hn, Nat.toDigits_zero]
    · exact absurd h (Decimal.head?_toDigits hn)

/-! ### The parts of a number -/

/-- A whole part is read up to where the digits end. -/
theorem whole?_append {ws cs : List Char} (hw : Whole ws) (hc : NoDigit cs) :
    whole? (ws ++ cs) = some (ws, cs) := by
  obtain ⟨hd, hne, hz⟩ := hw
  by_cases h : ws.head? = some '0'
  · rw [hz h]
    rfl
  · obtain ⟨c, ds, rfl⟩ := List.exists_cons_of_ne_nil hne
    have h₀ : c ≠ '0' := fun hc => h (congrArg some hc)
    obtain ⟨htake, hdrop⟩ := hd.span hc
    rw [List.cons_append] at htake hdrop ⊢
    rw [whole?.eq_2 _ (fun _ he => h₀ (List.cons.inj he).1), htake, hdrop]

theorem fraction_of_stops {cs : List Char} (h : Stops cs) : fraction cs = ([], cs) := by
  rw [fraction.eq_2]
  rintro ds rfl
  exact (h.noMark '.' rfl).1 rfl

/-- A fraction is read up to where the digits end. -/
theorem fraction_point {fs cs : List Char} (hf : Digits fs) (hne : fs ≠ []) (hc : NoDigit cs) :
    fraction ('.' :: (fs ++ cs)) = (fs, cs) := by
  obtain ⟨htake, hdrop⟩ := hf.span hc
  obtain ⟨c, ds, rfl⟩ := List.exists_cons_of_ne_nil hne
  rw [fraction, htake, hdrop]

theorem exponent?_of_stops {cs : List Char} (h : Stops cs) : exponent? cs = none := by
  cases cs with
  | nil => rfl
  | cons c cs =>
      obtain ⟨-, he, hE⟩ := h.noMark c rfl
      simp only [exponent?]
      rw [if_neg (not_or.mpr ⟨he, hE⟩)]

/-- An exponent with a sign. -/
theorem exponent?_mark {ps cs : List Char} (negative : Bool) (hp : Digits ps) (hne : ps ≠ [])
    (hc : NoDigit cs) :
    exponent? ('e' :: (if negative then '-' else '+') :: (ps ++ cs)) =
      some (if negative then -(Decimal.ofDigits ps : Int) else Decimal.ofDigits ps, cs) := by
  obtain ⟨htake, hdrop⟩ := hp.span hc
  obtain ⟨c, ds, rfl⟩ := List.exists_cons_of_ne_nil hne
  rw [List.cons_append] at htake hdrop ⊢
  cases negative <;> simp [exponent?, htake, hdrop]

/-! ### Numbers -/

section

variable {rules : Rules} (negative : Bool) (opening : List Char) {ws fs ps cs : List Char}

/-- A number without fraction and exponent is an integer. -/
theorem number_int (hw : Whole ws) (hc : Stops cs)
    (hr : rules.refusal? false ws.length = none) :
    number rules negative opening (ws ++ cs) =
      .ok (.int (if negative then -(Decimal.ofDigits ws : Int) else Decimal.ofDigits ws), cs) := by
  simp [number, whole?_append hw hc.noDigit, fraction_of_stops hc, exponent?_of_stops hc, hr]

/-- A number with a fraction and no exponent. -/
theorem number_point (hw : Whole ws) (hf : Digits fs) (hne : fs ≠ []) (hc : Stops cs)
    (hr : rules.refusal? true ws.length = none) :
    number rules negative opening (ws ++ '.' :: (fs ++ cs)) =
      .ok (.float (Decimal.toBinary64 negative
        ⟨Decimal.ofDigits (ws ++ fs), -(fs.length : Int)⟩), cs) := by
  have hpoint : NoDigit ('.' :: (fs ++ cs)) := by
    rintro c ⟨⟩
    rfl
  have hfs : fs.isEmpty = false := List.isEmpty_eq_false_iff.mpr hne
  simp [number, whole?_append hw hpoint, fraction_point hf hne hc.noDigit,
    exponent?_of_stops hc, hr, hfs]

/-- A number with an exponent, perhaps behind a fraction. -/
theorem number_exponent {tail : List Char} {n : Bool} (hw : Whole ws) (ht : NoDigit tail)
    (hf : fraction tail = (fs, 'e' :: (if n then '-' else '+') :: (ps ++ cs)))
    (hp : Digits ps) (hne : ps ≠ []) (hc : NoDigit cs)
    (hr : rules.refusal? true ws.length = none) :
    number rules negative opening (ws ++ tail) =
      .ok (.float (Decimal.toBinary64 negative
        ⟨Decimal.ofDigits (ws ++ fs),
          (if n then -(Decimal.ofDigits ps : Int) else Decimal.ofDigits ps) - fs.length⟩), cs) := by
  simp [number, whole?_append hw ht, hf, exponent?_mark n hp hne hc, hr]

/-! ### The layouts of a double -/

variable {n : Nat} {e : Int}

/-- Zeros between the point and the digits. -/
theorem number_place_below {k : Nat} (hk : e + (Nat.toDigits 10 n).length = -(k : Int))
    (hc : Stops cs) (hr : rules.refusal? true 1 = none) :
    number rules negative opening
        (['0'] ++ '.' :: (List.replicate k '0' ++ Nat.toDigits 10 n ++ cs)) =
      .ok (.float (Decimal.toBinary64 negative ⟨n, e⟩), cs) := by
  have hread : Decimal.ofDigits (['0'] ++ (List.replicate k '0' ++ Nat.toDigits 10 n)) = n := by
    rw [show ['0'] = List.replicate 1 '0' from rfl, Decimal.ofDigits_zeros_append,
      Decimal.ofDigits_zeros_append, Decimal.ofDigits_toDigits]
  have hexp : -((List.replicate k '0' ++ Nat.toDigits 10 n).length : Int) = e := by
    rw [List.length_append, List.length_replicate]
    omega
  rw [number_point _ _ whole_zero ((digits_zeros k).append (digits_toDigits n))
    (List.append_ne_nil_of_right_ne_nil _ Nat.toDigits_ne_nil) hc hr, hread, hexp]

/-- Zeros between the digits and the point. -/
theorem number_place_above {k : Nat} (hn : n = 0 → k = 0) (hc : Stops cs)
    (hr : rules.refusal? true (Nat.toDigits 10 n ++ List.replicate k '0').length = none) :
    number rules negative opening
        (Nat.toDigits 10 n ++ List.replicate k '0' ++ '.' :: (['0'] ++ cs)) =
      .ok (.float (Decimal.toBinary64 negative ⟨n, k⟩), cs) := by
  have hwhole : Whole (Nat.toDigits 10 n ++ List.replicate k '0') := by
    by_cases h₀ : n = 0
    · rw [hn h₀, List.replicate_zero, List.append_nil]
      exact whole_toDigits n
    · have hd := (digits_toDigits n).append (digits_zeros k)
      have hhead := Decimal.head?_toDigits h₀
      obtain ⟨c, ds, hds⟩ := List.exists_cons_of_ne_nil (Nat.toDigits_ne_nil (b := 10) (n := n))
      rw [hds] at hd hhead ⊢
      exact ⟨hd, List.cons_ne_nil _ _, fun h => absurd h hhead⟩
  have hread : Decimal.ofDigits (Nat.toDigits 10 n ++ List.replicate k '0' ++ ['0']) =
      n * 10 ^ (k + 1) := by
    rw [List.append_assoc, ← List.replicate_succ', Decimal.ofDigits_append_zeros,
      Decimal.ofDigits_toDigits]
  have hexp : -((['0'].length : Nat) : Int) = (k : Int) - ((k + 1 : Nat) : Int) := by
    rw [List.length_singleton]
    omega
  have hzero : Digits ['0'] := digits_zeros 1
  rw [number_point _ _ hwhole hzero (List.cons_ne_nil _ _) hc hr, hread, hexp,
    Decimal.toBinary64_scale]

/-- The point among the digits. -/
theorem number_place_within {k : Nat} (hk : 0 < k) (hlt : k < (Nat.toDigits 10 n).length)
    (he : e + (Nat.toDigits 10 n).length = k) (hc : Stops cs)
    (hr : rules.refusal? true ((Nat.toDigits 10 n).take k).length = none) :
    number rules negative opening
        ((Nat.toDigits 10 n).take k ++ '.' :: ((Nat.toDigits 10 n).drop k ++ cs)) =
      .ok (.float (Decimal.toBinary64 negative ⟨n, e⟩), cs) := by
  have hd := digits_toDigits n
  have hne : (Nat.toDigits 10 n).drop k ≠ [] := by
    rw [Ne, List.drop_eq_nil_iff]
    omega
  have hwhole : Whole ((Nat.toDigits 10 n).take k) := by
    refine ⟨fun c h => hd c (List.mem_of_mem_take h), ?_, ?_⟩
    · rw [Ne, List.take_eq_nil_iff]
      exact not_or.mpr ⟨hk.ne', Nat.toDigits_ne_nil⟩
    · rw [List.head?_take, if_neg hk.ne']
      intro h
      rw [(whole_toDigits n).zero h, List.length_singleton] at hlt
      omega
  have hexp : -(((Nat.toDigits 10 n).drop k).length : Int) = e := by
    rw [List.length_drop]
    omega
  rw [number_point _ _ hwhole (fun c h => hd c (List.mem_of_mem_drop h)) hne hc hr, hexp,
    List.take_append_drop, Decimal.ofDigits_toDigits]

/-- An exponent behind the digits, of which the first stands before the point. -/
theorem number_place_exponent {p : Int} {k : Nat}
    (hp : e + (Nat.toDigits 10 n).length = p + 1) (hc : Stops cs)
    (hr : rules.refusal? true 1 = none) :
    number rules negative opening ((Nat.toDigits 10 n).take 1 ++
        ((if (Nat.toDigits 10 n).length ≤ 1 then [] else '.' :: (Nat.toDigits 10 n).drop 1) ++
        'e' :: (if p < 0 then '-' else '+') ::
          (List.replicate k '0' ++ Nat.toDigits 10 p.natAbs ++ cs))) =
      .ok (.float (Decimal.toBinary64 negative ⟨n, e⟩), cs) := by
  have hd := digits_toDigits n
  have hn := Decimal.ofDigits_toDigits n
  obtain ⟨c, ds, hds⟩ := List.exists_cons_of_ne_nil (Nat.toDigits_ne_nil (b := 10) (n := n))
  have hwhole : Whole [c] := by
    refine ⟨fun b hb => hd b ?_, List.cons_ne_nil _ _, fun h => ?_⟩
    · rw [hds, List.mem_singleton.mp hb]
      exact List.mem_cons_self
    · rw [Option.some.inj h]
  have hread : Decimal.ofDigits (List.replicate k '0' ++ Nat.toDigits 10 p.natAbs) = p.natAbs := by
    rw [Decimal.ofDigits_zeros_append, Decimal.ofDigits_toDigits]
  have hexp : (if decide (p < 0) then -(p.natAbs : Int) else p.natAbs) - ds.length = e := by
    rw [hds, List.length_cons] at hp
    simp only [decide_eq_true_eq]
    split <;> omega
  rw [hds] at hd hn ⊢
  generalize htext : List.replicate k '0' ++ Nat.toDigits 10 p.natAbs = ps at hread ⊢
  have hps : Digits ps := htext ▸ (digits_zeros k).append (digits_toDigits _)
  have hne : ps ≠ [] := htext ▸ List.append_ne_nil_of_right_ne_nil _ Nat.toDigits_ne_nil
  have hsign : (if p < 0 then '-' else '+') = if decide (p < 0) then '-' else '+' := by
    simp only [decide_eq_true_eq]
  have hmark : NoDigit ('e' :: (if p < 0 then '-' else '+') :: (ps ++ cs)) := by
    rintro b ⟨⟩
    rfl
  -- a single digit has no point behind it
  have hfraction : NoDigit ((if ds.length + 1 ≤ 1 then [] else '.' :: ds) ++
        'e' :: (if p < 0 then '-' else '+') :: (ps ++ cs)) ∧
      fraction ((if ds.length + 1 ≤ 1 then [] else '.' :: ds) ++
        'e' :: (if p < 0 then '-' else '+') :: (ps ++ cs)) =
      (ds, 'e' :: (if p < 0 then '-' else '+') :: (ps ++ cs)) := by
    cases ds with
    | nil => exact ⟨hmark, rfl⟩
    | cons b bs =>
        rw [List.length_cons, if_neg (by omega)]
        refine ⟨?_, fraction_point (fun a ha => hd a (List.mem_cons_of_mem _ ha))
          (List.cons_ne_nil _ _) hmark⟩
        rintro b ⟨⟩
        rfl
  rw [hsign] at hfraction ⊢
  have hnumber := number_exponent negative opening hwhole
    hfraction.1 hfraction.2 hps hne hc.noDigit hr
  rw [hread, hexp, show [c] ++ ds = c :: ds from rfl, hn] at hnumber
  exact hnumber

/-- A finite double, in whatever layout, is read as it was. -/
theorem number_place {d : Decimal} (hz : d.digits = 0 → d.exponent = 0) (hc : Stops cs)
    (hr : ∀ count ≤ 16, rules.refusal? true count = none) :
    number rules negative opening
        (FloatStyle.place (Nat.toDigits 10 d.digits)
          (d.exponent + (Nat.toDigits 10 d.digits).length) ++ cs) =
      .ok (.float (d.toBinary64 negative), cs) := by
  obtain ⟨n, e⟩ := d
  dsimp only at hz ⊢
  obtain ⟨p, hp⟩ : ∃ p : Int, e + (Nat.toDigits 10 n).length = p := ⟨_, rfl⟩
  have hpos : 0 < (Nat.toDigits 10 n).length := Nat.length_toDigits_pos
  rw [hp, FloatStyle.place]
  by_cases hpoint : -4 < p ∧ p ≤ 16
  · rw [if_pos hpoint]
    by_cases hle : p ≤ 0
    · have hk : e + (Nat.toDigits 10 n).length = -((-p).toNat : Int) := by omega
      rw [if_pos hle]
      simpa using number_place_below negative opening hk hc
        (hr 1 (by decide))
    · rw [if_neg hle]
      by_cases hfill : (Nat.toDigits 10 n).length ≤ p.toNat
      · -- All digits stand before the point.
        have he : e = (p.toNat - (Nat.toDigits 10 n).length : Nat) := by omega
        have hcount : (Nat.toDigits 10 n ++ List.replicate
            (p.toNat - (Nat.toDigits 10 n).length) '0').length ≤ 16 := by
          rw [List.length_append, List.length_replicate]
          omega
        have hn : n = 0 → p.toNat - (Nat.toDigits 10 n).length = 0 := by
          intro h
          have := hz h
          omega
        dsimp only
        rw [if_pos hfill, he]
        simpa using number_place_above negative opening hn hc
          (hr _ hcount)
      · have hlt : p.toNat < (Nat.toDigits 10 n).length := Nat.not_le.mp hfill
        have hcount : ((Nat.toDigits 10 n).take p.toNat).length ≤ 16 := by
          rw [List.length_take]
          omega
        dsimp only
        rw [if_neg hfill]
        simpa using number_place_within negative opening
          (by omega) hlt (by omega) hc (hr _ hcount)
  · rw [if_neg hpoint]
    have hexp : e + (Nat.toDigits 10 n).length = p - 1 + 1 := by omega
    simpa using number_place_exponent negative opening hexp hc (hr 1 (by decide))

/-! ### Scalars -/

/-- What is read as a number begins with a digit. -/
theorem exists_digit_of_number {r : Value × List Char}
    (h : number rules negative opening cs = .ok r) : ∃ c ds, cs = c :: ds ∧ isDigit c = true := by
  cases cs with
  | nil => cases h
  | cons c ds =>
      refine ⟨c, ds, rfl, ?_⟩
      by_contra hc
      have h₀ : c ≠ '0' := by
        rintro rfl
        exact hc rfl
      have hw : whole? (c :: ds) = none := by
        rw [whole?.eq_2 _ (fun _ he => h₀ (List.cons.inj he).1), List.takeWhile_cons_of_neg hc]
      rw [number, hw] at h
      cases h

/-- A number with its sign, if it has one. -/
theorem scalar_of_number {r : Value × List Char}
    (h : ∀ opening, number rules negative opening cs = .ok r) :
    scalar rules ((if negative then ['-'] else []) ++ cs) = .ok r := by
  obtain ⟨c, ds, rfl, hc⟩ := exists_digit_of_number negative [] (h [])
  cases negative with
  | false =>
      refine (scalar.eq_8 rules (c :: ds) ?_ ?_ ?_ ?_ ?_ ?_ ?_).trans (h _)
      all_goals
        rintro _ ⟨⟩
        cases hc
  | true =>
      refine (scalar.eq_7 rules (c :: ds) ?_).trans (h _)
      rintro _ ⟨⟩
      cases hc

/-- The characters of the text of a value. -/
def chars (v : Value) : List Char := (render v).chars

theorem chars_int (i : Int) :
    chars (.int i) = (if decide (i < 0) then ['-'] else []) ++ Nat.toDigits 10 i.natAbs := by
  rw [chars, render, Text.chars_ofString, show toString i = i.repr from rfl, Int.repr_eq_if,
    Nat.repr_eq_ofList_toDigits, Nat.repr_eq_ofList_toDigits]
  by_cases hi : 0 ≤ i
  · rw [if_pos hi, decide_eq_false (by omega), String.toList_ofList, if_neg Bool.false_ne_true,
      List.nil_append, show i.toNat = i.natAbs by omega]
  · rw [if_neg hi, decide_eq_true (by omega), String.toList_append, String.toList_ofList,
      String.toList_ofList, if_pos rfl, show (-i).toNat = i.natAbs by omega]

/-- An integer is read back from its numeral, if the rules take so many digits. -/
theorem scalar_int (i : Int) (hc : Stops cs)
    (hr : rules.refusal? false (Decimal.length i.natAbs) = none) :
    scalar rules (chars (.int i) ++ cs) = .ok (.int i, cs) := by
  have hread : (if decide (i < 0) then -(Decimal.ofDigits (Nat.toDigits 10 i.natAbs) : Int)
      else Decimal.ofDigits (Nat.toDigits 10 i.natAbs)) = i := by
    rw [Decimal.ofDigits_toDigits]
    simp only [decide_eq_true_eq]
    split <;> omega
  rw [chars_int, List.append_assoc]
  refine scalar_of_number _ fun opening => ?_
  rw [number_int _ _ (whole_toDigits _) hc hr, hread]

theorem strip?_append (w : String) (cs : List Char) : strip? w (w.toList ++ cs) = some cs := by
  simp [strip?]

theorem word_append (v : Value) (w : String) (cs : List Char) :
    word v w (w.toList ++ cs) = .ok (v, cs) := by
  rw [word, strip?_append]

theorem scalar_null (cs : List Char) : scalar rules (chars .null ++ cs) = .ok (.null, cs) := by
  rw [chars, render, Text.chars_ofString]
  exact word_append .null "null" cs

theorem scalar_bool (b : Bool) (cs : List Char) :
    scalar rules (chars (.bool b) ++ cs) = .ok (.bool b, cs) := by
  cases b with
  | true =>
      rw [chars, render, Text.chars_ofString]
      exact word_append (.bool true) "true" cs
  | false =>
      rw [chars, render, Text.chars_ofString]
      exact word_append (.bool false) "false" cs

end

end Json

namespace Binary64

/-- A double as it comes out of a text, in which all that is no number is one word. -/
def quieted (x : Binary64) : Binary64 := if x.isNaN then Binary.quietNaN _ else x

theorem infinity_negative {x : Binary64} (h : x.isInfinite = true) : infinity x.negative = x := by
  have hm : x.magnitude = Format.double.infinity := of_decide_eq_true h
  rw [infinity, ← hm, Binary.ofMagnitude_magnitude (by decide)]

/-- What is neither no number nor infinite is finite. -/
theorem isFinite_of_not {x : Binary64} (hn : ¬x.isNaN = true) (hi : ¬x.isInfinite = true) :
    x.isFinite = true := by
  simp only [Binary.isNaN, Binary.isInfinite, Binary.isFinite, decide_eq_true_eq] at hn hi ⊢
  omega

end Binary64

namespace Json

/-- A float is read back from its text, up to the payload of one that is no number. -/
theorem scalar_float {rules : Rules} {cs : List Char} (x : Binary64) (hc : Stops cs)
    (hr : ∀ count ≤ 16, rules.refusal? true count = none) :
    scalar rules (chars (.float x) ++ cs) = .ok (.float x.quieted, cs) := by
  have hsign : (if x.negative then "-" else "").toList = if x.negative then ['-'] else [] := by
    cases x.negative <;> rfl
  rw [chars, render, Text.chars_ofString, FloatStyle.render, Binary64.quieted]
  by_cases hnan : x.isNaN = true
  · rw [if_pos hnan, if_pos hnan]
    exact word_append _ "NaN" cs
  · rw [if_neg hnan, if_neg hnan]
    by_cases hinf : x.isInfinite = true
    · have hx := Binary64.infinity_negative hinf
      rw [if_pos hinf, String.toList_append, hsign]
      cases hn : x.negative with
      | false =>
          rw [← hx, hn]
          exact word_append _ "Infinity" cs
      | true =>
          rw [← hx, hn]
          exact word_append _ "-Infinity" cs
    · have hfinite := Binary64.isFinite_of_not hnan hinf
      rw [if_neg hinf]
      dsimp only
      rw [String.toList_append, String.toList_ofList, hsign, List.append_assoc]
      refine scalar_of_number _ fun opening => ?_
      rw [number_place _ _ (Decimal.shortest_exponent hfinite) hc hr,
        Decimal.toBinary64_shortest hfinite]

end Json

end WireSchema
