import Mathlib.Data.List.Basic
import Mathlib.Data.List.Induction
import WireSchema.Proofs.Json.Reading
import WireSchema.Schema.Spelling

/-!
# JSON — What a text can say

With a bound on the digits of numbers and no surrogate that stands alone, all integers of a value
that is read from a text are short, and all its texts plain (`within_of_read`). The integers that a
text in a value spells are short (`short_of_integer`), whatever the bound of the reader. For a
number below `10 ^ k` has `k` digits at most (`length_ofDigits_le`).
-/

namespace WireSchema

/-! ### Integers -/

namespace Decimal

/-- A number is less than the power of ten that its digits are many. -/
theorem ofDigits_lt {cs : List Char} (h : Json.Digits cs) : ofDigits cs < 10 ^ cs.length := by
  induction cs using List.reverseRecOn with
  | nil => exact Nat.one_pos
  | append_singleton cs c ih =>
      have hc : c.toNat - 48 < 10 := by
        have hd := h c (List.mem_append_right _ List.mem_cons_self)
        simp only [Json.isDigit, Bool.and_eq_true, decide_eq_true_eq] at hd
        have hle : c.val.toNat ≤ 57 := UInt32.le_iff_toNat_le.mp hd.2
        show c.val.toNat - 48 < 10
        omega
      have hrest := ih fun d hd => h d (List.mem_append_left _ hd)
      rw [ofDigits, List.foldl_append, List.length_append, List.length_singleton, pow_succ]
      show 10 * ofDigits cs + (c.toNat - 48) < _
      omega

/-- A number has no more digits than it is spelled with. -/
theorem length_ofDigits_le {cs : List Char} (h : Json.Digits cs) (hne : cs ≠ []) :
    length (ofDigits cs) ≤ cs.length :=
  (length_le_iff (List.length_pos_iff.mpr hne)).mpr (ofDigits_lt h)

end Decimal

/-- The whole part of a number is digits, and at least one. -/
theorem Json.digits_of_whole? {cs ws left : List Char} (h : whole? cs = some (ws, left)) :
    Digits ws ∧ ws ≠ [] := by
  unfold whole? at h
  split at h
  · cases h
    exact ⟨digits_zeros 1, List.cons_ne_nil _ _⟩
  · have hall : Digits (cs.takeWhile isDigit) :=
      fun c hc => List.all_eq_true.mp List.all_takeWhile c hc
    split at h
    · cases h
    · next hne =>
        cases h
        exact ⟨hall, hne⟩

namespace Numeral

/-- All that 64 bits hold is short. -/
theorem short_of_le {i : Int} (h : i.natAbs ≤ 2 ^ 64) : Short i := by
  have hlt : i.natAbs < 10 ^ 20 := Nat.lt_of_le_of_lt h (by decide)
  exact Nat.le_trans ((Decimal.length_le_iff (by decide)).mpr hlt) (by decide)

/-- What few digits spell is short, with a sign or without. -/
theorem short_ofDigits (negative : Bool) {ws : List Char} (hd : Json.Digits ws) (hne : ws ≠ [])
    (hw : ws.length ≤ mostDigits) :
    Short (if negative then -(Decimal.ofDigits ws : Int) else Decimal.ofDigits ws) := by
  have habs : (if negative then -(Decimal.ofDigits ws : Int)
      else Decimal.ofDigits ws).natAbs = Decimal.ofDigits ws := by
    cases negative
    · exact Int.natAbs_natCast _
    · exact (Int.natAbs_neg _).trans (Int.natAbs_natCast _)
  rw [Short, habs]
  exact Nat.le_trans (Decimal.length_ofDigits_le hd hne) hw

/-- The least natural number without a numeral. -/
def firstLong : Int := (10 ^ mostDigits : Nat)

theorem not_short_firstLong : ¬ Short firstLong := by
  rw [Short, firstLong, Int.natAbs_natCast, Decimal.length_le_iff (by decide)]
  exact Nat.lt_irrefl _

end Numeral

open Numeral (Short)

namespace Spelling

/-- What is read digit by digit is refused beyond the bound. -/
theorem short_of_strictInteger {cs : List Char} {i : Int} (h : strictInteger cs = .ok i) :
    Short i := by
  simp only [strictInteger] at h
  split at h
  · cases h
  · next ws left hw =>
      obtain ⟨hd, hne⟩ := Json.digits_of_whole? hw
      split at h
      · cases h
      · next hshort =>
          split at h
          · cases h
            exact Numeral.short_ofDigits _ hd hne (Nat.not_lt.mp hshort)
          · cases h

/-- An integer that a text spells is short, whatever else the text holds. -/
theorem short_of_integer {s : String} {i : Int} (h : integer s = .ok i) : Short i := by
  simp only [integer] at h
  split at h
  · split at h
    · exact short_of_strictInteger h
    · cases h
  · exact short_of_strictInteger h

end Spelling

namespace Json

/-! ### Numbers -/

section

variable {rules : Rules} {limit : DigitLimit} (hd : rules.digits? = some limit)
  (hm : limit.most ≤ Numeral.mostDigits)

include hd hm

/-- A number without a point and an exponent is read only within the bound on digits. -/
theorem short_of_number {negative : Bool} {opening cs left : List Char} {v : Value}
    (h : number rules negative opening cs = .ok (v, left)) : ∀ i ∈ v.integers, Short i := by
  unfold number at h
  split at h
  · cases h
  · next ws rest hw =>
      obtain ⟨hdigits, hne⟩ := digits_of_whole? hw
      dsimp only at h
      split at h
      · cases h
      · next hr =>
          split at h
          · cases h
            exact fun _ hi => nomatch hi
          · next hfloat =>
              cases h
              intro i hi
              cases List.mem_singleton.mp hi
              rw [Bool.not_eq_true] at hfloat
              rw [hfloat, Rules.refusal?, hd] at hr
              refine Numeral.short_ofDigits negative hdigits hne (Nat.le_trans ?_ hm)
              simpa using hr

theorem short_of_scalar {cs left : List Char} {v : Value}
    (h : scalar rules cs = .ok (v, left)) : ∀ i ∈ v.integers, Short i := by
  have hword : ∀ {w : Value} {spelling : String} {cs : List Char}, w.integers = [] →
      word w spelling cs = .ok (v, left) → ∀ i ∈ v.integers, Short i := by
    intro w spelling cs hw h
    unfold word at h
    split at h
    · cases h
      rw [hw]
      exact fun _ hi => nomatch hi
    · cases h
  unfold scalar at h
  split at h
  · exact hword rfl h
  · exact hword rfl h
  · exact hword rfl h
  · exact hword rfl h
  · exact hword rfl h
  · exact hword rfl h
  · exact short_of_number hd hm h
  · exact short_of_number hd hm h

end

/-! ### Texts -/

section

variable {rules : Rules} (hs : rules.surrogates = false)

include hs

/-- An escape stands for a character: half of one alone is refused. -/
theorem isSurrogate_of_codeEscape {cs left : List Char} {p : CodePoint}
    (h : codeEscape rules cs = .ok (p, left)) : p.isSurrogate = false := by
  have hvalue : ∀ n, n < 0xd800 ∨ 0xdfff < n → (CodePoint.ofNat n).isSurrogate = false := by
    intro n hn
    have hiff := CodePoint.isSurrogate_iff (p := CodePoint.ofNat n)
    rw [← Bool.not_eq_true, hiff, CodePoint.ofNat]
    split
    · dsimp only
      omega
    · decide
  unfold codeEscape at h
  split at h
  · cases h
  · next n rest _ =>
      split at h
      · next hn =>
          cases h
          exact hvalue n hn
      · rw [hs] at h
        dsimp only at h
        split at h
        · split at h
          · split at h
            · cases h
            · next m _ _ =>
                split at h
                · next hm =>
                    rw [← (Prod.mk.inj (Except.ok.inj h)).1]
                    exact hvalue _ (.inr (by omega))
                · cases h
          · cases h
        · cases h

/-- Whatever was read before, no surrogate is put behind it. -/
theorem plain_of_stringPoints {opening : List Char} {fuel : Nat} {read t : Text}
    {cs left : List Char} (hread : read.Plain)
    (h : stringPoints rules opening fuel read cs = .ok (t, left)) : t.Plain := by
  induction fuel generalizing read cs with
  | zero => cases h
  | succ fuel ih =>
      have hcons : ∀ {p : CodePoint}, p.isSurrogate = false → Text.Plain (p :: read) :=
        fun hp => List.forall_mem_cons.mpr ⟨hp, hread⟩
      cases cs with
      | nil => cases h
      | cons c cs =>
          rw [stringPoints.eq_def] at h
          dsimp only at h
          split at h
          · cases h
            exact fun p hp => hread p (List.mem_reverse.mp hp)
          · split at h
            · split at h
              · cases h
              · split at h
                · cases h
                · next hp => exact ih (hcons (isSurrogate_of_codeEscape hs hp)) h
              · split at h
                · cases h
                · exact ih (hcons (CodePoint.isSurrogate_ofChar _)) h
            · split at h
              · cases h
              · exact ih (hcons (CodePoint.isSurrogate_ofChar _)) h

/-- A string is read as a plain text. -/
theorem plain_of_string {t : Text} {cs left : List Char} (h : string rules cs = .ok (t, left)) :
    t.Plain :=
  plain_of_stringPoints hs (List.forall_mem_nil _) h

end

/-- Words and numbers have no texts in them. -/
theorem texts_of_scalar {rules : Rules} {cs left : List Char} {v : Value}
    (h : scalar rules cs = .ok (v, left)) : v.texts = [] := by
  have hword : ∀ {w : Value} {spelling : String} {cs : List Char}, w.texts = [] →
      word w spelling cs = .ok (v, left) → v.texts = [] := by
    intro w spelling cs hw h
    unfold word at h
    split at h
    · cases h
      exact hw
    · cases h
  have hnumber : ∀ {negative : Bool} {opening cs : List Char},
      number rules negative opening cs = .ok (v, left) → v.texts = [] := by
    intro negative opening cs h
    unfold number at h
    split at h
    · cases h
    · dsimp only at h
      split at h
      · cases h
      · split at h <;> cases h <;> rfl
  unfold scalar at h
  split at h
  · exact hword rfl h
  · exact hword rfl h
  · exact hword rfl h
  · exact hword rfl h
  · exact hword rfl h
  · exact hword rfl h
  · exact hnumber h
  · exact hnumber h

/-! ### Values -/

/-- All that is read within `fuel` steps is what a JSON text can say, if what was read before is. -/
structure ReadsWithin (rules : Rules) (fuel : Nat) : Prop where
  value : ∀ {depth : Nat} {cs left : List Char} {v : Value},
    value rules fuel depth cs = .ok (v, left) → v.Within .json
  items : ∀ {depth : Nat} {read : List Value} {cs left : List Char} {v : Value},
    (∀ w ∈ read, w.Within .json) → items rules fuel depth read cs = .ok (v, left) → v.Within .json
  members : ∀ {depth : Nat} {read : Fields} {cs left : List Char} {v : Value},
    (∀ m ∈ read, m.1.Plain ∧ m.2.Within .json) →
    members rules fuel depth read cs = .ok (v, left) → v.Within .json

/-- The rules bound the digits of all numbers, and let no surrogate stand alone. -/
structure Rules.Textual (rules : Rules) : Prop where
  surrogates : rules.surrogates = false
  digits : ∃ limit, rules.digits? = some limit ∧ limit.most ≤ Numeral.mostDigits

namespace ReadsWithin

variable {rules : Rules} {fuel : Nat}

theorem zero : ReadsWithin rules 0 where
  value h := nomatch h
  items _ h := nomatch h
  members _ h := nomatch h

/-- An item with those behind it. -/
theorem items_succ (ih : ReadsWithin rules fuel) {depth : Nat} {read : List Value}
    {cs left : List Char} {v : Value} (hread : ∀ w ∈ read, w.Within .json)
    (h : Json.items rules (fuel + 1) depth read cs = .ok (v, left)) : v.Within .json := by
  rw [items.eq_2] at h
  split at h
  · cases h
  · next w rest hw =>
      have hall : ∀ u ∈ w :: read, u.Within .json := List.forall_mem_cons.mpr ⟨ih.value hw, hread⟩
      split at h
      · cases h
        exact Value.within_list_iff.mpr fun u hu => hall u (List.mem_reverse.mp hu)
      · exact ih.items hall h
      · cases h

/-- A member with those behind it: its name is a string. -/
theorem members_succ (hs : rules.surrogates = false) (ih : ReadsWithin rules fuel) {depth : Nat}
    {read : Fields} {cs left : List Char} {v : Value}
    (hread : ∀ m ∈ read, m.1.Plain ∧ m.2.Within .json)
    (h : Json.members rules (fuel + 1) depth read cs = .ok (v, left)) : v.Within .json := by
  unfold Json.members at h
  split at h
  · split at h
    · cases h
    · next name _ hname =>
        split at h
        · split at h
          · cases h
          · next w _ hw =>
              have hall : ∀ m ∈ (name, w) :: read, m.1.Plain ∧ m.2.Within .json :=
                List.forall_mem_cons.mpr ⟨⟨plain_of_string hs hname, ih.value hw⟩, hread⟩
              split at h
              · cases h
                exact Value.within_map_iff.mpr fun m hm => hall m (List.mem_reverse.mp hm)
              · exact ih.members hall h
              · cases h
        · cases h
  · cases h

/-- A value, by what its first character says. -/
theorem value_succ (hrules : rules.Textual) (ih : ReadsWithin rules fuel) {depth : Nat}
    {cs left : List Char} {v : Value}
    (h : Json.value rules (fuel + 1) depth cs = .ok (v, left)) : v.Within .json := by
  unfold Json.value at h
  split at h
  · split at h
    · cases h
    · next hstring =>
        cases h
        exact Value.within_text_iff.mpr (plain_of_string hrules.surrogates hstring)
  · split at h
    · cases h
      exact Value.within_list_iff.mpr (List.forall_mem_nil _)
    · split at h
      · exact ih.items (List.forall_mem_nil _) h
      · cases h
  · split at h
    · cases h
      exact Value.within_map_iff.mpr (List.forall_mem_nil _)
    · split at h
      · exact ih.members (List.forall_mem_nil _) h
      · cases h
  · obtain ⟨limit, hd, hm⟩ := hrules.digits
    refine ⟨short_of_scalar hd hm h, ?_⟩
    rw [texts_of_scalar h]
    exact List.forall_mem_nil _

theorem all (hrules : rules.Textual) : ∀ fuel, ReadsWithin rules fuel
  | 0 => zero
  | fuel + 1 =>
      have ih := all hrules fuel
      ⟨ih.value_succ hrules, ih.items_succ, ih.members_succ hrules.surrogates⟩

end ReadsWithin

/-- What is read by such rules has short integers and plain texts. -/
theorem within_of_read {rules : Rules} (hrules : rules.Textual) {s : String} {v : Value}
    (h : read s rules = .ok v) : v.Within .json := by
  have hdocument : document rules s.toList = .ok v := by
    rw [read] at h
    split at h
    · next hd =>
        cases h
        exact hd
    · cases h
  unfold document at hdocument
  split at hdocument
  · cases hdocument
  · split at hdocument
    · cases hdocument
    · next hvalue =>
        split at hdocument
        · cases hdocument
          exact (ReadsWithin.all hrules _).value hvalue
        · cases hdocument

end Json

end WireSchema
