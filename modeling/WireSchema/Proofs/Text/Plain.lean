import Mathlib.Data.Nat.Basic
import WireSchema.Text.CodePoint

/-!
# Text — Plain texts

A text without surrogates is that of its characters (`Text.ofChars_chars`), so it is the text of a
string, and of no other (`Text.string?_eq_some_iff`).
-/

namespace WireSchema

namespace CodePoint

theorem val_ofChar (c : Char) : (ofChar c).val = c.toNat := rfl

/-- A character is no surrogate. -/
theorem valid_toNat (c : Char) :
    c.toNat < 0xd800 ∨ 0xdfff < c.toNat ∧ c.toNat < 0x110000 := by
  have h := c.valid
  simp only [UInt32.isValidChar, Nat.isValidChar] at h
  exact h

/-- A number within the range of characters is that of a character. -/
theorem toNat_ofNat {n : Nat} (h : n < 0xd800 ∨ 0xdfff < n ∧ n < 0x110000) :
    (Char.ofNat n).toNat = n := by
  have hv : n.isValidChar := h
  rw [Char.ofNat, dif_pos hv]
  rfl

theorem isSurrogate_ofChar (c : Char) : (ofChar c).isSurrogate = false := by
  have h := valid_toNat c
  rw [isSurrogate, val_ofChar, Bool.and_eq_false_iff]
  rcases h with h | ⟨h, -⟩
  · exact Or.inl (decide_eq_false (by omega))
  · exact Or.inr (decide_eq_false (by omega))

/-- A code point that is no surrogate is a character. -/
theorem exists_char {p : CodePoint} (h : ¬ (0xd800 ≤ p.val ∧ p.val ≤ 0xdfff)) :
    ∃ c : Char, p = ofChar c := by
  cases p with
  | mk n hn =>
      refine ⟨Char.ofNat n, (mk.injEq ..).mpr (toNat_ofNat ?_).symm⟩
      dsimp only at h
      omega

theorem isSurrogate_iff {p : CodePoint} :
    p.isSurrogate = true ↔ 0xd800 ≤ p.val ∧ p.val ≤ 0xdfff := by
  rw [isSurrogate, Bool.and_eq_true, decide_eq_true_eq, decide_eq_true_eq]

/-- What is no surrogate is a character. -/
theorem isSurrogate_eq_false_iff {p : CodePoint} :
    p.isSurrogate = false ↔ ∃ c : Char, p = ofChar c := by
  rw [← Bool.not_eq_true, isSurrogate_iff]
  refine ⟨exists_char, ?_⟩
  rintro ⟨c, rfl⟩
  rw [← isSurrogate_iff, isSurrogate_ofChar]
  exact Bool.false_ne_true

theorem toChar?_ofChar (c : Char) : (ofChar c).toChar? = some c := by
  rw [toChar?, isSurrogate_ofChar, if_neg Bool.false_ne_true, val_ofChar, Char.ofNat_toNat]

/-- Characters with the same code point are the same. -/
theorem ofChar_inj {c d : Char} : ofChar c = ofChar d ↔ c = d := by
  refine ⟨fun h => ?_, congrArg _⟩
  rw [← Char.ofNat_toNat c, ← Char.ofNat_toNat d, ← val_ofChar, ← val_ofChar, h]

end CodePoint

namespace Text

/-- There is no surrogate in the text. -/
def Plain (t : Text) : Prop := ∀ p ∈ t, p.isSurrogate = false

instance (t : Text) : Decidable t.Plain := List.decidableBAll _ _

/-- The characters of a text, without its surrogates. -/
def chars (t : Text) : List Char := t.filterMap CodePoint.toChar?

@[simp] theorem chars_append (t u : Text) : chars (t ++ u) = chars t ++ chars u :=
  List.filterMap_append

/-- Of characters all are left. -/
@[simp] theorem chars_ofChars (cs : List Char) : chars (ofChars cs) = cs := by
  have hsome : CodePoint.toChar? ∘ CodePoint.ofChar = some := funext CodePoint.toChar?_ofChar
  rw [chars, ofChars, List.filterMap_map, hsome, List.filterMap_some]

@[simp] theorem chars_ofString (s : String) : chars (ofString s) = s.toList :=
  chars_ofChars _

theorem plain_ofChars (cs : List Char) : Plain (ofChars cs) := by
  intro p hp
  obtain ⟨c, -, rfl⟩ := List.mem_map.mp hp
  exact CodePoint.isSurrogate_ofChar c

theorem plain_ofString (s : String) : Plain (ofString s) := plain_ofChars _

theorem plain_append_iff {t u : Text} : Plain (t ++ u) ↔ t.Plain ∧ u.Plain :=
  List.forall_mem_append

/-- A plain text is that of its characters. -/
theorem ofChars_chars {t : Text} (h : t.Plain) : ofChars t.chars = t := by
  induction t with
  | nil => rfl
  | cons p t ih =>
      obtain ⟨c, rfl⟩ := CodePoint.isSurrogate_eq_false_iff.mp (h p List.mem_cons_self)
      rw [chars, List.filterMap_cons_some (CodePoint.toChar?_ofChar c), ofChars, List.map_cons]
      exact congrArg _ (ih fun q hq => h q (List.mem_cons_of_mem _ hq))

theorem ofString_ofList (cs : List Char) : ofString (String.ofList cs) = ofChars cs := by
  rw [ofString, String.toList_ofList]

/-- The text of a string is that of this string. -/
theorem string?_ofString (s : String) : string? (ofString s) = some s := by
  have hm : ∀ cs : List Char, (ofChars cs).mapM CodePoint.toChar? = some cs := by
    intro cs
    induction cs with
    | nil => rfl
    | cons c cs ih =>
        rw [ofChars, List.map_cons, List.mapM_cons, CodePoint.toChar?_ofChar]
        exact congrArg (Option.bind · fun ds => some (c :: ds)) ih
  rw [string?, ofString, hm]
  exact congrArg some String.ofList_toList

/-- A text with a surrogate in it is that of no string. -/
theorem string?_eq_none {t : Text} (h : ¬ t.Plain) : t.string? = none := by
  induction t with
  | nil => exact absurd (List.forall_mem_nil _) h
  | cons p t ih =>
      rw [string?, List.mapM_cons]
      cases hp : p.isSurrogate with
      | true =>
          rw [CodePoint.toChar?, hp]
          rfl
      | false =>
          have ht : ¬ Plain t := fun ht => h (List.forall_mem_cons.mpr ⟨hp, ht⟩)
          have hnone : t.mapM CodePoint.toChar? = none := Option.map_eq_none_iff.mp (ih ht)
          rw [hnone]
          cases p.toChar? <;> rfl

/-- A text is that of a string exactly if the string is that of the text. -/
theorem string?_eq_some_iff {t : Text} {s : String} : t.string? = some s ↔ t = ofString s := by
  constructor
  · intro h
    by_cases ht : t.Plain
    · have ht := ofChars_chars ht
      rw [← ht, ← ofString_ofList, string?_ofString] at h
      rw [← ht, ← ofString_ofList, Option.some.inj h]
    · rw [string?_eq_none ht] at h
      cases h
  · rintro rfl
    exact string?_ofString s

end Text

end WireSchema
