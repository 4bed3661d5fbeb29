import WireSchema.Proofs.Text.Decoded

/-!
# Text — What ill-formed bytes are read as

**Every maximal ill-formed part is read as one U+FFFD** (`Utf8.decode_eq_iff`). Bytes are read as
the forms of characters and, where none stands, the longest part that could have begun one, or a
single byte if it could not (`Utf8.Cut`); the next byte is then read as if nothing were before it.
There is one way only to read bytes so (`Utf8.Repaired.unique`).

A decoder inside a form has read the beginning of the forms of certain characters, those whose
numbers lie between the bounds of what is pending, and of no others (`Utf8.Begun`). A byte that it
admits narrows them down; a byte that it does not admit continues none of them.
-/

namespace WireSchema

namespace Utf8

/-! ### Forms -/

/-- The last `k` bytes of the form of a number, six bits in each. -/
def tail : (k n : Nat) → List UInt8
  | 0, _ => []
  | k + 1, n => continuation (n / 64 ^ k) :: tail k n

/-- What the form of a number begins with, and how many bytes follow. -/
inductive Leads (n : Nat) : (first k : Nat) → Prop
  | one : n < 0x80 → Leads n n 0
  | two : 0x80 ≤ n → n < 0x800 → Leads n (0xc0 + n / 64) 1
  | three : 0x800 ≤ n → n < 0x10000 → n < 0xd800 ∨ 0xdfff < n → Leads n (0xe0 + n / 4096) 2
  | four : 0x10000 ≤ n → n < 0x110000 → Leads n (0xf0 + n / 262144) 3

theorem exists_leads (c : Char) : ∃ first k, Leads c.toNat first k ∧ first < 256 ∧
    String.utf8EncodeChar c = UInt8.ofNat first :: tail k c.toNat := by
  have hv := CodePoint.valid_toNat c
  rw [← encodePoint_ofChar, encodePoint_char]
  split_ifs with h₁ h₂ h₃
  · exact ⟨_, _, .one h₁, by omega, rfl⟩
  · refine ⟨_, _, .two (by omega) h₂, by omega, ?_⟩
    rw [tail, tail, Nat.pow_zero, Nat.div_one]
  · refine ⟨_, _, .three (by omega) h₃ (by omega), by omega, ?_⟩
    rw [tail, tail, tail, Nat.pow_zero, Nat.div_one, Nat.pow_one]
  · refine ⟨_, _, .four (by omega) (by omega), by omega, ?_⟩
    rw [tail, tail, tail, tail, Nat.pow_zero, Nat.div_one, Nat.pow_one]
    rfl

/-- The bytes read so far begin the forms of the characters that are pending, and of no others. -/
structure Begun (read : List UInt8) (p : Pending) : Prop where
  sound : p.Sound
  low_le : p.low.toNat ≤ p.high.toNat
  within : ∀ c : Char, read <+: String.utf8EncodeChar c → p.least ≤ c.toNat ∧ c.toNat < p.most
  form_eq : ∀ c : Char, p.least ≤ c.toNat → c.toNat < p.most →
    String.utf8EncodeChar c = read ++ tail p.missing c.toNat

/-- A first byte begins the forms of the numbers between two bounds, if they are those that have
it. -/
theorem Begun.of_leads {b : UInt8} {p : Pending} {low high : Nat} (hsound : p.Sound)
    (hrange : p.low.toNat ≤ p.high.toNat) (hleast : p.least = low) (hmost : p.most = high)
    (h : ∀ n first k, Leads n first k →
      (first = b.toNat ↔ low ≤ n ∧ n < high) ∧ (first = b.toNat → k = p.missing)) :
    Begun [b] p := by
  have hform : ∀ c : Char, ([b] <+: String.utf8EncodeChar c ↔ low ≤ c.toNat ∧ c.toNat < high) ∧
      ([b] <+: String.utf8EncodeChar c →
        String.utf8EncodeChar c = [b] ++ tail p.missing c.toNat) := by
    intro c
    obtain ⟨first, k, hleads, hfirst, heq⟩ := exists_leads c
    obtain ⟨hbounds, hk⟩ := h _ _ _ hleads
    have hb : b = UInt8.ofNat first ↔ first = b.toNat := by
      rw [← UInt8.toNat_inj, UInt8.toNat_ofNat', Nat.mod_eq_of_lt hfirst, eq_comm]
    rw [heq, List.singleton_append, List.cons_prefix_cons, hb,
      and_iff_left (List.nil_prefix (l := tail k c.toNat))]
    exact ⟨hbounds, fun e => by rw [hk e, ← hb.mpr e]⟩
  subst hleast hmost
  exact ⟨hsound, hrange, fun c => (hform c).1.mp,
    fun c hc hc' => (hform c).2 ((hform c).1.mpr ⟨hc, hc'⟩)⟩

/-- A first byte that any payload may follow. -/
theorem Begun.of_leads_full {b : UInt8} {n m : Nat} (hm : 1 ≤ m)
    (hsound : Pending.Sound ⟨n, m, 0x80, 0xbf⟩)
    (h : ∀ c first k, Leads c first k →
      (first = b.toNat ↔ n * 64 ^ m ≤ c ∧ c < (n + 1) * 64 ^ m) ∧ (first = b.toNat → k = m)) :
    Begun [b] ⟨n, m, 0x80, 0xbf⟩ :=
  .of_leads hsound (show (0x80 : UInt8).toNat ≤ (0xbf : UInt8).toNat by decide)
    (Pending.least_full hm) (Pending.most_full hm) h

theorem begun_of_lead {b : UInt8} {p : Pending} (h : lead b = .incomplete p) : Begun [b] p := by
  have hsound := sound_of_lead h
  have hled := led_lead b
  rw [h] at hled
  cases hled with
  | two m hb =>
      refine .of_leads_full (by decide) hsound ?_
      rintro n _ _ (hn | hn | hn | hn) <;> omega
  | three m hb =>
      refine .of_leads_full (by decide) hsound ?_
      rintro n _ _ (hn | hn | hn | hn) <;> omega
  | four m hb =>
      refine .of_leads_full (by decide) hsound ?_
      rintro n _ _ (hn | hn | hn | hn) <;> omega
  | threeFirst hb =>
      have hleast : Pending.least ⟨0, 2, 0xa0, 0xbf⟩ = 0x800 := rfl
      have hmost : Pending.most ⟨0, 2, 0xa0, 0xbf⟩ = 0x1000 := rfl
      refine .of_leads hsound (by decide) hleast hmost ?_
      rintro n _ _ (hn | hn | hn | hn) <;> dsimp only <;> omega
  | threeSurrogate hb =>
      have hleast : Pending.least ⟨0xd, 2, 0x80, 0x9f⟩ = 0xd000 := rfl
      have hmost : Pending.most ⟨0xd, 2, 0x80, 0x9f⟩ = 0xd800 := rfl
      refine .of_leads hsound (by decide) hleast hmost ?_
      rintro n _ _ (hn | hn | hn | hn) <;> dsimp only <;> omega
  | fourFirst hb =>
      have hleast : Pending.least ⟨0, 3, 0x90, 0xbf⟩ = 0x10000 := rfl
      have hmost : Pending.most ⟨0, 3, 0x90, 0xbf⟩ = 0x40000 := rfl
      refine .of_leads hsound (by decide) hleast hmost ?_
      rintro n _ _ (hn | hn | hn | hn) <;> dsimp only <;> omega
  | fourLast hb =>
      have hleast : Pending.least ⟨4, 3, 0x80, 0x8f⟩ = 0x100000 := rfl
      have hmost : Pending.most ⟨4, 3, 0x80, 0x8f⟩ = 0x110000 := rfl
      refine .of_leads hsound (by decide) hleast hmost ?_
      rintro n _ _ (hn | hn | hn | hn) <;> dsimp only <;> omega

namespace Begun

variable {read : List UInt8} {p : Pending} {b : UInt8} {c : Char}

/-- Some character is pending. -/
theorem exists_char (h : Begun read p) : ∃ c : Char, p.least ≤ c.toNat ∧ c.toNat < p.most := by
  have hlow := UInt8.le_iff_toNat_le.mpr h.low_le
  obtain ⟨hleast, hmost⟩ := h.sound.between ⟨UInt8.le_refl p.low, hlow⟩
  have hlt : p.least < p.most := by
    refine Nat.lt_of_le_of_lt hleast (Nat.lt_of_lt_of_le ?_ hmost)
    exact Nat.mul_lt_mul_of_pos_right (Nat.lt_succ_self _) (Nat.pow_pos (by decide))
  have hvalid := h.sound.valid
  refine ⟨Char.ofNat p.least, ?_⟩
  rw [CodePoint.toNat_ofNat (by omega)]
  exact ⟨Nat.le_refl _, hlt⟩

/-- The next byte of a character that is pending lies within the range that is admitted, and settles
six bits of the character's number. -/
theorem form_cons (h : Begun read p) (hc : p.least ≤ c.toNat ∧ c.toNat < p.most) :
    ∃ next, String.utf8EncodeChar c = read ++ next :: tail (p.missing - 1) c.toNat ∧
      (p.low ≤ next ∧ next ≤ p.high) ∧
      c.toNat / 64 ^ (p.missing - 1) = p.payload * 64 + next.toNat % 64 := by
  have hpow : 0 < 64 ^ (p.missing - 1) := Nat.pow_pos (by decide)
  have hlow := (Nat.le_div_iff_mul_le hpow).mpr hc.1
  have hhigh := (Nat.div_lt_iff_lt_mul hpow).mpr hc.2
  have := h.sound.low_ge
  have := h.sound.high_le
  have := h.low_le
  have hnext := toNat_continuation (c.toNat / 64 ^ (p.missing - 1))
  refine ⟨continuation (c.toNat / 64 ^ (p.missing - 1)), ?_, ?_, ?_⟩
  · rw [h.form_eq c hc.1 hc.2]
    obtain ⟨k, hk⟩ := Nat.exists_eq_add_of_le' h.sound.missing_pos
    rw [hk, tail, Nat.add_sub_cancel]
  · rw [UInt8.le_iff_toNat_le, UInt8.le_iff_toNat_le, hnext]
    omega
  · rw [hnext]
    omega

/-- A byte out of range continues no form. -/
theorem not_continued (h : Begun read p) (hb : ¬ (p.low ≤ b ∧ b ≤ p.high)) (c : Char) :
    ¬ read ++ [b] <+: String.utf8EncodeChar c := by
  intro hc'
  have hc := h.within c ((List.prefix_append ..).trans hc')
  obtain ⟨next, hform, hrange, -⟩ := h.form_cons hc
  rw [hform, List.prefix_append_right_inj, List.cons_prefix_cons] at hc'
  exact hb (hc'.1 ▸ hrange)

/-- The characters whose next byte is `b` are those that have its bits. -/
theorem form_of_div (h : Begun read p) (hb : p.low ≤ b ∧ b ≤ p.high)
    (hc : p.least ≤ c.toNat ∧ c.toNat < p.most)
    (hdiv : c.toNat / 64 ^ (p.missing - 1) = p.payload * 64 + b.toNat % 64) :
    String.utf8EncodeChar c = read ++ b :: tail (p.missing - 1) c.toNat := by
  obtain ⟨next, hform, hrange, hnext⟩ := h.form_cons hc
  rw [UInt8.le_iff_toNat_le, UInt8.le_iff_toNat_le] at hb hrange
  have := h.sound.low_ge
  have := h.sound.high_le
  have heq : next = b := UInt8.toNat_inj.mp (by omega)
  rw [hform, heq]

/-- A byte inside a form narrows down the characters that are pending. -/
theorem more (h : Begun read p) (hb : p.low ≤ b ∧ b ≤ p.high) (hm : ¬ p.missing ≤ 1) :
    Begun (read ++ [b]) ⟨p.payload * 64 + b.toNat % 64, p.missing - 1, 0x80, 0xbf⟩ := by
  have hone : 1 ≤ p.missing - 1 := by omega
  have hpow : 0 < 64 ^ (p.missing - 1) := Nat.pow_pos (by decide)
  obtain ⟨hleast, hmost⟩ := h.sound.between hb
  refine ⟨h.sound.more hb hm, show (0x80 : UInt8).toNat ≤ (0xbf : UInt8).toNat by decide,
    fun c hc => ?_, fun c hc hc' => ?_⟩
  · obtain ⟨next, hform, -, hnext⟩ := h.form_cons (h.within c ((List.prefix_append ..).trans hc))
    rw [hform, List.prefix_append_right_inj, List.cons_prefix_cons] at hc
    rw [Pending.least_full hone, Pending.most_full hone, hc.1, ← hnext]
    exact ⟨Nat.div_mul_le_self _ _, Nat.lt_mul_of_div_lt (Nat.lt_succ_self _) hpow⟩
  · rw [Pending.least_full hone] at hc
    rw [Pending.most_full hone] at hc'
    have hdiv : c.toNat / 64 ^ (p.missing - 1) = p.payload * 64 + b.toNat % 64 :=
      Nat.div_eq_of_lt_le hc hc'
    have hpending := And.intro (Nat.le_trans hleast hc) (Nat.lt_of_lt_of_le hc' hmost)
    rw [h.form_of_div hb hpending hdiv, List.append_assoc]
    rfl

/-- The last byte ends the form of the one character left. -/
theorem last (h : Begun read p) (hb : p.low ≤ b ∧ b ≤ p.high) (hm : p.missing ≤ 1) :
    String.utf8EncodeChar (Char.ofNat (p.payload * 64 + b.toNat % 64)) = read ++ [b] := by
  obtain ⟨hleast, hmost⟩ := h.sound.between hb
  have hzero : p.missing - 1 = 0 := by omega
  rw [hzero, Nat.pow_zero, Nat.mul_one] at hleast hmost
  have hvalid := h.sound.valid
  have hn : (Char.ofNat (p.payload * 64 + b.toNat % 64)).toNat = p.payload * 64 + b.toNat % 64 :=
    CodePoint.toNat_ofNat (by omega)
  refine (h.form_of_div hb ?_ ?_).trans ?_
  · rw [hn]
    exact ⟨hleast, hmost⟩
  · rw [hn, hzero, Nat.pow_zero, Nat.div_one]
  · rw [hzero]
    rfl

end Begun

/-! ### Maximal ill-formed parts -/

/-- Some character's form begins with these bytes. -/
def Begins (bytes : List UInt8) : Prop := ∃ c : Char, bytes <+: String.utf8EncodeChar c

/-- A maximal ill-formed part before `rest`: where no form stands, the longest part that could have
begun one, or a single byte if it could not. -/
structure Cut (part rest : List UInt8) : Prop where
  ill : ∀ c : Char, ¬ String.utf8EncodeChar c <+: part ++ rest
  ne_nil : part ≠ []
  begins : Begins part ∨ part.length = 1
  longest : ∀ b more, rest = b :: more → ¬ Begins (part ++ [b])

/-- The text that bytes are read as: the characters of the forms in them, and U+FFFD for every
maximal ill-formed part. -/
inductive Repaired : List UInt8 → List Char → Prop
  | nil : Repaired [] []
  | form (c : Char) {rest : List UInt8} {chars : List Char} (h : Repaired rest chars) :
      Repaired (String.utf8EncodeChar c ++ rest) (c :: chars)
  | cut {part rest : List UInt8} {chars : List Char} (hcut : Cut part rest)
      (h : Repaired rest chars) : Repaired (part ++ rest) ('\ufffd' :: chars)

theorem decode_form (c : Char) (bytes : List UInt8) :
    decode (String.utf8EncodeChar c ++ bytes) = c :: decode bytes := by
  rw [← encodePoint_ofChar]
  exact decodeFrom_encodePoint c bytes

/-- No form begins another. -/
theorem eq_of_begins {c d : Char} (h : String.utf8EncodeChar c <+: String.utf8EncodeChar d) :
    c = d := by
  obtain ⟨more, hmore⟩ := h
  have hdecode := decode_form d []
  rw [List.append_nil, ← hmore, decode_form] at hdecode
  exact (List.cons.inj hdecode).1

theorem Begun.begins {read : List UInt8} {p : Pending} (h : Begun read p) : Begins read := by
  obtain ⟨c, hc⟩ := h.exists_char
  exact ⟨c, h.form_eq c hc.1 hc.2 ▸ List.prefix_append ..⟩

/-- What has begun a form and is not continued is a maximal ill-formed part. -/
theorem Begun.cut {read rest : List UInt8} {p : Pending} (h : Begun read p) (hread : read ≠ [])
    (hrest : ∀ b more, rest = b :: more → ¬ (p.low ≤ b ∧ b ≤ p.high)) : Cut read rest := by
  refine ⟨fun c hc => ?_, hread, Or.inl h.begins, fun b more hb ⟨c, hc⟩ =>
    h.not_continued (hrest b more hb) c hc⟩
  rcases List.prefix_or_prefix_of_prefix hc (List.prefix_append read rest) with hc' | hc'
  · -- a form within what has been read would begin the forms that are pending
    obtain ⟨d, hd⟩ := h.exists_char
    obtain ⟨next, hform, -, -⟩ := h.form_cons hd
    obtain rfl := eq_of_begins (hc'.trans (hform ▸ List.prefix_append ..))
    have hle := hc'.length_le
    rw [hform, List.length_append, List.length_cons] at hle
    omega
  · obtain ⟨next, hform, hrange, -⟩ := h.form_cons (h.within c hc')
    rw [hform, List.prefix_append_right_inj] at hc
    obtain ⟨more, hmore⟩ := hc
    exact hrest next _ hmore.symm hrange

/-- A byte that leads no form is a maximal ill-formed part. -/
theorem cut_of_invalid {b : UInt8} (h : lead b = .invalid) (rest : List UInt8) : Cut [b] rest := by
  have hfirst : ∀ c : Char, ¬ [b] <+: String.utf8EncodeChar c := by
    intro c hc
    obtain ⟨first, k, hleads, hlt, hform⟩ := exists_leads c
    rw [hform, List.cons_prefix_cons, ← UInt8.toNat_inj, UInt8.toNat_ofNat',
      Nat.mod_eq_of_lt hlt] at hc
    have hb := hc.1
    have hled := led_lead b
    rw [h] at hled
    cases hled with
    | stray => rcases hleads with hn | hn | hn | hn <;> omega
    | beyond => rcases hleads with hn | hn | hn | hn <;> omega
  refine ⟨fun c hc => ?_, List.cons_ne_nil b [], Or.inr rfl, fun b' more _ ⟨c, hc⟩ =>
    hfirst c ((List.prefix_append ..).trans hc)⟩
  obtain ⟨first, k, -, -, hform⟩ := exists_leads c
  have hsingle : [b] <+: String.utf8EncodeChar c := by
    rw [hform] at hc ⊢
    rw [List.singleton_append, List.cons_prefix_cons] at hc
    rw [List.cons_prefix_cons]
    exact ⟨hc.1.symm, List.nil_prefix⟩
  exact hfirst c hsingle

theorem form_of_complete {b : UInt8} {c : Char} (h : lead b = .complete c) :
    String.utf8EncodeChar c = [b] := by
  have hled := led_lead b
  rw [h] at hled
  cases hled with
  | single hb =>
      obtain ⟨first, k, hleads, hlt, hform⟩ := exists_leads (Char.ofNat b.toNat)
      rw [CodePoint.toNat_ofNat (by omega)] at hleads hform
      rw [hform]
      cases hleads with
      | one => rw [UInt8.ofNat_toNat, tail]
      | two => omega
      | three => omega
      | four => omega

/-- The decoder reads the forms and the maximal ill-formed parts, one after the other; inside a
form, what it has read of it belongs to what follows. -/
theorem repaired_decodeFrom (bytes : List UInt8) :
    Repaired bytes (decodeFrom none bytes) ∧ ∀ read p, read ≠ [] → Begun read p →
      Repaired (read ++ bytes) (decodeFrom (some p) bytes) := by
  induction bytes with
  | nil => exact ⟨.nil, fun read p hread h => .cut (h.cut hread nofun) .nil⟩
  | cons b bytes ih =>
      have hnone : Repaired (b :: bytes) (decodeFrom none (b :: bytes)) := by
        rw [decodeFrom_cons, step, begin]
        cases hlead : lead b with
        | complete c =>
            have hform := Repaired.form c ih.1
            rwa [form_of_complete hlead] at hform
        | incomplete p => exact ih.2 [b] p (List.cons_ne_nil b []) (begun_of_lead hlead)
        | invalid => exact .cut (cut_of_invalid hlead bytes) ih.1
      refine ⟨hnone, fun read p hread h => ?_⟩
      rw [decodeFrom_cons, step]
      by_cases hb : p.low ≤ b ∧ b ≤ p.high
      · rw [if_pos hb, List.append_cons]
        dsimp only
        by_cases hm : p.missing ≤ 1
        · rw [if_pos hm, ← h.last hb hm]
          exact .form _ ih.1
        · rw [if_neg hm]
          exact ih.2 _ _ (List.append_ne_nil_of_left_ne_nil hread [b]) (h.more hb hm)
      · rw [if_neg hb]
        rw [decodeFrom_cons] at hnone
        refine .cut (h.cut hread fun b' more e => ?_) hnone
        cases e
        exact hb

/-! ### One way to read bytes -/

theorem Begins.shorter {xs ys : List UInt8} (h : Begins ys) (hxs : xs <+: ys) : Begins xs :=
  h.imp fun _ hc => hxs.trans hc

/-- Of two maximal ill-formed parts at one place, neither goes on behind the other. -/
theorem Cut.eq_nil {part rest more : List UInt8} (h : Cut part (more ++ rest))
    (h' : Cut (part ++ more) rest) : more = [] := by
  cases more with
  | nil => rfl
  | cons b more =>
      have hbegins : Begins (part ++ b :: more) := h'.begins.resolve_right fun hl => by
        have hpos := List.length_pos_iff.mpr h.ne_nil
        rw [List.length_append, List.length_cons] at hl
        omega
      rw [List.append_cons] at hbegins
      exact absurd (hbegins.shorter (List.prefix_append ..)) (h.longest b _ rfl)

theorem Cut.unique {part rest part' rest' : List UInt8} (h : Cut part rest) (h' : Cut part' rest')
    (heq : part ++ rest = part' ++ rest') : part = part' ∧ rest = rest' := by
  rcases List.append_eq_append_iff.mp heq with ⟨more, rfl, rfl⟩ | ⟨more, rfl, rfl⟩
  · obtain rfl := h.eq_nil h'
    exact ⟨(List.append_nil part).symm, rfl⟩
  · obtain rfl := h'.eq_nil h
    exact ⟨List.append_nil part', rfl⟩

theorem form_ne_nil (c : Char) : String.utf8EncodeChar c ≠ [] := by
  obtain ⟨first, k, -, -, hform⟩ := exists_leads c
  exact hform ▸ List.cons_ne_nil _ _

theorem Repaired.of_nil {ds : List Char} (h : Repaired [] ds) : ds = [] := by
  generalize hbytes : [] = bytes at h
  cases h with
  | nil => rfl
  | form d => exact absurd (List.append_eq_nil_iff.mp hbytes.symm).1 (form_ne_nil d)
  | cut hcut => exact absurd (List.append_eq_nil_iff.mp hbytes.symm).1 hcut.ne_nil

theorem Repaired.of_form {c : Char} {rest : List UInt8} {ds : List Char}
    (h : Repaired (String.utf8EncodeChar c ++ rest) ds) :
    ∃ cs, ds = c :: cs ∧ Repaired rest cs := by
  generalize hbytes : String.utf8EncodeChar c ++ rest = bytes at h
  cases h with
  | nil => exact absurd (List.append_eq_nil_iff.mp hbytes).1 (form_ne_nil c)
  | form d h =>
      have hdecode := congrArg decode hbytes
      rw [decode_form, decode_form] at hdecode
      obtain rfl := (List.cons.inj hdecode).1
      exact ⟨_, rfl, List.append_cancel_left hbytes ▸ h⟩
  | cut hcut => exact absurd (hbytes ▸ List.prefix_append ..) (hcut.ill c)

theorem Repaired.of_cut {part rest : List UInt8} {ds : List Char} (hcut : Cut part rest)
    (h : Repaired (part ++ rest) ds) : ∃ cs, ds = '\ufffd' :: cs ∧ Repaired rest cs := by
  generalize hbytes : part ++ rest = bytes at h
  cases h with
  | nil => exact absurd (List.append_eq_nil_iff.mp hbytes).1 hcut.ne_nil
  | form d => exact absurd (hbytes ▸ List.prefix_append ..) (hcut.ill d)
  | cut hcut' h => exact ⟨_, rfl, (hcut.unique hcut' hbytes).2 ▸ h⟩

theorem Repaired.unique {bytes : List UInt8} {cs : List Char} (h : Repaired bytes cs) :
    ∀ {ds : List Char}, Repaired bytes ds → cs = ds := by
  induction h with
  | nil => exact fun h' => h'.of_nil.symm
  | form c h ih =>
      intro ds h'
      obtain ⟨es, rfl, hes⟩ := h'.of_form
      exact congrArg (c :: ·) (ih hes)
  | cut hcut h ih =>
      intro ds h'
      obtain ⟨es, rfl, hes⟩ := h'.of_cut hcut
      exact congrArg ('\ufffd' :: ·) (ih hes)

/-- **Every maximal ill-formed part is read as one U+FFFD**, and every form as its character. -/
theorem decode_eq_iff {bytes : List UInt8} {chars : List Char} :
    decode bytes = chars ↔ Repaired bytes chars := by
  constructor
  · rintro rfl
    exact (repaired_decodeFrom bytes).1
  · exact (repaired_decodeFrom bytes).1.unique

end Utf8

end WireSchema
