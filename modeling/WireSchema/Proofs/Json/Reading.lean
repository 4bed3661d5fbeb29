import WireSchema.Proofs.Json.Number
import WireSchema.Proofs.Vocabulary

/-!
# JSON — Texts that read back

The text of a value is read as this value (`read_print`), but for the payloads of what is no number:
if lists and maps may lie inside one another as they do, no number has too many digits, and no text
in the value has a surrogate. The text of a value is plain exactly if all texts in it are
(`plain_render_iff`).

Reading goes by a bound on the number of steps, and every step takes at least one character. So the
induction is on the bound, for texts shorter than the bound, and says at once what is read of a
value, of the items of a list and of the members of a map (`Reads`).
-/

namespace WireSchema

namespace Value

mutual

/-- The value that comes out of the text of a value: all that is no number is the same there. -/
def quieted : Value → Value
  | float x => float x.quieted
  | list items => list (quietedItems items)
  | map members => map (quietedMembers members)
  | v => v

def quietedItems : List Value → List Value
  | [] => []
  | v :: items => quieted v :: quietedItems items

def quietedMembers : Fields → Fields
  | [] => []
  | (name, v) :: members => (name, quieted v) :: quietedMembers members

end

theorem quietedItems_eq (items : List Value) : quietedItems items = items.map quieted := by
  induction items with
  | nil => rfl
  | cons v items ih => rw [quietedItems, ih, List.map_cons]

mutual

/-- A double that is no number is no integer either, so integers stay. -/
theorem integers_quieted : ∀ v : Value, v.quieted.integers = v.integers
  | null | bool _ | int _ | float _ | text _ => rfl
  | list items => integersOfItems_quieted items
  | map members => integersOfMembers_quieted members

theorem integersOfItems_quieted :
    ∀ items : List Value, integersOfItems (quietedItems items) = integersOfItems items
  | [] => rfl
  | v :: items => congrArg₂ (· ++ ·) (integers_quieted v) (integersOfItems_quieted items)

theorem integersOfMembers_quieted :
    ∀ members : Fields, integersOfMembers (quietedMembers members) = integersOfMembers members
  | [] => rfl
  | (_, v) :: members =>
      congrArg₂ (· ++ ·) (integers_quieted v) (integersOfMembers_quieted members)

end

end Value

namespace Json

/-! ### The characters of a text -/

/-- The characters of a code point within a string are its escape, and a surrogate has none. -/
theorem chars_escapePoint (p : CodePoint) :
    Text.chars (escapePoint p) = p.toChar?.elim [] escape := by
  rw [escapePoint]
  cases hp : p.toChar? with
  | some c => exact Text.chars_ofChars _
  | none =>
      rw [Text.chars, List.filterMap_cons_none hp]
      rfl

/-- Within a string, characters are escaped one by one. -/
theorem chars_flatMap (t : Text) :
    Text.chars (t.flatMap escapePoint) = t.chars.flatMap escape := by
  induction t with
  | nil => rfl
  | cons p t ih =>
      rw [List.flatMap_cons, Text.chars_append, ih, chars_escapePoint]
      cases hp : p.toChar? with
      | some c => rw [Text.chars, Text.chars, List.filterMap_cons_some hp, List.flatMap_cons]; rfl
      | none => rw [Text.chars, Text.chars, List.filterMap_cons_none hp]; rfl

/-- The characters of the further items of a list, up to its end. -/
def itemChars (items : List Value) : List Char := (renderItems items).chars

/-- The characters of the further members of a map, up to its end. -/
def memberChars (members : Fields) : List Char := (renderMembers members).chars

/-- The characters of a string with its quotes. -/
def quotedChars (t : Text) : List Char := '"' :: (t.chars.flatMap escape ++ ['"'])

theorem chars_quoted (t : Text) : (quoted t).chars = quotedChars t := by
  rw [quoted, Text.chars_append, Text.chars_append, chars_flatMap]
  rfl

theorem chars_list (v : Value) (vs : List Value) :
    chars (.list (v :: vs)) = '[' :: (chars v ++ itemChars vs) := by
  rw [chars, render, Text.chars_append, Text.chars_append, List.append_assoc]
  rfl

theorem chars_map (name : Text) (v : Value) (ms : Fields) :
    chars (.map ((name, v) :: ms)) =
      '\x7b' :: (quotedChars name ++ ':' :: ' ' :: (chars v ++ memberChars ms)) := by
  simp only [chars, render, Text.chars_append, chars_quoted, List.append_assoc]
  rfl

theorem itemChars_cons (v : Value) (vs : List Value) :
    itemChars (v :: vs) = ',' :: ' ' :: (chars v ++ itemChars vs) := by
  rw [itemChars, renderItems, Text.chars_append, Text.chars_append, List.append_assoc]
  rfl

theorem memberChars_cons (name : Text) (v : Value) (ms : Fields) :
    memberChars ((name, v) :: ms) =
      ',' :: ' ' :: (quotedChars name ++ ':' :: ' ' :: (chars v ++ memberChars ms)) := by
  simp only [memberChars, renderMembers, Text.chars_append, chars_quoted, List.append_assoc]
  rfl

/-! ### Plain texts -/

/-- An escape is plain unless a surrogate stands for itself. -/
theorem plain_escapePoint_iff {p : CodePoint} :
    Text.Plain (escapePoint p) ↔ p.isSurrogate = false := by
  rw [escapePoint]
  cases hp : p.isSurrogate with
  | false =>
      obtain ⟨c, rfl⟩ := CodePoint.isSurrogate_eq_false_iff.mp hp
      rw [CodePoint.toChar?_ofChar]
      exact iff_of_true (Text.plain_ofChars _) rfl
  | true =>
      rw [CodePoint.toChar?, hp]
      exact iff_of_false (fun h => Bool.false_ne_true ((h p List.mem_cons_self).symm.trans hp))
        (Bool.false_ne_true ·.symm)

/-- A string is plain with its quotes if it is without them. -/
theorem plain_quoted_iff {t : Text} : (quoted t).Plain ↔ t.Plain := by
  have hflat : Text.Plain (t.flatMap escapePoint) ↔ t.Plain := by
    rw [Text.Plain, List.forall_mem_flatMap]
    exact forall₂_congr fun _ _ => plain_escapePoint_iff
  rw [quoted, Text.plain_append_iff, Text.plain_append_iff, hflat]
  exact ⟨fun h => h.1.2, fun h => ⟨⟨Text.plain_ofString _, h⟩, Text.plain_ofString _⟩⟩

mutual

/-- The text of a value is plain if all texts in the value are. -/
theorem plain_render_iff : ∀ v : Value, (render v).Plain ↔ ∀ t ∈ v.texts, t.Plain
  | .null => iff_of_true (Text.plain_ofString _) (List.forall_mem_nil _)
  | .bool true | .bool false => iff_of_true (Text.plain_ofString _) (List.forall_mem_nil _)
  | .int _ | .float _ => iff_of_true (Text.plain_ofString _) (List.forall_mem_nil _)
  | .text t => plain_quoted_iff.trans List.forall_mem_singleton.symm
  | .list [] | .map [] => iff_of_true (Text.plain_ofString _) (List.forall_mem_nil _)
  | .list (v :: items) => by
      rw [render, Text.plain_append_iff, Text.plain_append_iff, plain_render_iff v,
        plain_renderItems_iff items, Value.texts, Value.textsOfItems, List.forall_mem_append]
      exact and_congr_left fun _ => and_iff_right (Text.plain_ofString _)
  | .map ((name, v) :: members) => by
      rw [render, Text.plain_append_iff, Text.plain_append_iff, Text.plain_append_iff,
        Text.plain_append_iff, plain_quoted_iff, plain_render_iff v,
        plain_renderMembers_iff members, Value.texts, Value.textsOfMembers,
        List.forall_mem_cons, List.forall_mem_append]
      have hplain : ∀ s : String, (s : Text).Plain := Text.plain_ofString
      tauto

/-- So is the text of items. -/
theorem plain_renderItems_iff : ∀ items : List Value,
    (renderItems items).Plain ↔ ∀ t ∈ Value.textsOfItems items, t.Plain
  | [] => iff_of_true (Text.plain_ofString _) (List.forall_mem_nil _)
  | v :: items => by
      rw [renderItems, Text.plain_append_iff, Text.plain_append_iff, plain_render_iff v,
        plain_renderItems_iff items, Value.textsOfItems, List.forall_mem_append]
      exact and_congr_left fun _ => and_iff_right (Text.plain_ofString _)

/-- So is the text of members. -/
theorem plain_renderMembers_iff : ∀ members : Fields,
    (renderMembers members).Plain ↔ ∀ t ∈ Value.textsOfMembers members, t.Plain
  | [] => iff_of_true (Text.plain_ofString _) (List.forall_mem_nil _)
  | (name, v) :: members => by
      rw [renderMembers, Text.plain_append_iff, Text.plain_append_iff, Text.plain_append_iff,
        Text.plain_append_iff, plain_quoted_iff, plain_render_iff v,
        plain_renderMembers_iff members, Value.textsOfMembers, List.forall_mem_cons,
        List.forall_mem_append]
      have hplain : ∀ s : String, (s : Text).Plain := Text.plain_ofString
      tauto

end

/-! ### Strings -/

section

variable {rules : Rules} {opening : List Char}

/-- The four digits of a control character, of which something follows. -/
theorem codeEscape_digits {n : Nat} (h : n < 0x20) {c : Char} {cs : List Char} :
    codeEscape rules (Hex.digits 4 n ++ c :: cs) = .ok (CodePoint.ofNat n, c :: cs) := by
  have hread : ∀ n < 0x20, Hex.toNat? (Hex.digits 4 n) = some n := by decide
  have hcode : code? (Hex.digits 4 n ++ c :: cs) = some (n, c :: cs) :=
    congrArg (Option.map (·, c :: cs)) (hread n h)
  rw [codeEscape, hcode]
  dsimp only
  rw [if_pos (.inl (by omega))]

/-- A quote ends the string. -/
theorem stringPoints_quote {fuel : Nat} {read : Text} {cs : List Char} :
    stringPoints rules opening (fuel + 1) read ('"' :: cs) = .ok (read.reverse, cs) := by
  rw [stringPoints.eq_def]
  rfl

/-- A character that needs no escape stands for itself. -/
theorem stringPoints_plain {c : Char} (hq : c ≠ '"') (hb : c ≠ '\\') (hc : ¬c.toNat < 0x20)
    {fuel : Nat} {read : Text} {cs : List Char} :
    stringPoints rules opening (fuel + 1) read (c :: cs) =
      stringPoints rules opening fuel (CodePoint.ofChar c :: read) cs := by
  rw [stringPoints.eq_def]
  dsimp only
  rw [if_neg hq, if_neg hb, if_neg hc]

/-- An escape by a code is read as the code point. -/
theorem stringPoints_code {p : CodePoint} {cs left : List Char}
    (h : codeEscape rules cs = .ok (p, left)) {fuel : Nat} {read : Text} :
    stringPoints rules opening (fuel + 1) read ('\\' :: 'u' :: cs) =
      stringPoints rules opening fuel (p :: read) left := by
  rw [stringPoints.eq_def]
  dsimp only
  rw [if_neg (by decide), if_pos rfl]
  simp only [h]

/-- One character within a string. -/
theorem stringPoints_escape (c : Char) {fuel : Nat} {read : Text} {d : Char}
    {cs : List Char} :
    stringPoints rules opening (fuel + 1) read (escape c ++ d :: cs) =
      stringPoints rules opening fuel (CodePoint.ofChar c :: read) (d :: cs) := by
  unfold escape
  split
  · next h => rcases h with rfl | rfl <;> rfl
  · next hq =>
      split
      · next h =>
          subst h
          rfl
      split
      · next h =>
          subst h
          rfl
      split
      · next h =>
          subst h
          rfl
      split
      · next h =>
          rw [← Char.ofNat_toNat c, h]
          rfl
      split
      · next h =>
          rw [← Char.ofNat_toNat c, h]
          rfl
      split
      · next h =>
          have hp : CodePoint.ofNat c.toNat = CodePoint.ofChar c := dif_pos (CodePoint.ofChar c).lt
          have hcode : codeEscape rules (Hex.digits 4 c.toNat ++ d :: cs) =
              .ok (CodePoint.ofChar c, d :: cs) := (codeEscape_digits h).trans (by rw [hp])
          exact stringPoints_code hcode
      · next h =>
          rw [not_or] at hq
          exact stringPoints_plain hq.1 hq.2 h

/-- The characters of a string and its closing quote. -/
theorem stringPoints_flatMap {fuel : Nat} {read : Text} {ds cs : List Char}
    (hf : ds.length < fuel) :
    stringPoints rules opening fuel read (ds.flatMap escape ++ '"' :: cs) =
      .ok (read.reverse ++ ds.map CodePoint.ofChar, cs) := by
  induction ds generalizing fuel read with
  | nil =>
      obtain ⟨fuel, rfl⟩ := Nat.exists_eq_succ_of_ne_zero (Nat.ne_zero_of_lt hf)
      rw [List.map_nil, List.append_nil]
      exact stringPoints_quote
  | cons d ds ih =>
      obtain ⟨fuel, rfl⟩ := Nat.exists_eq_succ_of_ne_zero (Nat.ne_zero_of_lt hf)
      obtain ⟨b, bs, hb⟩ : ∃ b bs, ds.flatMap escape ++ '"' :: cs = b :: bs :=
        List.exists_cons_of_ne_nil (List.append_ne_nil_of_right_ne_nil _ (List.cons_ne_nil _ _))
      rw [List.flatMap_cons, List.append_assoc, hb, stringPoints_escape, ← hb,
        ih (Nat.lt_of_succ_lt_succ hf), List.reverse_cons, List.append_assoc, List.map_cons,
        List.singleton_append]

/-- No character has an empty escape. -/
theorem length_flatMap_escape (cs : List Char) : cs.length ≤ (cs.flatMap escape).length := by
  induction cs with
  | nil => exact Nat.le_refl _
  | cons c cs ih =>
      have hpos : 0 < (escape c).length := by
        unfold escape
        repeat' split
        all_goals exact Nat.succ_pos _
      rw [List.length_cons, List.flatMap_cons, List.length_append]
      omega

/-- A string behind its opening quote. -/
theorem string_flatMap {t : Text} (h : t.Plain) (cs : List Char) :
    string rules (t.chars.flatMap escape ++ '"' :: cs) = .ok (t, cs) := by
  have hlen := length_flatMap_escape t.chars
  have hread : string rules (t.chars.flatMap escape ++ '"' :: cs) =
      .ok (Text.ofChars t.chars, cs) := by
    refine stringPoints_flatMap ?_
    rw [List.length_append, List.length_cons]
    omega
  rw [hread, Text.ofChars_chars h]

/-! ### Values -/

/-- A value begins with a character that is read as one. -/
theorem exists_head_of_value {fuel depth : Nat} {cs : List Char} {r : Value × List Char}
    (h : value rules fuel depth cs = .ok r) :
    ∃ c ds, cs = c :: ds ∧ isBlank c = false ∧ c ≠ ']' ∧ c ≠ '\ufeff' := by
  cases fuel with
  | zero => cases h
  | succ fuel =>
      cases cs with
      | nil => cases h
      | cons c ds =>
          refine ⟨c, ds, rfl, ?_, ?_, ?_⟩
          · by_contra hb
            rw [Bool.not_eq_false, isBlank] at hb
            simp only [Bool.or_eq_true, decide_eq_true_eq] at hb
            obtain ((rfl | rfl) | rfl) | rfl := hb <;> cases h
          · rintro rfl
            cases h
          · rintro rfl
            cases h

/-- In front of a value there are no blanks. -/
theorem skipBlanks_of_value {fuel depth : Nat} {cs : List Char} {r : Value × List Char}
    (h : value rules fuel depth cs = .ok r) : skipBlanks cs = cs := by
  obtain ⟨c, ds, rfl, hc, -⟩ := exists_head_of_value h
  rw [skipBlanks, List.dropWhile_cons_of_neg (by rw [hc]; decide)]

/-- What is read as a word or a number is read so as a value. -/
theorem value_of_scalar {cs left : List Char} {v : Value}
    (h : scalar rules cs = .ok (v, left)) {fuel depth : Nat} :
    value rules (fuel + 1) depth cs = .ok (v, left) := by
  rw [value.eq_5, h]
  all_goals
    rintro _ rfl
    cases h

/-! ### Items and members -/

variable {fuel depth : Nat} {cs left : List Char} {v : Value}

theorem quotedChars_append (t : Text) (cs : List Char) :
    quotedChars t ++ cs = '"' :: (t.chars.flatMap escape ++ '"' :: cs) := by
  rw [quotedChars, List.cons_append, List.append_assoc, List.singleton_append]

/-- An item is the last if a bracket follows. -/
theorem items_last {read : List Value}
    (h : value rules fuel depth cs = .ok (v, ']' :: left)) :
    items rules (fuel + 1) depth read cs = .ok (.list (v :: read).reverse, left) := by
  rw [items.eq_2, h]
  rfl

/-- An item is followed by others if a comma does. -/
theorem items_next {read : List Value}
    (h : value rules fuel depth cs = .ok (v, ',' :: ' ' :: left))
    (hl : skipBlanks left = left) :
    items rules (fuel + 1) depth read cs = items rules fuel depth (v :: read) left := by
  rw [items.eq_2, h]
  show items rules fuel depth (v :: read) (skipBlanks left) = _
  rw [hl]

variable {read : Fields} {name : Text}

/-- A member is read up to its value, and from there on as an item is. -/
theorem members_quoted (hname : name.Plain) (hc : skipBlanks cs = cs) :
    members rules (fuel + 1) depth read (quotedChars name ++ ':' :: ' ' :: cs) =
      match value rules fuel depth cs with
      | .error e => .error e
      | .ok (v, left) =>
          match skipBlanks left with
          | '\x7d' :: left => .ok (.map ((name, v) :: read).reverse, left)
          | ',' :: left => members rules fuel depth ((name, v) :: read) (skipBlanks left)
          | left => .error ⟨.expectedComma, left⟩ := by
  nth_rewrite 2 [← hc]
  rw [quotedChars_append, members.eq_2, string_flatMap hname]
  rfl

/-- A member is the last if a brace follows. -/
theorem members_last (hname : name.Plain) (hc : skipBlanks cs = cs)
    (h : value rules fuel depth cs = .ok (v, '\x7d' :: left)) :
    members rules (fuel + 1) depth read (quotedChars name ++ ':' :: ' ' :: cs) =
      .ok (.map ((name, v) :: read).reverse, left) := by
  rw [members_quoted hname hc, h]
  rfl

/-- A member is followed by others if a comma does. -/
theorem members_next (hname : name.Plain) (hc : skipBlanks cs = cs)
    (h : value rules fuel depth cs = .ok (v, ',' :: ' ' :: left))
    (hl : skipBlanks left = left) :
    members rules (fuel + 1) depth read (quotedChars name ++ ':' :: ' ' :: cs) =
      members rules fuel depth ((name, v) :: read) left := by
  rw [members_quoted hname hc, h]
  show members rules fuel depth ((name, v) :: read) (skipBlanks left) = _
  rw [hl]

/-- A list that is not empty. -/
theorem value_list (hn : rules.nesting? = none) {r : Value × List Char} {fuel' depth' : Nat}
    (h : value rules fuel' depth' cs = .ok r) :
    value rules (fuel + 1) depth ('[' :: cs) = items rules fuel (depth + 1) [] cs := by
  have hin : rules.allowsInside depth = true := by rw [Rules.allowsInside, hn]
  obtain ⟨c, ds, hcs, -, hne, -⟩ := exists_head_of_value h
  rw [value.eq_3, skipBlanks_of_value h, hcs]
  split
  · next he => exact absurd (List.cons.inj he).1 hne
  · rw [if_pos hin]

/-- A map that is not empty. -/
theorem value_map (hn : rules.nesting? = none) (name : Text) :
    value rules (fuel + 1) depth ('\x7b' :: (quotedChars name ++ cs)) =
      members rules fuel (depth + 1) [] (quotedChars name ++ cs) := by
  have hin : rules.allowsInside depth = true := by rw [Rules.allowsInside, hn]
  rw [quotedChars_append, value.eq_4]
  show (if rules.allowsInside depth = true then members rules fuel (depth + 1) []
    ('"' :: (name.chars.flatMap escape ++ '"' :: cs)) else _) = _
  rw [if_pos hin]

/-- A number with few digits is not refused. -/
theorem Rules.refusal?_eq_none {isFloat : Bool} {digits : Nat}
    (h : ∀ limit, rules.digits? = some limit → digits ≤ limit.most) :
    rules.refusal? isFloat digits = none := by
  unfold refusal?
  split
  · rfl
  · next limit hl =>
      rw [decide_eq_true (h limit hl), Bool.or_true, if_pos rfl]

/-- None of these integers has too many digits. -/
def Rules.Allow (rules : Rules) (integers : List Int) : Prop :=
  ∀ i ∈ integers, rules.refusal? false (Decimal.length i.natAbs) = none

theorem Rules.allow_append {is js : List Int} (h : rules.Allow (is ++ js)) :
    rules.Allow is ∧ rules.Allow js :=
  ⟨fun i hi => h i (List.mem_append_left _ hi), fun i hi => h i (List.mem_append_right _ hi)⟩

/-- Behind an item a number would be at its end. -/
theorem stops_itemChars (vs : List Value) (cs : List Char) : Stops (itemChars vs ++ cs) := by
  cases vs with
  | nil => exact ⟨by rintro c ⟨⟩; rfl, by rintro c ⟨⟩; decide⟩
  | cons v vs =>
      rw [itemChars_cons]
      exact ⟨by rintro c ⟨⟩; rfl, by rintro c ⟨⟩; decide⟩

/-- Behind a member a number would be at its end. -/
theorem stops_memberChars (ms : Fields) (cs : List Char) : Stops (memberChars ms ++ cs) := by
  cases ms with
  | nil => exact ⟨by rintro c ⟨⟩; rfl, by rintro c ⟨⟩; decide⟩
  | cons m ms =>
      obtain ⟨name, v⟩ := m
      rw [memberChars_cons]
      exact ⟨by rintro c ⟨⟩; rfl, by rintro c ⟨⟩; decide⟩

theorem length_itemChars_pos (vs : List Value) : 0 < (itemChars vs).length := by
  cases vs with
  | nil => exact Nat.succ_pos _
  | cons v vs =>
      rw [itemChars_cons]
      exact Nat.succ_pos _

/-- What every value, item and member is read as within `fuel` steps, if its characters are fewer.
-/
structure Reads (rules : Rules) (fuel : Nat) : Prop where
  value : ∀ (v : Value) (depth : Nat) (cs : List Char), rules.Allow v.integers →
    (∀ t ∈ v.texts, t.Plain) → Stops cs → (chars v).length < fuel →
    value rules fuel depth (chars v ++ cs) = .ok (v.quieted, cs)
  items : ∀ (v : Value) (vs : List Value) (read : List Value) (depth : Nat) (cs : List Char),
    rules.Allow (v.integers ++ Value.integersOfItems vs) →
    (∀ t ∈ v.texts ++ Value.textsOfItems vs, t.Plain) →
    (chars v ++ itemChars vs).length < fuel →
    items rules fuel depth read (chars v ++ (itemChars vs ++ cs)) =
      .ok (.list (read.reverse ++ v.quieted :: Value.quietedItems vs), cs)
  members : ∀ (name : Text) (v : Value) (ms read : Fields) (depth : Nat) (cs : List Char),
    rules.Allow (v.integers ++ Value.integersOfMembers ms) →
    (∀ t ∈ name :: (v.texts ++ Value.textsOfMembers ms), t.Plain) →
    (quotedChars name ++ ':' :: ' ' :: (chars v ++ memberChars ms)).length < fuel →
    members rules fuel depth read
        (quotedChars name ++ ':' :: ' ' :: (chars v ++ (memberChars ms ++ cs))) =
      .ok (.map (read.reverse ++ (name, v.quieted) :: Value.quietedMembers ms), cs)

namespace Reads

theorem zero : Reads rules 0 where
  value _ _ _ _ _ _ h := absurd h (Nat.not_lt_zero _)
  items _ _ _ _ _ _ _ h := absurd h (Nat.not_lt_zero _)
  members _ _ _ _ _ _ _ _ h := absurd h (Nat.not_lt_zero _)

/-- An item with those behind it. -/
theorem items_succ (ih : Reads rules fuel) (v : Value) (vs read : List Value) (depth : Nat)
    (cs : List Char) (hi : rules.Allow (v.integers ++ Value.integersOfItems vs))
    (ht : ∀ t ∈ v.texts ++ Value.textsOfItems vs, t.Plain)
    (hf : (chars v ++ itemChars vs).length < fuel + 1) :
    Json.items rules (fuel + 1) depth read (chars v ++ (itemChars vs ++ cs)) =
      .ok (.list (read.reverse ++ v.quieted :: Value.quietedItems vs), cs) := by
  obtain ⟨hv, hvs⟩ := Rules.allow_append hi
  obtain ⟨htv, htvs⟩ := List.forall_mem_append.mp ht
  have hpos := length_itemChars_pos vs
  rw [List.length_append] at hf
  have hread := ih.value v depth _ hv htv (stops_itemChars vs cs) (by omega)
  cases vs with
  | nil =>
      have hend : itemChars [] ++ cs = ']' :: cs := rfl
      rw [hend] at hread ⊢
      rw [items_last hread, List.reverse_cons, Value.quietedItems]
  | cons w ws =>
      rw [itemChars_cons] at hf hread ⊢
      rw [List.length_cons, List.length_cons] at hf
      have hrest := ih.items w ws (v.quieted :: read) depth cs hvs htvs (by omega)
      rw [List.length_append] at hf
      have hnext := skipBlanks_of_value
        (ih.value w depth _ (Rules.allow_append hvs).1 (List.forall_mem_append.mp htvs).1
          (stops_itemChars ws cs) (by omega))
      rw [List.cons_append, List.cons_append, List.append_assoc] at hread ⊢
      rw [items_next hread hnext, hrest, List.reverse_cons, List.append_assoc,
        List.singleton_append, Value.quietedItems]

/-- A member with those behind it. -/
theorem members_succ (ih : Reads rules fuel) (name : Text) (v : Value) (ms read : Fields)
    (depth : Nat) (cs : List Char) (hi : rules.Allow (v.integers ++ Value.integersOfMembers ms))
    (ht : ∀ t ∈ name :: (v.texts ++ Value.textsOfMembers ms), t.Plain)
    (hf : (quotedChars name ++ ':' :: ' ' :: (chars v ++ memberChars ms)).length < fuel + 1) :
    Json.members rules (fuel + 1) depth read
        (quotedChars name ++ ':' :: ' ' :: (chars v ++ (memberChars ms ++ cs))) =
      .ok (.map (read.reverse ++ (name, v.quieted) :: Value.quietedMembers ms), cs) := by
  obtain ⟨hv, hms⟩ := Rules.allow_append hi
  obtain ⟨hname, ht⟩ := List.forall_mem_cons.mp ht
  obtain ⟨htv, htms⟩ := List.forall_mem_append.mp ht
  rw [List.length_append, List.length_cons, List.length_cons, List.length_append] at hf
  have hread := ih.value v depth _ hv htv (stops_memberChars ms cs) (by omega)
  have hskip := skipBlanks_of_value hread
  cases ms with
  | nil =>
      have hend : memberChars [] ++ cs = '\x7d' :: cs := rfl
      rw [hend] at hread hskip ⊢
      rw [members_last hname hskip hread, List.reverse_cons, Value.quietedMembers]
  | cons m ms =>
      obtain ⟨other, w⟩ := m
      rw [memberChars_cons] at hf hread hskip ⊢
      rw [List.length_cons, List.length_cons] at hf
      have hrest := ih.members other w ms ((name, v.quieted) :: read) depth cs hms htms (by omega)
      have happend : (quotedChars other ++ ':' :: ' ' :: (chars w ++ memberChars ms)) ++ cs =
          quotedChars other ++ ':' :: ' ' :: (chars w ++ (memberChars ms ++ cs)) := by
        rw [List.append_assoc, List.cons_append, List.cons_append, List.append_assoc]
      rw [List.cons_append, List.cons_append, happend] at hread hskip ⊢
      rw [members_next hname hskip hread rfl, hrest, List.reverse_cons, List.append_assoc,
        List.singleton_append, Value.quietedMembers]

/-- A value, by what its first character says. -/
theorem value_succ (hn : rules.nesting? = none)
    (hr : ∀ count ≤ 16, rules.refusal? true count = none) (ih : Reads rules fuel) (v : Value)
    (depth : Nat) (cs : List Char) (hi : rules.Allow v.integers) (ht : ∀ t ∈ v.texts, t.Plain)
    (hc : Stops cs) (hf : (chars v).length < fuel + 1) :
    Json.value rules (fuel + 1) depth (chars v ++ cs) = .ok (v.quieted, cs) := by
  cases v with
  | null => exact value_of_scalar (scalar_null cs)
  | bool b => exact value_of_scalar (scalar_bool b cs)
  | int i => exact value_of_scalar (scalar_int i hc (hi i List.mem_cons_self))
  | float x => exact value_of_scalar (scalar_float x hc hr)
  | text t =>
      rw [chars, render, chars_quoted, quotedChars_append, value.eq_2,
        string_flatMap (ht t List.mem_cons_self)]
      rfl
  | list items =>
      cases items with
      | nil => rfl
      | cons v vs =>
          rw [chars_list, List.length_cons] at hf
          have hpos := length_itemChars_pos vs
          have hread := ih.items v vs [] (depth + 1) cs hi ht (by omega)
          rw [List.length_append] at hf
          have hfirst := ih.value v depth _ (Rules.allow_append hi).1
            (List.forall_mem_append.mp ht).1 (stops_itemChars vs cs) (by omega)
          rw [chars_list, List.cons_append, List.append_assoc, value_list hn hfirst, hread]
          rfl
  | map members =>
      cases members with
      | nil => rfl
      | cons m ms =>
          obtain ⟨name, v⟩ := m
          rw [chars_map, List.length_cons] at hf
          have hread := ih.members name v ms [] (depth + 1) cs hi ht (by omega)
          rw [chars_map, List.cons_append, List.append_assoc, List.cons_append,
            List.cons_append, List.append_assoc, value_map hn, hread]
          rfl

theorem all (hn : rules.nesting? = none) (hr : ∀ count ≤ 16, rules.refusal? true count = none) :
    ∀ fuel, Reads rules fuel
  | 0 => zero
  | fuel + 1 =>
      have ih := all hn hr fuel
      ⟨ih.value_succ hn hr, ih.items_succ, ih.members_succ⟩

end Reads

end

/-- A value has a text if all its integers have numerals. -/
theorem print_eq_ok_iff {v : Value} {text : Text} :
    print v = .ok text ↔ (∀ i ∈ v.integers, Numeral.Short i) ∧ render v = text := by
  rw [print]
  cases hfind : v.integers.find? fun i => !decide (Numeral.Short i) with
  | some i =>
      have hlong : ¬ Numeral.Short i := by simpa using List.find?_some hfind
      refine ⟨(nomatch ·), fun ⟨hshort, _⟩ => ?_⟩
      exact absurd (hshort i (List.mem_of_find?_eq_some hfind)) hlong
  | none =>
      have hshort : ∀ i ∈ v.integers, Numeral.Short i := by simpa using hfind
      exact ⟨fun h => ⟨hshort, Except.ok.inj h⟩, fun ⟨_, h⟩ => congrArg Except.ok h⟩

/-- The text of a value is read as this value, if there is no surrogate in it. -/
theorem read_print {rules : Rules} (hn : rules.nesting? = none)
    (hr : ∀ count ≤ 16, rules.refusal? true count = none) {v : Value}
    (hi : rules.Allow v.integers) (ht : ∀ t ∈ v.texts, t.Plain) :
    read (String.ofList (chars v)) rules = .ok v.quieted := by
  have hstops : Stops [] := ⟨by rintro c ⟨⟩, by rintro c ⟨⟩⟩
  have hvalue := (Reads.all hn hr (2 * (chars v).length + 2)).value v 0 [] hi ht hstops (by omega)
  rw [List.append_nil] at hvalue
  have hdocument : document rules (chars v) = .ok v.quieted := by
    obtain ⟨c, ds, hcs, -, -, hmark⟩ := exists_head_of_value hvalue
    rw [document.eq_2 _ _ fun _ he => hmark (List.cons.inj (hcs.symm.trans he)).1,
      skipBlanks_of_value hvalue, hvalue]
    rfl
  rw [read, String.toList_ofList, hdocument]

end Json

/-! ### The text of a value that was read -/

/-- What is no number stays so. -/
theorem Binary64.isNaN_quieted (x : Binary64) : x.quieted.isNaN = x.isNaN := by
  rw [quieted]
  split
  · next h => rw [h]; rfl
  · rfl

namespace Json

theorem render_float_quieted (x : Binary64) :
    render (.float x.quieted) = render (.float x) := by
  by_cases h : x.isNaN = true
  · have hq : x.quieted.isNaN = true := by rw [Binary64.isNaN_quieted, h]
    rw [render, render, FloatStyle.render, FloatStyle.render, if_pos h, if_pos hq]
  · rw [Binary64.quieted, if_neg h]

mutual

/-- A value has the same text if all that is no number is the same in it. -/
theorem render_quieted : ∀ v : Value, render v.quieted = render v
  | .null | .bool _ | .int _ | .text _ => rfl
  | .float x => render_float_quieted x
  | .list [] | .map [] => rfl
  | .list (v :: items) => by
      rw [Value.quieted, Value.quietedItems, render, render, render_quieted v,
        renderItems_quieted items]
  | .map ((name, v) :: members) => by
      rw [Value.quieted, Value.quietedMembers, render, render, render_quieted v,
        renderMembers_quieted members]

theorem renderItems_quieted : ∀ items : List Value,
    renderItems (Value.quietedItems items) = renderItems items
  | [] => rfl
  | v :: items => by
      rw [Value.quietedItems, renderItems, renderItems, render_quieted v, renderItems_quieted items]

theorem renderMembers_quieted : ∀ members : Fields,
    renderMembers (Value.quietedMembers members) = renderMembers members
  | [] => rfl
  | (name, v) :: members => by
      rw [Value.quietedMembers, renderMembers, renderMembers, render_quieted v,
        renderMembers_quieted members]

end

end Json

end WireSchema
