import WireSchema.Proofs.Json.Short
import WireSchema.Proofs.Schema.Payload

/-!
# Schema — What a payload can say

A schema that comes from a payload is regular (`regular_of_ofPayload`): no union in it has two cases
of one label, as a map that is read is left with one member of every name, and what it says is in
the vocabulary of the payload, if the reading spells (`Reading.Spells`). For what is no integer may
stand for one, a text or a double, but a text only if it has few digits and a double only if 64 bits
hold it. What a regular schema is written as is in the same vocabulary (`Regular.within`).

Reading goes from the leaves up, and what is worked out for a member of a map is part of it
(`Payload.Member`). So the induction is on values, and what it shows of a value is what its member
knows: the value itself, and what it says as a type and as the cases of a union (`Member.Regular`).
-/

namespace WireSchema

/-! ### Parts that were read -/

namespace Checked

variable {α β : Type}

theorem under_eq_ok {x : Checked α} {key : Text} {a : α} : x.under key = ok a ↔ x = ok a := by
  cases x with
  | ok b => exact Iff.rfl
  | bad problems => exact ⟨(nomatch ·), (nomatch ·)⟩

/-- What is made of one part is there if the part is. -/
theorem map_eq_ok {f : α → β} {x : Checked α} {b : β} :
    f <$> x = ok b ↔ ∃ a, x = ok a ∧ f a = b := by
  cases x with
  | ok a =>
      refine ⟨fun h => ⟨a, rfl, ok.inj h⟩, fun ⟨_, ha, hb⟩ => ?_⟩
      cases ha
      exact congrArg ok hb
  | bad problems => exact ⟨(nomatch ·), fun ⟨_, h, _⟩ => nomatch h⟩

/-- What is made of two parts is there if both are. -/
theorem seq_eq_ok {f : Checked (α → β)} {x : Checked α} {b : β} :
    f <*> x = ok b ↔ ∃ g a, f = ok g ∧ x = ok a ∧ g a = b := by
  constructor
  · intro h
    cases f with
    | ok g =>
        cases x with
        | ok a => exact ⟨g, a, rfl, rfl, ok.inj h⟩
        | bad problems => cases h
    | bad problems => cases x <;> cases h
  · rintro ⟨g, a, rfl, rfl, rfl⟩
    rfl

/-- All parts were read, if all of them together were. -/
theorem mem_of_all {xs : List (Checked α)} {as : List α} (h : all xs = ok as) :
    ∀ a ∈ as, ok a ∈ xs := by
  induction xs generalizing as with
  | nil =>
      cases h
      exact fun _ ha => nomatch ha
  | cons x xs ih =>
      obtain ⟨f, bs, hx, hxs, rfl⟩ := seq_eq_ok.mp h
      obtain ⟨b, rfl, rfl⟩ := map_eq_ok.mp hx
      intro a ha
      rcases List.mem_cons.mp ha with rfl | ha
      · exact List.mem_cons_self
      · exact List.mem_cons_of_mem _ (ih hxs a ha)

theorem ofExcept_eq_ok {x : Except ProblemKind α} {a : α} : ofExcept x = ok a ↔ x = .ok a := by
  cases x with
  | ok b => exact ⟨fun h => by cases h; rfl, fun h => by cases h; rfl⟩
  | error kind => exact ⟨(nomatch ·), (nomatch ·)⟩

end Checked

namespace Fields

variable {α : Type}

/-- What is put is among the fields, and nothing else is new. -/
theorem mem_of_mem_put {fields : List (Text × α)} {name : Text} {a : α} {p : Text × α}
    (h : p ∈ put fields name a) : p = (name, a) ∨ p ∈ fields := by
  induction fields with
  | nil => exact .inl (List.mem_singleton.mp h)
  | cons head fields ih =>
      obtain ⟨n, b⟩ := head
      rw [put] at h
      split at h
      · next hn =>
          rcases List.mem_cons.mp h with rfl | h
          · exact .inl (by rw [hn])
          · exact .inr (List.mem_cons_of_mem _ h)
      · rcases List.mem_cons.mp h with rfl | h
        · exact .inr List.mem_cons_self
        · exact (ih h).imp_right (List.mem_cons_of_mem _)

/-- Only what was there is left. -/
theorem mem_of_mem_ofPairs {pairs : List (Text × α)} : ∀ p ∈ ofPairs pairs, p ∈ pairs := by
  refine List.foldlRecOn (motive := fun fields => ∀ p ∈ fields, p ∈ pairs) pairs _
    (List.forall_mem_nil _) fun fields ih head hhead p hp => ?_
  rcases mem_of_mem_put hp with rfl | hp
  · exact hhead
  · exact ih p hp

/-- What is put under a name that is there changes no name. -/
theorem names_put_of_mem {fields : List (Text × α)} {name : Text} {a : α}
    (h : name ∈ fields.map (·.1)) : (put fields name a).map (·.1) = fields.map (·.1) := by
  induction fields with
  | nil => exact nomatch h
  | cons head fields ih =>
      obtain ⟨n, b⟩ := head
      rw [put]
      split
      · rfl
      · next hn =>
          have hrest := (List.mem_cons.mp h).resolve_left (Ne.symm hn)
          rw [List.map_cons, List.map_cons, ih hrest]

/-- Names that do not repeat still do not when one is put. -/
theorem nodup_put {fields : List (Text × α)} {name : Text} {a : α}
    (h : (fields.map (·.1)).Nodup) : ((put fields name a).map (·.1)).Nodup := by
  by_cases hm : name ∈ fields.map (·.1)
  · rw [names_put_of_mem hm]
    exact h
  · rw [put_of_notMem hm, List.map_append, List.map_singleton]
    refine List.nodup_append.mpr ⟨h, List.pairwise_singleton _ _, ?_⟩
    rintro n hn m hmem rfl
    cases List.mem_singleton.mp hmem
    exact hm hn

/-- No name is left twice. -/
theorem nodup_ofPairs (pairs : List (Text × α)) : ((ofPairs pairs).map (·.1)).Nodup := by
  refine List.foldlRecOn (motive := fun fields : List (Text × α) => (fields.map (·.1)).Nodup)
    pairs _ ?_ fun _ ih _ _ => nodup_put ih
  exact List.nodup_nil

end Fields

/-! ### Scalars -/

/-- What is no integer and is read as one is read as a short one, and what is no text and is read as
one as a plain one. -/
structure Reading.Spells (reading : Reading) : Prop where
  integer {v : Value} {i : Int} (h : reading.integer v = .ok i) : i ∈ v.integers ∨ Numeral.Short i
  text {v : Value} {t : Text} (h : reading.text v = .ok t) : t ∈ v.texts ∨ t.Plain

namespace Coerce

/-- What is read as an integer is one, or is short. -/
theorem short_of_integer {v : Value} {i : Int} (h : integer v = .ok i) :
    i ∈ v.integers ∨ Numeral.Short i := by
  cases v with
  | int j =>
      cases h
      exact .inl List.mem_cons_self
  | bool b =>
      cases h
      refine .inr (Numeral.short_of_le ?_)
      cases b <;> decide
  | float x =>
      refine .inr (Numeral.short_of_le ?_)
      simp only [integer, integerOfFloat] at h
      split at h
      · cases h
      · split at h
        · cases h
        · split at h
          · next hlt =>
              cases h
              exact Nat.le_trans (Nat.le_of_lt hlt) (by decide)
          · cases h
  | text t =>
      simp only [integer, spelled] at h
      cases hs : t.string? with
      | none =>
          rw [hs] at h
          cases h
      | some s =>
          rw [hs] at h
          exact .inr (Spelling.short_of_integer h)
  | null | list | map => cases h

end Coerce

/-- The loose reading spells: only integers, truth values, doubles and texts stand for integers, and
only texts for texts. -/
theorem Reading.spells_lax (nesting? : Option Nat) : (lax nesting?).Spells where
  integer h := Coerce.short_of_integer h
  text {v t} h := by
    cases v with
    | text t' =>
        cases h
        exact .inl List.mem_cons_self
    | _ => cases h

/-! ### Types -/

namespace Payload

section

variable {α : Type} {ms : Members} {name : Text} {names : List Text} {a : α}
  {read : Member → Checked α}

theorem mem_of_find? {m : Member} (h : find? ms names = some (name, m)) : (name, m) ∈ ms := by
  obtain ⟨n, -, hn⟩ := List.exists_of_findSome?_eq_some h
  obtain ⟨m', hm, heq⟩ := Option.map_eq_some_iff.mp hn
  cases heq
  exact Fields.mem_of_get? hm

/-- A member that must be there was read from one that is. -/
theorem exists_of_required (h : required ms names read = .ok a) :
    ∃ name m, (name, m) ∈ ms ∧ read m = .ok a := by
  unfold required at h
  split at h
  · next name m hm => exact ⟨name, m, mem_of_find? hm, Checked.under_eq_ok.mp h⟩
  · cases h

/-- A member that need not be there was read, or has its default. -/
theorem exists_of_optional {default : α} (h : optional ms name default read = .ok a) :
    a = default ∨ ∃ m, (name, m) ∈ ms ∧ read m = .ok a := by
  unfold optional at h
  split at h
  · next m hm => exact .inr ⟨m, Fields.mem_of_get? hm, Checked.under_eq_ok.mp h⟩
  · cases h
    exact .inl rfl

/-- What a member says that may be null was read from one that is there. -/
theorem exists_of_nullable {a? : Option α} (h : nullable ms name read = .ok a?) (ha : a? = some a) :
    ∃ m, (name, m) ∈ ms ∧ read m = .ok a := by
  rcases exists_of_optional h with rfl | ⟨m, hm, hread⟩
  · cases ha
  · refine ⟨m, hm, ?_⟩
    split at hread
    · cases hread
      cases ha
    · obtain ⟨b, hb, rfl⟩ := Checked.map_eq_ok.mp hread
      cases ha
      exact hb

end

/-- What is read by its tag is read in one of the ways there are. -/
theorem exists_of_tagged {α : Type} {name : Text} {readers : List (Text × (Members → Checked α))}
    {ms : Members} {a : α} (h : tagged name readers ms = .ok a) :
    ∃ tag read, (tag, read) ∈ readers ∧ read ms = .ok a := by
  unfold tagged at h
  split at h
  · cases h
  · next tag _ =>
      split at h
      · next read hread =>
          exact ⟨tag, read, Fields.mem_of_get? hread, Checked.under_eq_ok.mp h⟩
      · cases h
  · cases h

variable {P : Vocabulary}

/-- What a map without types says, its members say. -/
theorem within_of_mem_plainMembers {members : Fields} (h : (Value.map members).Within P) :
    ∀ name m, (name, m) ∈ plainMembers members → m.value.Within P := by
  intro name m hm
  obtain ⟨⟨n, v⟩, hv, heq⟩ := List.mem_map.mp hm
  cases heq
  exact (Value.within_map_iff.mp h _ (Fields.mem_of_mem_ofPairs _ hv)).2

/-- What a member says is in the vocabulary, and what it says as types is regular. -/
structure Member.Regular (P : Vocabulary) (m : Member) : Prop where
  value : m.value.Within P
  asType : ∀ t, m.asType = .ok t → t.Regular P
  asCases : ∀ label t, (label, .ok t) ∈ m.asCases → P.text label ∧ t.Regular P

variable {reading : Reading} {source : PayloadSource}

section

variable (hreading : reading.Spells) (hP : P.Wide)

section

variable {ms : Members} (hms : ∀ name m, (name, m) ∈ ms → m.value.Within P)

include hreading hP

/-- An integer that is read is in every vocabulary that the value is within. -/
theorem holds_of_integer {v : Value} {i : Int} (hv : v.Within P) (h : reading.integer v = .ok i) :
    P.integer i :=
  (hreading.integer h).elim (hv.integers i) hP.integer

/-- A text that is read is in every vocabulary that the value is within. -/
theorem holds_of_text {v : Value} {t : Text} (hv : v.Within P) (h : reading.text v = .ok t) :
    P.text t :=
  (hreading.text h).elim (hv.texts t) hP.text

include hms

/-- So is the text of a member that must be there. -/
theorem holds_of_required {names : List Text} {t : Text}
    (h : required ms names (readText reading) = .ok t) : P.text t := by
  obtain ⟨_, m, hm, hread⟩ := exists_of_required h
  exact holds_of_text hreading hP (hms _ m hm) (Checked.ofExcept_eq_ok.mp hread)

/-- So is that of a member that may be null. -/
theorem holds_of_nullable {name : Text} {t? : Option Text}
    (h : nullable ms name (readText reading) = .ok t?) : ∀ t, t? = some t → P.text t := by
  intro t ht
  obtain ⟨m, hm, hread⟩ := exists_of_nullable h ht
  exact holds_of_text hreading hP (hms _ m hm) (Checked.ofExcept_eq_ok.mp hread)

theorem regular_of_readStatic {length : ArrayLength} (h : readStatic reading ms = .ok length) :
    length.Regular P := by
  simp only [readStatic, Checked.seq_eq_ok, Checked.map_eq_ok] at h
  obtain ⟨_, _, ⟨count, hcount, rfl⟩, _, rfl⟩ := h
  obtain ⟨_, m, hm, hread⟩ := exists_of_required hcount
  unfold readCount at hread
  split at hread
  · next i hi =>
      split at hread
      · cases hread
      · next hpos =>
          cases hread
          rw [ArrayLength.Regular, Int.toNat_of_nonneg (Int.not_lt.mp hpos)]
          exact holds_of_integer hreading hP (hms _ m hm) hi
  · cases hread

theorem regular_of_readDynamic {length : ArrayLength} (h : readDynamic reading ms = .ok length) :
    length.Regular P := by
  simp only [readDynamic, Checked.seq_eq_ok, Checked.map_eq_ok] at h
  obtain ⟨_, _, ⟨field, hfield, rfl⟩, _, rfl⟩ := h
  exact holds_of_required hreading hP hms hfield

omit hms in
/-- The length of an array says a count or a name that its payload says. -/
theorem regular_of_readLength {m : Member} {length : ArrayLength} (hm : m.value.Within P)
    (h : readLength reading source m = .ok length) : length.Regular P := by
  unfold readLength at h
  split at h
  · next members hmap =>
      rw [hmap] at hm
      have hms := within_of_mem_plainMembers hm
      obtain ⟨tag, read, htag, hread⟩ := exists_of_tagged h
      rcases List.mem_cons.mp htag with heq | htag
      · cases heq
        exact regular_of_readStatic hreading hP hms hread
      · cases List.mem_singleton.mp htag
        exact regular_of_readDynamic hreading hP hms hread
  · cases h

variable {t : FieldType}

theorem regular_of_readInt (h : readInt reading ms = .ok t) : t.Regular P := by
  simp only [readInt, Checked.seq_eq_ok, Checked.map_eq_ok] at h
  obtain ⟨_, _, ⟨_, _, ⟨_, _, ⟨_, _, rfl⟩, _, rfl⟩, hdefault, rfl⟩, _, rfl⟩ := h
  refine .int fun i hi => ?_
  obtain ⟨m, hm, hread⟩ := exists_of_nullable hdefault hi
  exact holds_of_integer hreading hP (hms _ m hm) (Checked.ofExcept_eq_ok.mp hread)

omit hreading hP hms in
theorem regular_of_readFloatType {width : FloatWidth}
    (h : readFloatType reading source width ms = .ok t) : t.Regular P := by
  simp only [readFloatType, Checked.seq_eq_ok, Checked.map_eq_ok] at h
  obtain ⟨_, _, ⟨_, _, rfl⟩, _, rfl⟩ := h
  exact .float

theorem regular_of_readTextType {charset : Charset} (h : readTextType reading charset ms = .ok t) :
    t.Regular P := by
  simp only [readTextType, Checked.seq_eq_ok, Checked.map_eq_ok] at h
  obtain ⟨_, _, ⟨_, hdefault, rfl⟩, _, rfl⟩ := h
  exact .text (holds_of_nullable hreading hP hms hdefault)

theorem regular_of_readEnumType (h : readEnumType reading ms = .ok t) : t.Regular P := by
  simp only [readEnumType, Checked.seq_eq_ok, Checked.map_eq_ok] at h
  obtain ⟨_, _, ⟨_, _, ⟨_, _, ⟨_, _, ⟨_, hname, rfl⟩, _, rfl⟩, _, rfl⟩, hdefault, rfl⟩, _, rfl⟩ := h
  exact .enum (holds_of_required hreading hP hms hname)
    (holds_of_nullable hreading hP hms hdefault)

theorem regular_of_readStructType (h : readStructType reading ms = .ok t) : t.Regular P := by
  simp only [readStructType, Checked.seq_eq_ok, Checked.map_eq_ok] at h
  obtain ⟨_, _, ⟨_, hname, rfl⟩, _, rfl⟩ := h
  exact .struct (holds_of_required hreading hP hms hname)

end

section

variable {ms : Members} {t : FieldType} (hms : ∀ name m, (name, m) ∈ ms → m.Regular P)

include hreading hP hms

theorem regular_of_readArray (h : readArray reading source ms = .ok t) : t.Regular P := by
  simp only [readArray, Checked.seq_eq_ok, Checked.map_eq_ok] at h
  obtain ⟨_, _, ⟨_, _, ⟨_, helement, rfl⟩, hlength, rfl⟩, _, rfl⟩ := h
  obtain ⟨_, m, hm, htype⟩ := exists_of_required helement
  obtain ⟨_, n, hn, hread⟩ := exists_of_required hlength
  exact .array ((hms _ m hm).asType _ htype)
    (regular_of_readLength hreading hP (hms _ n hn).value hread)

/-- The cases of a union are those of one member, and each has a label of its own. -/
theorem regular_of_readUnion (h : readUnion reading ms = .ok t) : t.Regular P := by
  have hvalues : ∀ name m, (name, m) ∈ ms → m.value.Within P := fun _ m hm => (hms _ m hm).value
  simp only [readUnion, Checked.seq_eq_ok, Checked.map_eq_ok] at h
  obtain ⟨_, _, ⟨_, cases, ⟨_, _, ⟨_, hdiscriminant, rfl⟩, hname, rfl⟩, hcases, rfl⟩, _, rfl⟩ := h
  obtain ⟨_, m, hm, hread⟩ := exists_of_required hcases
  unfold readCases at hread
  split at hread
  · obtain ⟨pairs, hpairs, rfl⟩ := Checked.map_eq_ok.mp hread
    have hall : ∀ label t, (label, t) ∈ Fields.ofPairs pairs → P.text label ∧ t.Regular P := by
      intro label t ht
      have hmem := Checked.mem_of_all hpairs _ (Fields.mem_of_mem_ofPairs _ ht)
      obtain ⟨⟨l, x⟩, hx, heq⟩ := List.mem_map.mp hmem
      obtain ⟨t', rfl, heq⟩ := Checked.map_eq_ok.mp (Checked.under_eq_ok.mp heq)
      cases heq
      exact (hms _ m hm).asCases label t hx
    exact .union (holds_of_required hreading hP hvalues hdiscriminant)
      (holds_of_required hreading hP hvalues hname) (Fields.nodup_ofPairs pairs)
      (fun label t ht => (hall label t ht).1) (fun label t ht => (hall label t ht).2)
  · cases hread

/-- Whichever reader the tag names, what it reads is regular. -/
theorem regular_of_readTagged (h : readTagged reading source ms = .ok t) : t.Regular P := by
  have hvalues : ∀ name m, (name, m) ∈ ms → m.value.Within P := fun _ m hm => (hms _ m hm).value
  obtain ⟨tag, read, htag, hread⟩ := exists_of_tagged h
  simp only [typeReaders, List.mem_cons, List.not_mem_nil, or_false, Prod.mk.injEq] at htag
  obtain ⟨-, rfl⟩ | ⟨-, rfl⟩ | ⟨-, rfl⟩ | ⟨-, rfl⟩ | ⟨-, rfl⟩ | ⟨-, rfl⟩ | ⟨-, rfl⟩ | ⟨-, rfl⟩ |
    ⟨-, rfl⟩ := htag
  · exact regular_of_readInt hreading hP hvalues hread
  · exact regular_of_readFloatType hread
  · exact regular_of_readFloatType hread
  · exact regular_of_readTextType hreading hP hvalues hread
  · exact regular_of_readTextType hreading hP hvalues hread
  · exact regular_of_readEnumType hreading hP hvalues hread
  · exact regular_of_readStructType hreading hP hvalues hread
  · exact regular_of_readArray hreading hP hms hread
  · exact regular_of_readUnion hreading hP hms hread

end

end

mutual

/-- What a value says as a type is regular. -/
theorem regular_survey (hreading : reading.Spells) (hP : P.Wide) :
    ∀ v : Value, v.Within P → (survey reading source v).Regular P
  | .map members, hv => by
      have hms := regular_surveyMembers hreading hP members (Value.within_map_iff.mp hv)
      refine ⟨hv, fun t ht => ?_, fun label t ht => ?_⟩
      · refine regular_of_readTagged hreading hP (fun name m hm => ?_) ht
        exact (hms name m (Fields.mem_of_mem_ofPairs _ hm)).2
      · obtain ⟨⟨name, m⟩, hm, heq⟩ := List.mem_map.mp ht
        obtain ⟨rfl, htype⟩ := Prod.mk.inj heq
        exact ⟨(hms name m hm).1, (hms name m hm).2.asType t htype⟩
  | .null, hv | .bool _, hv | .int _, hv | .float _, hv | .text _, hv | .list _, hv =>
      ⟨hv, (fun _ h => nomatch h), (fun _ _ h => nomatch h)⟩

/-- So are the members of a map, and their names are in the vocabulary. -/
theorem regular_surveyMembers (hreading : reading.Spells) (hP : P.Wide) :
    ∀ members : Fields, (∀ m ∈ members, P.text m.1 ∧ m.2.Within P) → ∀ name m,
      (name, m) ∈ surveyMembers reading source members → P.text name ∧ m.Regular P
  | [], _ => fun _ _ h => nomatch h
  | (name, v) :: members, hv => by
      obtain ⟨⟨hname, hvalue⟩, hmembers⟩ := List.forall_mem_cons.mp hv
      intro n m hm
      rcases List.mem_cons.mp hm with heq | hm
      · cases heq
        exact ⟨hname, regular_survey hreading hP v hvalue⟩
      · exact regular_surveyMembers hreading hP members hmembers n m hm

end

/-! ### Declarations -/

/-- Each of what was read from items was read from one of them. -/
theorem exists_of_readItems {α : Type} {read : Value → Checked α} {items : List Value}
    {as : List α} (h : readItems read items = .ok as) {a : α} (ha : a ∈ as) :
    ∃ v ∈ items, read v = .ok a := by
  obtain ⟨⟨v, i⟩, hv, heq⟩ := List.mem_map.mp (Checked.mem_of_all h a ha)
  exact ⟨v, List.fst_mem_of_mem_zipIdx hv, Checked.under_eq_ok.mp heq⟩

/-- A pair was read from a list of two. -/
theorem exists_of_readPair {α β : Type} {first : Value → Checked α} {second : Value → Checked β}
    {v : Value} {a : α} {b : β} (h : readPair first second v = .ok (a, b)) :
    ∃ x y, v = .list [x, y] ∧ first x = .ok a ∧ second y = .ok b := by
  unfold readPair at h
  split at h
  · obtain ⟨_, _, hfirst, -, -⟩ := Checked.seq_eq_ok.mp h
    obtain ⟨_, hfirst, -⟩ := Checked.map_eq_ok.mp hfirst
    cases hfirst
  · obtain ⟨_, _, -, hsecond, -⟩ := Checked.seq_eq_ok.mp h
    cases hsecond
  · next x y =>
      obtain ⟨_, _, hpair, hsecond, heq⟩ := Checked.seq_eq_ok.mp h
      obtain ⟨_, hfirst, rfl⟩ := Checked.map_eq_ok.mp hpair
      cases heq
      exact ⟨x, y, rfl, Checked.under_eq_ok.mp hfirst, Checked.under_eq_ok.mp hsecond⟩
  · cases h
  · cases h

/-- What is listed in pairs is read from values in the vocabulary. -/
theorem exists_of_readPairs {α β : Type} {first : Value → Checked α} {second : Value → Checked β}
    {m : Member} (hm : m.value.Within P) {pairs : List (α × β)}
    (h : readPairs first second m = .ok pairs) {a : α} {b : β} (hp : (a, b) ∈ pairs) :
    ∃ x y, first x = .ok a ∧ second y = .ok b ∧ x.Within P ∧ y.Within P := by
  unfold readPairs at h
  split at h
  · next items hlist =>
      rw [hlist] at hm
      obtain ⟨v, hv, hread⟩ := exists_of_readItems h hp
      obtain ⟨x, y, rfl, hfirst, hsecond⟩ := exists_of_readPair hread
      have hpair := Value.within_list_iff.mp (Value.within_list_iff.mp hm _ hv)
      exact ⟨x, y, hfirst, hsecond, hpair x List.mem_cons_self,
        hpair y (List.mem_cons_of_mem _ List.mem_cons_self)⟩
  · cases h

end Payload

/-- What a declaration says is in the vocabulary, and its types are regular. -/
def Definition.Regular (P : Vocabulary) : Definition → Prop
  | .struct s => s.Regular P
  | .enum e => e.Regular P

namespace Payload

variable {P : Vocabulary} {reading : Reading} {source : PayloadSource} (hreading : reading.Spells)
  (hP : P.Wide)

include hreading hP

section

variable {ms : Members} {d : Definition} (hms : ∀ name m, (name, m) ∈ ms → m.value.Within P)

include hms

/-- A struct is regular: its types were read from the second items of pairs. -/
theorem regular_of_readStruct (h : readStruct reading source ms = .ok d) : d.Regular P := by
  simp only [readStruct, Checked.seq_eq_ok, Checked.map_eq_ok] at h
  obtain ⟨_, _, ⟨_, fields, ⟨name, hname, rfl⟩, hfields, rfl⟩, _, rfl⟩ := h
  refine ⟨holds_of_required hreading hP hms hname, fun field t ht => ?_⟩
  rcases exists_of_optional hfields with rfl | ⟨m, hm, hread⟩
  · cases ht
  · obtain ⟨x, y, hx, hy, hwx, hwy⟩ := exists_of_readPairs (hms _ m hm) hread ht
    exact ⟨holds_of_text hreading hP hwx (Checked.ofExcept_eq_ok.mp hx),
      (regular_survey hreading hP y hwy).asType t hy⟩

/-- An enum says the codes that its payload says. -/
theorem regular_of_readEnum (h : readEnum reading ms = .ok d) : d.Regular P := by
  simp only [readEnum, Checked.seq_eq_ok, Checked.map_eq_ok] at h
  obtain ⟨_, _, ⟨_, entries, ⟨name, hname, rfl⟩, hentries, rfl⟩, _, rfl⟩ := h
  refine ⟨holds_of_required hreading hP hms hname, fun label code hc => ?_⟩
  rcases exists_of_optional hentries with rfl | ⟨m, hm, hread⟩
  · cases hc
  · obtain ⟨x, y, hx, hy, hwx, hwy⟩ := exists_of_readPairs (hms _ m hm) hread hc
    exact ⟨holds_of_text hreading hP hwx (Checked.ofExcept_eq_ok.mp hx),
      holds_of_integer hreading hP hwy (Checked.ofExcept_eq_ok.mp hy)⟩

end

theorem regular_of_readDefinition {v : Value} {d : Definition} (hv : v.Within P)
    (h : readDefinition reading source v = .ok d) : d.Regular P := by
  unfold readDefinition at h
  split at h
  · next members =>
      have hms := within_of_mem_plainMembers hv
      obtain ⟨tag, read, htag, hread⟩ := exists_of_tagged h
      rcases List.mem_cons.mp htag with heq | htag
      · cases heq
        exact regular_of_readStruct hreading hP hms hread
      · cases List.mem_singleton.mp htag
        exact regular_of_readEnum hreading hP hms hread
  · cases h

end Payload

namespace Schema

/-- The schema of a payload is regular, and says nothing that is not in the vocabulary of the
payload. -/
theorem regular_of_ofPayload {P : Vocabulary} {reading : Reading} (hreading : reading.Spells)
    (hP : P.Wide) {source : PayloadSource} {payload : Value} {schema : Schema}
    (hv : payload.Within P) (h : ofPayload reading source payload = .ok schema) :
    schema.Regular P := by
  unfold ofPayload at h
  split at h
  · cases h
  · next definitions hread =>
      have hregular : ∀ d ∈ definitions, d.Regular P := by
        intro d hd
        unfold Payload.readDefinitions at hread
        split at hread
        · obtain ⟨v, hmem, hdef⟩ := Payload.exists_of_readItems hread hd
          exact Payload.regular_of_readDefinition hreading hP
            (Value.within_list_iff.mp hv v hmem) hdef
        · cases hread
      unfold ofDefinitions at h
      dsimp only at h
      split at h
      · cases h
        refine ⟨fun s hs => ?_, fun e he => ?_⟩
        · obtain ⟨d, hd, hds⟩ := List.mem_filterMap.mp hs
          cases d with
          | struct s' =>
              cases hds
              exact hregular _ hd
          | enum e => cases hds
        · obtain ⟨d, hd, hde⟩ := List.mem_filterMap.mp he
          cases d with
          | struct s => cases hde
          | enum e' =>
              cases hde
              exact hregular _ hd
      · cases h

end Schema

/-! ### What is written -/

/-- A width has two digits at most. -/
theorem BitWidth.short (width : BitWidth) : Numeral.Short width.bits := by
  refine Numeral.short_of_le ?_
  have := width.le
  rw [Int.natAbs_natCast]
  exact Nat.le_trans this (by decide)

section

variable {P : Vocabulary} (hP : P.Wide)

include hP

theorem within_literal (s : String) : (Value.text s).Within P :=
  Value.within_text_iff.mpr (hP.literal s)

theorem BitWidth.within (width : BitWidth) : (Value.int width.bits).Within P :=
  Value.within_int_iff.mpr (hP.integer width.short)

/-- A member that is left out when there is nothing to say is within a vocabulary if what it says
is. -/
theorem within_optionalMember {α : Type} {name : String} {toValue : α → Value} {a? : Option α}
    (h : ∀ a, a? = some a → (toValue a).Within P) :
    ∀ m ∈ optionalMember name toValue a?, P.text m.1 ∧ m.2.Within P := by
  cases a? with
  | none => exact List.forall_mem_nil _
  | some a => exact List.forall_mem_singleton.mpr ⟨hP.literal name, h a rfl⟩

/-- A type is written within a vocabulary if its members are. -/
theorem FieldType.within_toPayload {t : FieldType}
    (h : ∀ m ∈ t.payloadMembers, P.text m.1 ∧ m.2.Within P) : t.toPayload.Within P :=
  Value.within_map_iff.mpr
    (List.forall_mem_cons.mpr ⟨⟨hP.literal "kind", within_literal hP t.kind⟩, h⟩)

theorem ArrayLength.Regular.within {length : ArrayLength} (h : length.Regular P) :
    length.toPayload.Within P := by
  cases length with
  | static count =>
      refine Value.within_map_iff.mpr (List.forall_mem_cons.mpr
        ⟨⟨hP.literal "kind", within_literal hP "Static"⟩, ?_⟩)
      exact List.forall_mem_singleton.mpr ⟨hP.literal "value", Value.within_int_iff.mpr h⟩
  | dynamic field =>
      refine Value.within_map_iff.mpr (List.forall_mem_cons.mpr
        ⟨⟨hP.literal "kind", within_literal hP "Dynamic"⟩, ?_⟩)
      exact List.forall_mem_singleton.mpr ⟨hP.literal "field", Value.within_text_iff.mpr h⟩

/-- What a regular type is written as is in its vocabulary. -/
theorem FieldType.Regular.within {t : FieldType} (h : t.Regular P) : t.toPayload.Within P := by
  induction h with
  | @int signed width default? hdefault =>
      refine within_toPayload hP (List.forall_mem_cons.mpr
        ⟨⟨hP.literal "signed", Value.within_bool _⟩, List.forall_mem_cons.mpr
          ⟨⟨hP.literal "width", width.within hP⟩, ?_⟩⟩)
      exact within_optionalMember hP fun i hi => Value.within_int_iff.mpr (hdefault i hi)
  | float =>
      exact within_toPayload hP (within_optionalMember hP fun _ _ => Value.within_float _)
  | text hdefault =>
      exact within_toPayload hP
        (within_optionalMember hP fun t ht => Value.within_text_iff.mpr (hdefault t ht))
  | @enum name signed width default? hname hdefault =>
      refine within_toPayload hP (List.forall_mem_cons.mpr
        ⟨⟨hP.literal "name", Value.within_text_iff.mpr hname⟩, ?_⟩)
      refine List.forall_mem_cons.mpr ⟨⟨hP.literal "signed", Value.within_bool _⟩,
        List.forall_mem_cons.mpr ⟨⟨hP.literal "width", width.within hP⟩, ?_⟩⟩
      exact within_optionalMember hP fun t ht => Value.within_text_iff.mpr (hdefault t ht)
  | struct hname =>
      exact within_toPayload hP (List.forall_mem_singleton.mpr
        ⟨hP.literal "name", Value.within_text_iff.mpr hname⟩)
  | array _ hlength ih =>
      exact within_toPayload hP (List.forall_mem_cons.mpr ⟨⟨hP.literal "elementType", ih⟩,
        List.forall_mem_singleton.mpr ⟨hP.literal "length", hlength.within hP⟩⟩)
  | @union discriminant enumName cases hdiscriminant hname _ hlabels _ ih =>
      have hcases : (Value.map (payloadCases cases)).Within P := by
        rw [Payload.payloadCases_eq]
        refine Value.within_map_iff.mpr fun m hm => ?_
        obtain ⟨⟨label, t⟩, ht, rfl⟩ := List.mem_map.mp hm
        exact ⟨hlabels label t ht, ih label t ht⟩
      refine within_toPayload hP (List.forall_mem_cons.mpr
        ⟨⟨hP.literal "discriminant", Value.within_text_iff.mpr hdiscriminant⟩, ?_⟩)
      exact List.forall_mem_cons.mpr ⟨⟨hP.literal "enumTypeName", Value.within_text_iff.mpr hname⟩,
        List.forall_mem_singleton.mpr ⟨hP.literal "cases", hcases⟩⟩

omit hP in
/-- A name and what belongs to it. -/
theorem within_pair {name : Text} {v : Value} (hname : P.text name) (hv : v.Within P) :
    (Value.list [.text name, v]).Within P :=
  Value.within_list_iff.mpr (List.forall_mem_cons.mpr
    ⟨Value.within_text_iff.mpr hname, List.forall_mem_singleton.mpr hv⟩)

/-- A declaration is written within a vocabulary if its name and what it lists are. -/
theorem within_declaration {kind listed : String} {name : Text} {items : List Value}
    (hname : P.text name) (hitems : ∀ v ∈ items, v.Within P) :
    (Value.map [("type", .text kind), ("name", .text name), (listed, .list items)]).Within P :=
  Value.within_map_iff.mpr (List.forall_mem_cons.mpr
    ⟨⟨hP.literal "type", within_literal hP kind⟩, List.forall_mem_cons.mpr
      ⟨⟨hP.literal "name", Value.within_text_iff.mpr hname⟩, List.forall_mem_singleton.mpr
        ⟨hP.literal listed, Value.within_list_iff.mpr hitems⟩⟩⟩)

/-- What a regular declaration is written as is in its vocabulary. -/
theorem Definition.Regular.within {d : Definition} (h : d.Regular P) : d.toPayload.Within P := by
  cases d with
  | struct s =>
      refine within_declaration hP h.name fun v hv => ?_
      obtain ⟨⟨name, t⟩, hfield, rfl⟩ := List.mem_map.mp hv
      obtain ⟨hname, ht⟩ := h.fields name t hfield
      exact within_pair hname (ht.within hP)
  | enum e =>
      refine within_declaration hP h.name fun v hv => ?_
      obtain ⟨⟨label, code⟩, hentry, rfl⟩ := List.mem_map.mp hv
      obtain ⟨hlabel, hcode⟩ := h.entries label code hentry
      exact within_pair hlabel (Value.within_int_iff.mpr hcode)

/-- What a regular schema is written as is in its vocabulary. -/
theorem Schema.Regular.within {schema : Schema} (h : schema.Regular P) :
    schema.toPayload.Within P := by
  refine Value.within_list_iff.mpr fun v hv => ?_
  obtain ⟨d, hd, rfl⟩ := List.mem_map.mp hv
  refine Definition.Regular.within hP ?_
  rcases List.mem_append.mp hd with hd | hd
  · obtain ⟨e, he, rfl⟩ := List.mem_map.mp hd
    exact h.enums e he
  · obtain ⟨s, hs, rfl⟩ := List.mem_map.mp hd
    exact h.structs s hs

end

end WireSchema
