import WireSchema.Proofs.Codec.Reading

/-!
# Codec — Data that ends early

Two runs of the decoder over one schema, of which one sees only the first bits of what the other
sees, go along together as far as the bits of the first suffice. `Decoding.Shortens` says how the
first may end, given how the second does: with the same value; or cut, with a beginning of whatever
the other reads; or with the same failure. The bounds on nesting need not be the same, so it also
allows for either to be too deep.

Every loop of the decoder keeps the relation. Around a cut it is the entries read before that the
two runs share, and the next entry of the first is a beginning of that of the second.
-/

namespace WireSchema

/-! ### Beginnings of values -/

namespace Value

/-- What is left of a value of which the end is missing: of a list or a map its first entries, and
of the last of them perhaps also only a part. -/
inductive PrefixOf : Value → Value → Prop
  | refl {v} : PrefixOf v v
  | list {before w v behind} (last : PrefixOf w v) :
      PrefixOf (.list (before ++ [w])) (.list (before ++ v :: behind))
  | map {before name w v behind} (last : PrefixOf w v) :
      PrefixOf (.map (before ++ [(name, w)])) (.map (before ++ (name, v) :: behind))

/-- Nothing, or a prefix. -/
inductive Begins : Option Value → Option Value → Prop
  | nothing {v?} : Begins none v?
  | part {w v} (h : PrefixOf w v) : Begins (some w) (some v)

/-- A list that has items begins every longer one. -/
theorem PrefixOf.list_append {items : List Value} (h : items ≠ []) (more : List Value) :
    PrefixOf (.list items) (.list (items ++ more)) := by
  rw [← List.dropLast_append_getLast h, List.append_assoc]
  exact .list .refl

/-- A map that has members begins every longer one. -/
theorem PrefixOf.map_append {members : Fields} (h : members ≠ []) (more : Fields) :
    PrefixOf (.map members) (.map (members ++ more)) := by
  rw [← List.dropLast_append_getLast h, List.append_assoc]
  exact .map .refl

variable {w? v? : Option Value}

/-- What begins nothing is nothing. -/
theorem Begins.toList_eq_nil (h : Begins w? v?) (hv : v?.toList = []) : w?.toList = [] := by
  cases h with
  | nothing => rfl
  | part => cases hv

/-- The items before and a beginning of the next one begin a list. -/
theorem Begins.list (h : Begins w? v?) {read : List Value} (hne : w?.toList ++ read ≠ [])
    (more : List Value) :
    Begins (some (.list (w?.toList ++ read).reverse))
      (some (.list ((v?.toList ++ read).reverse ++ more))) := by
  rw [List.reverse_append, List.reverse_append, List.append_assoc]
  cases h with
  | nothing =>
      rw [Option.toList_none, List.reverse_nil, List.append_nil]
      exact .part (.list_append (fun h => hne (List.reverse_eq_nil_iff.mp h)) _)
  | part h => exact .part (.list h)

/-- The members before and a beginning of the next one begin a map. -/
theorem Begins.map (h : Begins w? v?) {read : Fields} {name : Text}
    (hne : read ++ w?.toList.map (name, ·) ≠ []) (more : Fields) :
    Begins (some (.map (read ++ w?.toList.map (name, ·))))
      (some (.map (read ++ v?.toList.map (name, ·) ++ more))) := by
  rw [List.append_assoc]
  cases h with
  | nothing =>
      rw [Option.toList_none, List.map_nil, List.append_nil] at hne ⊢
      exact .part (.map_append hne _)
  | part h => exact .part (.map h)

end Value

/-! ### Reads of more bits -/

namespace Cursor

variable {α : Type} {c c' d : Cursor}

/-- What can be taken is still there when there are more bits. -/
theorem Takes.extend {bs : Bits} (ht : c.Takes bs c') (h : c.rest <+: d.rest) :
    ∃ d', d.Takes bs d' ∧ c'.rest <+: d'.rest := by
  obtain ⟨more, hd⟩ := h
  rw [ht.rest_eq, List.append_assoc] at hd
  obtain ⟨d', htd, hr⟩ := Takes.of_rest hd.symm
  exact ⟨d', htd, more, hr.symm⟩

/-- What a read yields it yields with more bits too. -/
def Extends (read : Cursor → Option (α × Cursor)) : Prop :=
  ∀ (c d : Cursor) (a : α) (c' : Cursor), c.rest <+: d.rest → read c = some (a, c') →
    ∃ d', read d = some (a, d') ∧ c'.rest <+: d'.rest

/-- Bits are read alike if more follow. -/
theorem extends_take? (w : Nat) : Extends fun c => c.take? w := by
  intro c d bs c' h ht
  obtain ⟨hl, ht⟩ := take?_eq_some_iff.mp ht
  obtain ⟨d', htd, hr⟩ := ht.extend h
  exact ⟨d', take?_eq_some_iff.mpr ⟨hl, htd⟩, hr⟩

/-- Bytes are read alike if more follow. -/
theorem extends_bytes? (n : Nat) : Extends fun c => c.bytes? n := by
  intro c d bytes c' h ht
  obtain ⟨hl, ht⟩ := bytes?_eq_some_iff.mp ht
  obtain ⟨d', htd, hr⟩ := ht.extend h
  exact ⟨d', bytes?_eq_some_iff.mpr ⟨hl, htd⟩, hr⟩

/-- A text is read alike if more follows, as its end is found in what is there. -/
theorem extends_text? (charset : Charset) : Extends fun c => c.text? charset := by
  intro c d chars c' h ht
  obtain ⟨bytes, hz, hc, ht⟩ := text?_eq_some_iff.mp ht
  obtain ⟨d', htd, hr⟩ := ht.extend h
  exact ⟨d', text?_eq_some_iff.mpr ⟨bytes, hz, hc, htd⟩, hr⟩

theorem Extends.map {β : Type} {read : Cursor → Option (α × Cursor)} (h : Extends read)
    (f : α → β) : Extends fun c => (read c).map fun (a, c) => (f a, c) := by
  intro c d b c' hr hb
  obtain ⟨⟨a, rest⟩, ha, he⟩ := Option.map_eq_some_iff.mp hb
  cases he
  obtain ⟨d', hd, hrest⟩ := h _ _ _ _ hr ha
  exact ⟨d', Option.map_eq_some_iff.mpr ⟨(a, d'), hd, rfl⟩, hrest⟩

/-- The bits of a beginning of the data begin the bits of the data. -/
theorem rest_take_prefix (data : Array UInt8) (k : Nat) :
    (ofBytes (data.take k)).rest <+: (ofBytes data).rest := by
  have htake : (data.take k).toList = data.toList.take k := by simp
  rw [rest_ofBytes, rest_ofBytes, htake]
  refine ⟨Bits.ofBytes (data.toList.drop k), ?_⟩
  rw [← Bits.ofBytes_append, List.take_append_drop]

end Cursor

/-! ### Two ends of reading -/

namespace Decoding

/-- What is read, if anything, has this beginning. -/
def BeginsWith (w? : Option Value) : Decoding → Prop
  | done v _ => Value.Begins w? (some v)
  | cut v? _ _ => Value.Begins w? v?
  | stopped _ => True

/-- How reading the first bits ends, and how reading all bits does. -/
inductive Shortens : Decoding → Decoding → Prop
  | done {v c d} (h : c.rest <+: d.rest) : Shortens (.done v c) (.done v d)
  | cut {read? c notices whole} (h : whole.BeginsWith read?) : Shortens (.cut read? c notices) whole
  | stopped {failure} : Shortens (.stopped failure) (.stopped failure)
  | tooDeep {whole} : Shortens (.stopped .tooDeep) whole
  | wholeTooDeep {part} : Shortens part (.stopped .tooDeep)

/-- Nothing begins everything. -/
theorem beginsWith_none : ∀ d : Decoding, d.BeginsWith none
  | done _ _ | cut _ _ _ => .nothing
  | stopped _ => trivial

/-- A read of less data ends as that of more, or is cut short. -/
theorem shortens_ofTaken {α : Type} {read : Cursor → Option (α × Cursor)}
    (hread : Cursor.Extends read) {c d e f : Cursor} (h : c.rest <+: d.rest) (toValue : α → Value) :
    Shortens (ofTaken e toValue (read c)) (ofTaken f toValue (read d)) := by
  cases hc : read c with
  | none => exact .cut (beginsWith_none _)
  | some p =>
      obtain ⟨a, c'⟩ := p
      obtain ⟨d', hd, hr⟩ := hread _ _ _ _ h hc
      rw [hd]
      exact .done hr

end Decoding

namespace Decode

variable {schema : Schema}

/-- A part of the decoder that sees the first bits ends according to one that sees all. -/
def Shortens (part whole : Path → Cursor → Decoding) : Prop :=
  ∀ path c d, c.rest <+: d.rest → (part path c).Shortens (whole path d)

/-! ### Elements -/

/-- Reading on only adds elements. -/
theorem beginsWith_elements {one : Path → Cursor → Decoding} {path : Path} {length : Nat}
    {w? : Option Value} {count : Nat} :
    ∀ {read : List Value} {c : Cursor}, (read = [] → w? = none) →
      (∀ more, Value.Begins w? (some (.list (read.reverse ++ more)))) →
      (elements one path length count read c).BeginsWith w? := by
  induction count with
  | zero =>
      intro read c _ h
      have := h []
      rwa [List.append_nil] at this
  | succ count ih =>
      intro read c h₀ h
      rw [elements]
      split
      · next v rest _ =>
          refine ih (absurd · (List.cons_ne_nil _ _)) fun more => ?_
          rw [List.reverse_cons, List.append_assoc]
          exact h _
      · next v? rest notices _ =>
          show Value.Begins w? (if _ then _ else _)
          split
          · next he =>
              rw [h₀ (List.append_eq_nil_iff.mp (List.isEmpty_iff.mp he)).2]
              exact .nothing
          · rw [List.reverse_append]
            exact h _
      · trivial

/-- Elements of less data end as those of more, or are cut short. -/
theorem shortens_elements {one whole : Path → Cursor → Decoding} (hone : Shortens one whole)
    {path : Path} {length count : Nat} : ∀ {read : List Value} {c d : Cursor},
      c.rest <+: d.rest →
      (elements one path length count read c).Shortens
        (elements whole path length count read d) := by
  induction count with
  | zero => exact fun h => .done h
  | succ count ih =>
      intro read c d h
      have hnext := hone (path.element (length - (count + 1))) c d h
      rw [elements, elements]
      generalize one (path.element (length - (count + 1))) c = a at hnext ⊢
      generalize whole (path.element (length - (count + 1))) d = b at hnext ⊢
      cases hnext with
      | done hr => exact ih hr
      | stopped => exact .stopped
      | tooDeep => exact .tooDeep
      | wholeTooDeep => exact .wholeTooDeep
      | @cut read? rest notices _ hb =>
          refine .cut ?_
          -- a list of which nothing is read is not reported at all
          split
          · exact Decoding.beginsWith_none _
          · next hne =>
              have hne := fun he => hne (List.isEmpty_iff.mpr he)
              cases b with
              | done v rest =>
                  exact beginsWith_elements (absurd · (List.cons_ne_nil _ _))
                    fun more => hb.list hne more
              | cut v? rest notices =>
                  show Value.Begins _ (if _ then _ else _)
                  split
                  · next he =>
                      obtain ⟨hv, hr⟩ := List.append_eq_nil_iff.mp (List.isEmpty_iff.mp he)
                      exact absurd (List.append_eq_nil_iff.mpr ⟨hb.toList_eq_nil hv, hr⟩) hne
                  · have := hb.list hne []
                    rwa [List.append_nil] at this
              | stopped => trivial

/-! ### Fields -/

/-- A field of a new name is read behind the fields before it. -/
theorem fields_cons {one : Fields → FieldType → Path → Cursor → Decoding} {path : Path}
    {name : Text} {t : FieldType} {left : List (Text × FieldType)} {read : Fields} {c : Cursor}
    (hn : name ∉ read.map (·.1)) :
    Decode.fields one path ((name, t) :: left) read c =
      match one read t (path.child name) c with
      | .done v rest => Decode.fields one path left (read ++ [(name, v)]) rest
      | .cut v? rest notices =>
          let read := read ++ v?.toList.map (name, ·)
          .cut (if read.isEmpty then none else some (.map read)) rest notices
      | .stopped failure => .stopped failure := by
  rw [Decode.fields]
  cases one read t (path.child name) c with
  | done v rest => exact congrArg (Decode.fields one path left · rest) (Fields.put_of_notMem hn)
  | cut v? rest notices =>
      cases v? with
      | none => simp only [Option.toList_none, List.map_nil, List.append_nil]
      | some v =>
          simp only [Fields.put_of_notMem hn, Option.toList_some, List.map_cons, List.map_nil]
  | stopped => rfl

/-- No name is repeated among the fields that are read and those that are left. -/
theorem names_append {read : Fields} {name : Text} {t : FieldType}
    {left : List (Text × FieldType)}
    (hn : (read.map (·.1) ++ ((name, t) :: left).map (·.1)).Nodup) (v : Value) :
    ((read ++ [(name, v)]).map (·.1) ++ left.map (·.1)).Nodup := by
  rwa [List.map_append, List.append_assoc]

/-- A field that is to be read has a name that was not read. -/
theorem name_notMem {read : Fields} {name : Text} {t : FieldType}
    {left : List (Text × FieldType)}
    (hn : (read.map (·.1) ++ ((name, t) :: left).map (·.1)).Nodup) : name ∉ read.map (·.1) :=
  fun hm => List.disjoint_of_nodup_append hn hm List.mem_cons_self

/-- Reading on only adds fields. -/
theorem beginsWith_fields {one : Fields → FieldType → Path → Cursor → Decoding} {path : Path}
    {w? : Option Value} {left : List (Text × FieldType)} :
    ∀ {read : Fields} {c : Cursor}, (read.map (·.1) ++ left.map (·.1)).Nodup →
      (read = [] → w? = none) → (∀ more, Value.Begins w? (some (.map (read ++ more)))) →
      (Decode.fields one path left read c).BeginsWith w? := by
  induction left with
  | nil =>
      intro read c _ _ h
      have := h []
      rwa [List.append_nil] at this
  | cons head left ih =>
      obtain ⟨name, t⟩ := head
      intro read c hn h₀ h
      rw [fields_cons (name_notMem hn)]
      split
      · next v rest _ =>
          refine ih (names_append hn v) (fun he => ?_) fun more => ?_
          · cases (List.append_eq_nil_iff.mp he).2
          · rw [List.append_assoc]
            exact h _
      · next v? rest notices _ =>
          show Value.Begins w? (if _ then _ else _)
          split
          · next he =>
              rw [h₀ (List.append_eq_nil_iff.mp (List.isEmpty_iff.mp he)).1]
              exact .nothing
          · exact h _
      · trivial

/-- Fields of less data end as those of more, or are cut short. -/
theorem shortens_fields {one whole : Fields → FieldType → Path → Cursor → Decoding}
    (hone : ∀ read t, Shortens (one read t) (whole read t)) {path : Path}
    {left : List (Text × FieldType)} : ∀ {read : Fields} {c d : Cursor},
      (read.map (·.1) ++ left.map (·.1)).Nodup → c.rest <+: d.rest →
      (Decode.fields one path left read c).Shortens (Decode.fields whole path left read d) := by
  induction left with
  | nil => exact fun _ h => .done h
  | cons head left ih =>
      obtain ⟨name, t⟩ := head
      intro read c d hn h
      have hnext := hone read t (path.child name) c d h
      rw [fields_cons (name_notMem hn), fields_cons (name_notMem hn)]
      generalize one read t (path.child name) c = a at hnext ⊢
      generalize whole read t (path.child name) d = b at hnext ⊢
      cases hnext with
      | done hr => exact ih (names_append hn _) hr
      | stopped => exact .stopped
      | tooDeep => exact .tooDeep
      | wholeTooDeep => exact .wholeTooDeep
      | @cut read? rest notices _ hb =>
          refine .cut ?_
          split
          · exact Decoding.beginsWith_none _
          · next hne =>
              have hne := fun he => hne (List.isEmpty_iff.mpr he)
              cases b with
              | done v rest =>
                  refine beginsWith_fields (names_append hn v) (fun he => ?_) fun more =>
                    hb.map hne more
                  cases (List.append_eq_nil_iff.mp he).2
              | cut v? rest notices =>
                  show Value.Begins _ (if _ then _ else _)
                  split
                  · next he =>
                      obtain ⟨hr, hv⟩ := List.append_eq_nil_iff.mp (List.isEmpty_iff.mp he)
                      refine absurd (List.append_eq_nil_iff.mpr ⟨hr, ?_⟩) hne
                      rw [hb.toList_eq_nil (List.map_eq_nil_iff.mp hv), List.map_nil]
                  · have := hb.map hne []
                    rwa [List.append_nil] at this
              | stopped => trivial

/-! ### Types -/

theorem extends_float32? : Cursor.Extends fun c => c.float32? :=
  (Cursor.extends_bytes? 4).map Binary64.ofSingleBytes

theorem extends_float64? : Cursor.Extends fun c => c.float64? :=
  (Cursor.extends_bytes? 8).map Binary64.ofDoubleBytes

/-- A type ends on less data as on more, or is cut short. -/
theorem shortens_ofType {struct whole : Text → Path → Cursor → Decoding} {siblings : Fields}
    (hstruct : ∀ name, Shortens (struct name) (whole name)) (t : FieldType) :
    Shortens (ofType schema struct siblings t) (ofType schema whole siblings t) := by
  induction t with
  | int signed width default? =>
      intro path c d h
      rw [ofType, ofType, integer_eq, integer_eq]
      exact Decoding.shortens_ofTaken ((Cursor.extends_take? _).map _) h _
  | float width default? =>
      intro path c d h
      cases width with
      | f32 => exact Decoding.shortens_ofTaken extends_float32? h _
      | f64 => exact Decoding.shortens_ofTaken extends_float64? h _
  | text charset default? =>
      intro path c d h
      exact Decoding.shortens_ofTaken (Cursor.extends_text? charset) h _
  | enum name signed width default? =>
      intro path c d h
      rw [ofType, ofType]
      split
      · exact .stopped
      · next e _ =>
          rw [integer_eq, integer_eq]
          cases hc : c.take? width.bits with
          | none => exact .cut (Decoding.beginsWith_none _)
          | some p =>
              -- a code that is there at all is there as a whole
              obtain ⟨d', hd, hr⟩ := Cursor.extends_take? width.bits _ _ _ _ h hc
              rw [show d.take? width.bits = _ from hd, Option.map_some, Option.map_some]
              dsimp only
              split
              · exact .done hr
              · exact .stopped
  | struct name => exact hstruct name
  | array element length ih =>
      intro path c d h
      rw [ofType, ofType]
      split
      · exact .stopped
      · exact shortens_elements ih h
  | union discriminant enumName cases ih =>
      intro path c d h
      rw [ofType, ofType]
      split
      · exact .stopped
      · next label _ =>
          rw [ofCase_eq, ofCase_eq]
          cases hu : Fields.get? cases label with
          | none => exact .stopped
          | some t => exact ih label t (Fields.mem_of_get? hu) path c d h

/-- A struct ends on less data as on more, or is cut short, however deep either goes. -/
theorem shortens_ofStruct (hnames : ∀ s ∈ schema.structs, s.fieldNames.Nodup) {depth : Nat} :
    ∀ (other : Nat) (name : Text),
      Shortens (ofStruct schema depth name) (ofStruct schema other name) := by
  -- fewer bytes also allow for less nesting, so the other run has a bound of its own
  induction depth with
  | zero =>
      intro other name path c d h
      rw [ofStruct, ofStruct]
      split
      · exact .stopped
      · exact .tooDeep
  | succ depth ih =>
      intro other name path c d h
      rw [ofStruct, ofStruct]
      split
      · exact .stopped
      · next s hs =>
          cases other with
          | zero => exact .wholeTooDeep
          | succ other =>
              exact shortens_fields (fun _ t => shortens_ofType (ih other) t)
                (hnames s (Schema.struct?_mem hs)) h

/-- **Data that ends early.** The run over the first bytes ends according to that over all. -/
theorem shortens_run (hnames : ∀ s ∈ schema.structs, s.fieldNames.Nodup) (data : Array UInt8)
    (k : Nat) (root : Text) :
    (run schema (data.take k) root).Shortens (run schema data root) :=
  shortens_ofStruct hnames _ _ _ _ _ (Cursor.rest_take_prefix data k)

end Decode

end WireSchema
