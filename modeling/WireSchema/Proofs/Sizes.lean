import WireSchema.Proofs.Codec.Measured
import WireSchema.Proofs.Codec.Revisits

/-!
# Sizes foretell the encoding

**The default size is the size.** Of a value that is encoded, complete or not, the size in default
mode is the number of bits of its encoding (`Size.ofType_of_writes`).

**Sizes bound the encoding.** Of any part of a conforming value, the sizes in `min` and in `max`
mode lie on either side of the size of the value, and the more is known the closer they are; of the
value itself, all sizes are the same. This is so unless the reckoning overflows: the comparison is
that of `Size.bounds_ofStruct`, and that there is anything to compare is `Size.measured_ofStruct`.

**The sizes of the fields** add up to the size of the struct, unless the struct is given as a map
and comes again inside itself without a value. The struct itself is then measured as one that has
not been visited, but its fields as those of one that has (`Size.compare_ofStruct`).
-/

namespace WireSchema

theorem Outcome.eq_ok_of_toOption {α : Type} {x : Outcome α} {a : α} (h : x.toOption = some a) :
    x = .ok a := by
  cases x with
  | error _ => cases h
  | ok _ => exact congrArg Except.ok (Option.some.inj h)

namespace Schema

variable {schema : Schema}

/-! ### The default size -/

/-- What is written for a root struct is measured, without gaps in every mode. -/
theorem encodedBits_of_writes (hc : schema.Consistent) {mode : Size.Mode} {gaps : Bool}
    (hm : gaps = true → mode = .default) {root : Text} {v : Value} {bs : Bits}
    (h : Writes schema gaps [] (.struct root) v bs) :
    schema.encodedBits root mode v = .ok (.finite bs.length) := by
  have agree : Siblings.Agree [] [] [] := .nil
  exact Size.ofType_of_writes hc hm h h.sound_struct agree (Nat.le_succ _)

/-- **The default size is the size.** A value that is encoded is measured as the bits it is encoded
in, and as the bytes they fill. To tell the bits from infinity, they are compared as a double; no
message is ever so long that they are beyond the range of doubles. -/
theorem encodedBits_eq_of_encode {root : Text} {v : Value} {bytes : Array UInt8}
    (hschema : schema.inconsistencies = []) (hencode : (schema.encode v root).outcome = .ok bytes) :
    ∃ notices bits, schema.encode v root = ⟨notices ++ [.encoded root bits], .ok bytes⟩ ∧
      schema.encodedBits root .default v = .ok (.finite bits) ∧
      schema.encodedSize root .default v =
        if bits < Extent.doubleLimit then .ok (.finite bytes.size) else .error .overflow := by
  have hc := Consistent.of_inconsistencies hschema
  obtain ⟨bs, notices, hw, hreport, hsize, -⟩ := writes_of_encode hencode
  have hbits := encodedBits_of_writes hc (fun _ => rfl) hw
  refine ⟨notices, bs.length, hreport, hbits, ?_⟩
  rw [encodedSize, hbits, Size.ok_bind, Extent.bytes_finite, hsize]

/-- Two nodes of a chain, the first without one of its samples, and of the second only the length;
there is a member that no node has. -/
def chainDraft : Value :=
  .map
    [("length", .int 2), ("kind", .text "node"), ("samples", .list [.int 3]),
      ("body", .map [("length", .int 0), ("note", .null)])]

/-- The bytes of `chainDraft`, its gaps filled. -/
def chainDraftBytes : Array UInt8 := #[2, 70, 0, 0, 0]

set_option maxRecDepth 2000 in
/-- A draft of two nodes is measured as what it is encoded in. -/
theorem chainDraft_encodedBits_eq :
    chain.inconsistencies = [] ∧
      (chain.encode chainDraft "Node").outcome = .ok chainDraftBytes ∧
      ∃ notices bits, chain.encode chainDraft "Node" =
          ⟨notices ++ [.encoded "Node" bits], .ok chainDraftBytes⟩ ∧
        chain.encodedBits "Node" .default chainDraft = .ok (.finite bits) ∧
        chain.encodedSize "Node" .default chainDraft =
          if bits < Extent.doubleLimit then .ok (.finite chainDraftBytes.size)
          else .error .overflow := by
  have hencode : (chain.encode chainDraft "Node").outcome = .ok chainDraftBytes := rfl
  exact ⟨chain_inconsistencies, hencode, encodedBits_eq_of_encode chain_inconsistencies hencode⟩

/-! ### Bounds -/

theorem measured_encodedBits (hc : schema.Consistent) {mode : Size.Mode} (hmode : mode ≠ .default)
    {root : Text} {p v : Value} (hconforms : schema.conforms (.struct root) v = .ok true)
    (hpart : p.PartOf v) : Size.Measured (schema.encodedBits root mode p) := by
  obtain ⟨s, _, _, hs, _⟩ := Conform.ofStruct_eq_true hconforms
  refine Size.measured_ofStruct hc hmode List.nodup_nil (fun _ hm => nomatch hm) hs
    (Or.inr ⟨v, hconforms, hpart⟩) ?_
  rw [Size.depthBound, List.length_nil]
  omega

theorem bounds_encodedBits {mode : Size.Mode} (hmode : mode ≠ .default) {root : Text}
    {p q : Value} (hpart : p.PartOf q) {a b : Extent}
    (hp : schema.encodedBits root mode p = .ok a) (hq : schema.encodedBits root mode q = .ok b) :
    mode.Bounds a.bits b.bits :=
  Size.bounds_ofStruct hmode (.inl rfl) hpart hp hq

/-- **Sizes bound the encoding, and the more is known, the closer.** A conforming value is encoded
in as many bits as it is measured in every mode. Of its parts, the less is known the less is the
least and the greater the greatest size, if they are had at all; and they are had unless on the way
a number beyond the range of doubles is reckoned with infinity. -/
theorem sizes_bound_iff {root : Text} {p q v : Value} (hschema : schema.inconsistencies = [])
    (hconforms : schema.conforms (.struct root) v = .ok true) (hpq : p.PartOf q)
    (hqv : q.PartOf v) :
    ∃ bytes bits, schema.encode v root = ⟨[.encoded root bits], .ok bytes⟩ ∧
      (∀ mode, schema.encodedBits root mode v = .ok (.finite bits)) ∧
      ((∃ a b c d,
          schema.encodedBits root .min p = .ok a ∧ schema.encodedBits root .min q = .ok b ∧
          schema.encodedBits root .max q = .ok c ∧ schema.encodedBits root .max p = .ok d ∧
          a ≤ b ∧ b ≤ .finite bits ∧ .finite bits ≤ c ∧ c ≤ d) ↔
        schema.encodedBits root .min p ≠ .error .overflow ∧
          schema.encodedBits root .min q ≠ .error .overflow ∧
          schema.encodedBits root .max q ≠ .error .overflow ∧
          schema.encodedBits root .max p ≠ .error .overflow) := by
  have hc := Consistent.of_inconsistencies hschema
  obtain ⟨bs, hw⟩ := Conform.writes_of_conforms hc hconforms
  obtain ⟨bytes, henc, -, -⟩ := encode_of_writes hw
  have hexact : ∀ mode, schema.encodedBits root mode v = .ok (.finite bs.length) :=
    fun mode => encodedBits_of_writes hc (fun hg => absurd hg Bool.false_ne_true) hw
  have hmin : Size.Mode.min ≠ .default := nofun
  have hmax : Size.Mode.max ≠ .default := nofun
  have hpv := hpq.trans hqv
  refine ⟨bytes, bs.length, henc, hexact, fun ⟨a, b, c, d, ha, hb, hc, hd, _⟩ => ?_,
    fun ⟨ha, hb, hc', hd⟩ => ?_⟩
  · rw [ha, hb, hc, hd]
    exact ⟨nofun, nofun, nofun, nofun⟩
  · obtain ⟨a, ha⟩ := (measured_encodedBits hc hmin hconforms hpv).resolve_right ha
    obtain ⟨b, hb⟩ := (measured_encodedBits hc hmin hconforms hqv).resolve_right hb
    obtain ⟨c, hc'⟩ := (measured_encodedBits hc hmax hconforms hqv).resolve_right hc'
    obtain ⟨d, hd⟩ := (measured_encodedBits hc hmax hconforms hpv).resolve_right hd
    exact ⟨a, b, c, d, ha, hb, hc', hd, bounds_encodedBits hmin hpq ha hb,
      bounds_encodedBits hmin hqv hb (hexact .min), bounds_encodedBits hmax hqv hc' (hexact .max),
      bounds_encodedBits hmax hpq hd hc'⟩

/-- The length of the first node alone, the draft of two nodes, and the two nodes. -/
theorem chain_sizes_bound_iff :
    chain.inconsistencies = [] ∧ chain.conforms (.struct "Node") chainValue = .ok true ∧
      (Value.map [("length", .int 2)]).PartOf chainDraft ∧ chainDraft.PartOf chainValue ∧
      ∃ bytes bits, chain.encode chainValue "Node" = ⟨[.encoded "Node" bits], .ok bytes⟩ ∧
        (∀ mode, chain.encodedBits "Node" mode chainValue = .ok (.finite bits)) ∧
        ((∃ a b c d,
            chain.encodedBits "Node" .min (.map [("length", .int 2)]) = .ok a ∧
            chain.encodedBits "Node" .min chainDraft = .ok b ∧
            chain.encodedBits "Node" .max chainDraft = .ok c ∧
            chain.encodedBits "Node" .max (.map [("length", .int 2)]) = .ok d ∧
            a ≤ b ∧ b ≤ .finite bits ∧ .finite bits ≤ c ∧ c ≤ d) ↔
          chain.encodedBits "Node" .min (.map [("length", .int 2)]) ≠ .error .overflow ∧
            chain.encodedBits "Node" .min chainDraft ≠ .error .overflow ∧
            chain.encodedBits "Node" .max chainDraft ≠ .error .overflow ∧
            chain.encodedBits "Node" .max (.map [("length", .int 2)]) ≠ .error .overflow) := by
  have hlength : (Value.map [("length", .int 2)]).PartOf chainDraft :=
    Value.partOf_map_of_members (List.forall_mem_singleton.mpr (.int 2))
  have hsamples : (Value.list [.int 3]).PartOf (.list [.int 3, .int (-4)]) := by
    refine .list (Nat.le_succ 1) fun i => ?_
    cases i with
    | zero => exact .int 3
    | succ i => exact .null
  have hbody : (Value.map [("length", .int 0), ("note", .null)]).PartOf
      (.map [("length", .int 0), ("kind", .text "leaf"), ("samples", .list []),
        ("body", .text "hé")]) :=
    Value.partOf_map_of_members (List.forall_mem_cons.mpr
      ⟨.int 0, List.forall_mem_singleton.mpr .null⟩)
  have hdraft : chainDraft.PartOf chainValue :=
    Value.partOf_map_of_members (List.forall_mem_cons.mpr ⟨.int 2, List.forall_mem_cons.mpr
      ⟨.text "node", List.forall_mem_cons.mpr ⟨hsamples, List.forall_mem_singleton.mpr hbody⟩⟩⟩)
  exact ⟨chain_inconsistencies, rfl, hlength, hdraft,
    sizes_bound_iff chain_inconsistencies rfl hlength hdraft⟩

/-- A flag or a tower: so many numbers that their bits are beyond the range of doubles, and a text.
-/
def tower : Schema where
  structs :=
    [⟨"S",
      [("op", .enum "Op" false ⟨16, by decide, by decide⟩ none),
        ("x", .union "op" "Op"
          [("L", .int false ⟨16, by decide, by decide⟩ none), ("N", .struct "T")])]⟩,
     ⟨"T",
      [("a", .array (.int false ⟨16, by decide, by decide⟩ none) (.static (Nat.pow 2 1020))),
        ("s", .text .utf8 none)]⟩]
  enums := [⟨"Op", [("L", 0), ("N", 1)]⟩]
  names_nodup := by decide

/-- The greatest size of a consistent schema is not had, though there are values of four bytes. -/
example :
    tower.inconsistencies = [] ∧
      (match tower.encodedBits "S" .max with
        | .error .overflow => true
        | _ => false) = true := by
  decide +kernel

/-! ### The sizes of the fields -/

/-- The fields of a struct of which nothing is known are measured as it is. -/
theorem total_of_unknown {root : Text} {s : StructDef} {mode : Size.Mode} {v : Value} {e : Extent}
    {sizes : List (Text × Extent)} (declared : schema.struct? root = some s)
    (hv : ∀ members, v ≠ .map members) (hbits : schema.encodedBits root mode v = .ok e)
    (hsizes : Size.Listed schema mode
      (Size.ofType schema mode (Size.ofStruct schema mode (Size.depthBound schema v) [s.name]))
      s.fields v.members sizes) : Size.total sizes = e.bits := by
  rcases Size.ofStruct_eq_ok hbits with ⟨_, hm, _⟩ | ⟨_, inner, _, declared', hd, enters, hf⟩
  · cases hm
  · cases declared.symm.trans declared'
    cases enters with
    | known => exact absurd rfl (hv _)
    | unknown =>
        -- the fields are measured with one struct more to go into, which makes no difference
        have hle : inner ≤ Size.depthBound schema v := hd ▸ Nat.le_succ inner
        have hmore := Size.extends_fields
          (fun siblings t => Size.extends_ofType (Size.extends_ofStruct hle [root]) t siblings) hf
        obtain ⟨others, ho, he⟩ := Size.listed_of_addUp hmore
        rw [struct?_name declared] at hsizes
        rw [he, hsizes.unique ho]
        exact (zero_add _).symm

/-- **The sizes of the fields.** Where both are had, the sizes are those of the declared fields in
order, and their sum is not less than the size of the struct. It is the same if and only if that
size is infinite, or the value is no map, or measuring its members never comes back to the struct
without a value of it. -/
theorem fieldSizes_total_iff {root : Text} {s : StructDef} {mode : Size.Mode} {v : Value}
    {e : Extent} {sizes : List (Text × Extent)} (declared : schema.struct? root = some s)
    (hnames : s.fieldNames.Nodup) (hbits : schema.encodedBits root mode v = .ok e)
    (hsizes : schema.fieldSizes root mode v = .ok sizes) :
    sizes.map (·.1) = s.fieldNames ∧ e.bits ≤ Size.total sizes ∧
      (Size.total sizes = e.bits ↔ e = .infinite ∨
        ¬ ∃ members, v = .map members ∧
          Size.RevisitsFields schema mode root [] s.fields members) := by
  rw [fieldSizes, declared] at hsizes
  have hfresh : (([] : List (Text × Extent)).map (·.1) ++ s.fields.map (·.1)).Nodup := hnames
  obtain ⟨sizes, hs, rfl⟩ := Size.listed_of_list hfresh hsizes
  refine ⟨hs.names, ?_⟩
  by_cases hv : ∀ members, v ≠ .map members
  · have htotal := total_of_unknown declared hv hbits hs
    exact ⟨htotal.ge, iff_of_true htotal (Or.inr fun ⟨members, he, _⟩ => hv members he)⟩
  · push Not at hv
    obtain ⟨members, rfl⟩ := hv
    rcases Size.ofStruct_eq_ok hbits with ⟨hv, _⟩ | ⟨_, inner, _, declared', hd, enters, hf⟩
    · exact absurd rfl (hv members)
    · cases declared.symm.trans declared'
      cases enters with
      | known =>
          obtain ⟨others, ho, he⟩ := Size.listed_of_addUp hf
          rw [struct?_name declared] at hs
          have hvisiting : ∀ other, other ∈ [root] ↔ other ∈ [] ∨ other = root := by simp
          have h : Size.Compare mode (Size.RevisitsFields schema mode root [] s.fields members)
              (Size.total others) (Size.total sizes) :=
            Size.compare_of_listed
              (fun _ t _ _ _ => Size.compare_ofType (Size.compare_ofStruct hvisiting) t) ho hs
          have htotal : e.bits = Size.total others := he.trans (zero_add _)
          rw [← htotal] at h
          refine ⟨h.le, h.eq_iff.trans (or_congr e.bits_eq_top_iff (not_congr ?_))⟩
          exact ⟨fun hr => ⟨members, rfl, hr⟩, fun ⟨_, he, hr⟩ => by cases he; exact hr⟩
      | unknown hv => exact absurd rfl (hv members)

/-- The first node of a chain, of which only the kind is known. -/
def chainHead : Value := .map [("kind", .text "node")]

/-- The first node takes 28 bits, but among its fields the next node counts as visited. -/
theorem chainHead_fieldSizes_total_iff :
    ∃ s e sizes, chain.struct? "Node" = some s ∧ s.fieldNames.Nodup ∧
      chain.encodedBits "Node" .default chainHead = .ok e ∧ e = .finite 28 ∧
      chain.fieldSizes "Node" .default chainHead = .ok sizes ∧
      sizes = ([("length", .finite 8), ("kind", .finite 2), ("samples", .finite 0),
        ("body", .infinite)] : List (Text × Extent)) ∧
      sizes.map (·.1) = s.fieldNames ∧ e.bits ≤ Size.total sizes ∧
      (Size.total sizes = e.bits ↔ e = .infinite ∨
        ¬ ∃ members, chainHead = .map members ∧
          Size.RevisitsFields chain .default "Node" [] s.fields members) := by
  have hbits : chain.encodedBits "Node" .default chainHead = .ok (.finite 28) :=
    Outcome.eq_ok_of_toOption (by decide +kernel)
  have hsizes : chain.fieldSizes "Node" .default chainHead = .ok
      [("length", .finite 8), ("kind", .finite 2), ("samples", .finite 0), ("body", .infinite)] :=
    Outcome.eq_ok_of_toOption (by decide +kernel)
  refine ⟨_, _, _, rfl, by decide, hbits, rfl, hsizes, rfl, ?_⟩
  exact fieldSizes_total_iff rfl (by decide) hbits hsizes

end Schema

end WireSchema
