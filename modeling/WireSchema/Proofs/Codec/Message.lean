import WireSchema.Codec.Siblings
import WireSchema.Proofs.Bits.Number
import WireSchema.Proofs.Text.Charset
import WireSchema.Proofs.Value
import WireSchema.Schema.Basic

/-!
# Codec — The grammar of messages

Which bits spell which value, said once for encoder and decoder: `Spells schema siblings t v bs
raws` holds when the bits `bs` are a message of the type `t` that is read as `v`, among the siblings
read before it. Numbers and labels are exactly their bits. Strings and floats need not be, for some
are read alike; so a message also lists, in order, what its strings and floats were read from
(`Raw`). Where all of these are clean the bits are exactly those that the value is written as.

The three relations follow the program: a struct is a sequence of fields, each among those before
it, and an array is a sequence of elements.
-/

namespace WireSchema

/-- What a string or a float was read from. -/
inductive Raw
  | float (x : Binary64)
  | text (charset : Charset) (bytes : List UInt8)

/-- Whether what was read comes back as the same bits: a float that is a number, bytes that are the
encoding of some text. -/
def Raw.Clean : Raw → Prop
  | float x => x.isNaN = false
  | text charset bytes => charset.WellFormed bytes

namespace Bits

/-- The integer that bits spell, in two's complement if it is signed. -/
def integer (signed : Bool) (bs : Bits) : Int := if signed then bs.toInt else bs.toNat

/-- Bits spell one integer only. -/
theorem ofInt_integer (signed : Bool) (bs : Bits) : ofInt bs.length (integer signed bs) = bs := by
  cases signed
  · exact ofInt_toNat bs
  · exact ofInt_toInt bs

/-- An integer that fits is spelled by its bits. -/
theorem integer_ofInt {signed : Bool} {w : Nat} (hw : 1 ≤ w) {v : Int}
    (h : fits signed w v = true) : integer signed (ofInt w v) = v := by
  cases signed
  · exact toNat_ofInt_of_fits h
  · exact toInt_ofInt_of_fits hw h

end Bits

/-- The number that the bytes of a single-precision field are read as. -/
def Binary64.ofSingleBytes (bytes : List UInt8) : Binary64 :=
  Binary64.widen (Binary.ofNat _ (ofLittleEndian bytes))

/-- The number that the bytes of a double-precision field are read as. -/
def Binary64.ofDoubleBytes (bytes : List UInt8) : Binary64 := Binary.ofNat _ (ofLittleEndian bytes)

section

variable (schema : Schema)

mutual

/-- The bits `bs` spell `v` as a value of a type among siblings. -/
inductive Spells : Fields → FieldType → Value → Bits → List Raw → Prop
  | int {siblings signed default? bs} {width : BitWidth} (hl : bs.length = width.bits) :
      Spells siblings (.int signed width default?) (.int (Bits.integer signed bs)) bs []
  | single {siblings default? bytes} (hl : bytes.length = 4) :
      Spells siblings (.float .f32 default?) (.float (Binary64.ofSingleBytes bytes))
        (Bits.ofBytes bytes) [.float (Binary64.ofSingleBytes bytes)]
  | double {siblings default? bytes} (hl : bytes.length = 8) :
      Spells siblings (.float .f64 default?) (.float (Binary64.ofDoubleBytes bytes))
        (Bits.ofBytes bytes) [.float (Binary64.ofDoubleBytes bytes)]
  | text {siblings charset default? bytes} (hz : 0 ∉ bytes) :
      Spells siblings (.text charset default?) (.text (charset.decodeText bytes))
        (Bits.ofBytes (bytes ++ [0])) [.text charset bytes]
  | enum {siblings name signed default? e label bs} {width : BitWidth}
      (declared : schema.enum? name = some e) (hl : bs.length = width.bits)
      (found : e.labelOf? (Bits.integer signed bs) = some label) :
      Spells siblings (.enum name signed width default?) (.text label) bs []
  | struct {siblings name s members bs raws} (declared : schema.struct? name = some s)
      (fields : SpellsFields s.fields [] members bs raws) :
      Spells siblings (.struct name) (.map members) bs raws
  | array {siblings element length items bs raws}
      (counted : length.resolve siblings = .ok items.length)
      (elements : SpellsElements siblings element items bs raws) :
      Spells siblings (.array element length) (.list items) bs raws
  | union {siblings discriminant enumName cases label t v bs raws}
      (chosen : siblings.label? discriminant = some label)
      (case : Fields.get? cases label = some t) (value : Spells siblings t v bs raws) :
      Spells siblings (.union discriminant enumName cases) v bs raws

/-- The bits of elements, one behind the other. -/
inductive SpellsElements : Fields → FieldType → List Value → Bits → List Raw → Prop
  | nil {siblings t} : SpellsElements siblings t [] [] []
  | cons {siblings t v items bs cs raws more} (first : Spells siblings t v bs raws)
      (rest : SpellsElements siblings t items cs more) :
      SpellsElements siblings t (v :: items) (bs ++ cs) (raws ++ more)

/-- The bits of fields, one behind the other, each among those before it; `read` are the fields
before, and `all` what they are with these. -/
inductive SpellsFields : List (Text × FieldType) → (read all : Fields) → Bits → List Raw → Prop
  | nil {read} : SpellsFields [] read read [] []
  | cons {name t fields read all v bs cs raws more} (first : Spells read t v bs raws)
      (rest : SpellsFields fields (Fields.put read name v) all cs more) :
      SpellsFields ((name, t) :: fields) read all (bs ++ cs) (raws ++ more)

end

end

/-! ### Lookups in siblings -/

/-- A value that a union or an array takes from a sibling. -/
def Value.Resolves : Value → Prop
  | .int _ | .text _ => True
  | _ => False

namespace Fields

variable {siblings : Fields} {field : Text}

/-- A label that is looked up is a text field, and not empty. -/
theorem exists_of_label? {label : Text} (h : siblings.label? field = some label) :
    get? siblings field = some (.text label) ∧ label.isEmpty = false := by
  unfold label? at h
  split at h
  · next l hg =>
      by_cases he : l.isEmpty
      · rw [if_pos he] at h
        cases h
      · rw [if_neg he] at h
        cases h
        exact ⟨hg, Bool.of_not_eq_true he⟩
  · cases h

/-- A count that is looked up is an integer field; a negative one counts as nothing. -/
theorem exists_of_count? {count : Nat} (h : siblings.count? field = some count) :
    ∃ i : Int, get? siblings field = some (.int i) ∧ i.toNat = count := by
  unfold count? at h
  split at h
  · next i hg => exact ⟨i, hg, Option.some.inj h⟩
  · cases h

/-- Some field holds an integer or a label. -/
def Resolve (siblings : Fields) : Prop :=
  ∃ field v, get? siblings field = some v ∧ v.Resolves

theorem resolve_of_label? {label : Text} (h : siblings.label? field = some label) :
    siblings.Resolve :=
  ⟨field, .text label, (exists_of_label? h).1, trivial⟩

theorem resolve_of_dynamic {count : Nat}
    (h : (ArrayLength.dynamic field).resolve siblings = .ok count) : siblings.Resolve := by
  obtain ⟨i, hg, -⟩ := exists_of_count? (ArrayLength.resolve_dynamic_eq_ok_iff.mp h)
  exact ⟨field, .int i, hg, trivial⟩

/-- What can be looked up was there before, or has been put there. -/
theorem Resolve.of_put {name : Text} {v : Value} (h : Resolve (put siblings name v)) :
    siblings.Resolve ∨ v.Resolves := by
  obtain ⟨field, w, hg, hw⟩ := h
  rcases get?_put_cases hg with ⟨-, rfl⟩ | ⟨-, hg⟩
  · exact Or.inr hw
  · exact Or.inl ⟨field, w, hg, hw⟩

end Fields

/-! ### What is read -/

variable {schema : Schema}

/-- Nothing is read as null. -/
theorem Spells.ne_null {siblings : Fields} {t : FieldType} {v : Value} {bs : Bits}
    {raws : List Raw} : Spells schema siblings t v bs raws → v.isNull = false
  | .int _ | .single _ | .double _ | .text _ | .enum .. | .struct .. | .array .. => rfl
  | .union _ _ value => value.ne_null

/-- An integer or a label takes at least one bit. -/
theorem Spells.length_pos {siblings : Fields} {t : FieldType} {v : Value} {bs : Bits}
    {raws : List Raw} (hv : v.Resolves) : Spells schema siblings t v bs raws → 1 ≤ bs.length
  | .int hl => Nat.le_trans (BitWidth.pos _) (Nat.le_of_eq hl.symm)
  | .text _ => by rw [Bits.length_ofBytes, List.length_append, List.length_singleton]; omega
  | .enum _ hl _ => Nat.le_trans (BitWidth.pos _) (Nat.le_of_eq hl.symm)
  | .union _ _ value => value.length_pos hv

/-- Reading on changes no field that has been read. -/
theorem SpellsFields.get?_of_notMem {fields : List (Text × FieldType)} {read all : Fields}
    {bs : Bits} {raws : List Raw} {name : Text} (hn : name ∉ fields.map (·.1)) :
    SpellsFields schema fields read all bs raws → Fields.get? all name = Fields.get? read name
  | .nil => rfl
  | .cons _ rest => by
      rw [List.map_cons, List.mem_cons, not_or] at hn
      rw [rest.get?_of_notMem hn.2, Fields.get?_put_of_ne hn.1]

/-- Only declared fields are read. -/
theorem SpellsFields.mem_names {fields : List (Text × FieldType)} {all : Fields} {bs : Bits}
    {raws : List Raw} (h : SpellsFields schema fields [] all bs raws) {name : Text}
    (hm : name ∈ all.map (·.1)) : name ∈ fields.map (·.1) := by
  refine Decidable.byContradiction fun hn => ?_
  have hs := Fields.isSome_get?_iff.mpr hm
  rw [h.get?_of_notMem hn] at hs
  cases hs

end WireSchema
