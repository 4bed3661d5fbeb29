import WireSchema.Proofs.Capped
import WireSchema.Proofs.Codec.ReadWalk

/-!
# Codec — Reading without a bound on nesting

The decoder counts the structs that it opens inside one another. What it does between is to read a
struct with some reader of the structs inside it (`Decode.opened`), and a reader that knows no bound
is one that does so with itself (`Decode.Unbounded`).

A bound only ever cuts: whatever the decoder reads with some bound, every reader without a bound
reads alike (`Decode.capped`, by `Decode.Approximates`, which each loop of the decoder keeps). In a
schema without cycles there are bounds that do not cut (`Decode.ofStruct_ne_tooDeep`); so there is a
reader without a bound, and no other (`Decode.unbounded_reader`, `Decode.Unbounded.eq_reader`).
-/

namespace WireSchema

namespace Decode

variable {schema : Schema}

/-- The one reader reads as the other does, unless it is stopped for the nesting of structs. -/
def Approximates (one whole : Path → Cursor → Decoding) : Prop :=
  ∀ path c, one path c = .stopped .tooDeep ∨ one path c = whole path c

/-- Reads a declared struct, and the structs inside it with another reader. -/
def opened (schema : Schema) (reader : Text → Path → Cursor → Decoding) (name : Text)
    (path : Path) (c : Cursor) : Decoding :=
  match schema.struct? name with
  | none => .fail (.unknownStruct name) path
  | some s => fields (ofType schema reader) path s.fields [] c

/-- A reader of declared structs that reads the structs inside them itself, however deep. -/
def Unbounded (schema : Schema) (reader : Text → Path → Cursor → Decoding) : Prop :=
  ∀ name path c, reader name path c = opened schema reader name path c

theorem ofStruct_succ (depth : Nat) (name : Text) (path : Path) (c : Cursor) :
    ofStruct schema (depth + 1) name path c =
      opened schema (ofStruct schema depth) name path c := by
  cases hs : schema.struct? name with
  | none => simp only [ofStruct, opened, hs]
  | some s => simp only [ofStruct, opened, hs]

/-- Without room for a struct only what is not declared is read. -/
theorem ofStruct_zero (reader : Text → Path → Cursor → Decoding) (name : Text) (path : Path)
    (c : Cursor) : ofStruct schema 0 name path c = .stopped .tooDeep ∨
      ofStruct schema 0 name path c = opened schema reader name path c := by
  rw [ofStruct, opened]
  cases schema.struct? name with
  | none => exact .inr rfl
  | some s => exact .inl rfl

/-! ### A bound only cuts -/

theorem approximates_elements {one whole : Path → Cursor → Decoding} (h : Approximates one whole)
    {path : Path} {length count : Nat} : ∀ {read : List Value} {c : Cursor},
      elements one path length count read c = .stopped .tooDeep ∨
        elements one path length count read c = elements whole path length count read c := by
  induction count with
  | zero => exact .inr rfl
  | succ count ih =>
      intro read c
      rw [elements, elements]
      rcases h (path.element (length - (count + 1))) c with hd | he
      · rw [hd]
        exact .inl rfl
      · rw [he]
        cases whole (path.element (length - (count + 1))) c with
        | done v rest => exact ih
        | cut => exact .inr rfl
        | stopped => exact .inr rfl

theorem approximates_fields {one whole : Fields → FieldType → Path → Cursor → Decoding}
    (h : ∀ read t, Approximates (one read t) (whole read t)) {path : Path}
    {left : List (Text × FieldType)} : ∀ {read : Fields} {c : Cursor},
      Decode.fields one path left read c = .stopped .tooDeep ∨
        Decode.fields one path left read c = Decode.fields whole path left read c := by
  induction left with
  | nil => exact .inr rfl
  | cons head left ih =>
      obtain ⟨name, t⟩ := head
      intro read c
      rw [Decode.fields, Decode.fields]
      rcases h read t (path.child name) c with hd | he
      · rw [hd]
        exact .inl rfl
      · rw [he]
        cases whole read t (path.child name) c with
        | done v rest => exact ih
        | cut => exact .inr rfl
        | stopped => exact .inr rfl

theorem approximates_ofType {struct whole : Text → Path → Cursor → Decoding} {siblings : Fields}
    (h : ∀ name, Approximates (struct name) (whole name)) (t : FieldType) :
    Approximates (ofType schema struct siblings t) (ofType schema whole siblings t) := by
  induction t with
  | int | text | enum => exact fun _ _ => .inr rfl
  | float width => cases width <;> exact fun _ _ => .inr rfl
  | struct name => exact h name
  | array element length ih =>
      intro path c
      rw [ofType, ofType]
      cases length.resolve siblings with
      | error field => exact .inr rfl
      | ok count => exact approximates_elements ih
  | union discriminant enumName cases ih =>
      intro path c
      rw [ofType, ofType]
      cases siblings.label? discriminant with
      | none => exact .inr rfl
      | some label =>
          dsimp only
          rw [ofCase_eq, ofCase_eq]
          cases hu : Fields.get? cases label with
          | none => exact .inr rfl
          | some t => exact ih label t (Fields.mem_of_get? hu) path c

theorem approximates_opened {one whole : Text → Path → Cursor → Decoding}
    (h : ∀ name, Approximates (one name) (whole name)) (name : Text) :
    Approximates (opened schema one name) (opened schema whole name) := by
  intro path c
  rw [opened, opened]
  cases schema.struct? name with
  | none => exact .inr rfl
  | some s => exact approximates_fields fun _ t => approximates_ofType h t

/-- The decoder with a bound is cut by it, and else does what it does without. -/
theorem capped (schema : Schema) :
    Capped (· = .stopped .tooDeep) (opened schema) (ofStruct schema) where
  zero := ofStruct_zero
  succ := ofStruct_succ
  keeps := approximates_opened

/-! ### A bound that does not cut -/

/-- With so many bits left, no struct is too deep. -/
theorem ofStruct_ne_tooDeep (ha : schema.Acyclic) {depth : Nat} {c : Cursor}
    (h : (c.remaining + 1) * schema.structs.length ≤ depth) (name : Text) (path : Path) :
    ofStruct schema depth name path c ≠ .stopped .tooDeep := by
  intro hd
  have room : Task.Room schema depth (.value [] [] (.struct name) path c) := room_struct ha h
  have stops : (Task.value [] [] (.struct name) path c).Stops schema .tooDeep depth := hd
  obtain ⟨_, _, _, fails⟩ := (ends_of_stops stops).exists_fails
    (R := Task.Room schema) (fun h => h.room ha) Opens.room room
  cases fails

/-- The decoder of structs with the bound that the bits left allow for. -/
def reader (schema : Schema) (name : Text) (path : Path) (c : Cursor) : Decoding :=
  ofStruct schema ((c.remaining + 1) * schema.structs.length) name path c

theorem run_eq_reader (data : Array UInt8) (root : Text) :
    run schema data root = reader schema root (Path.ofRoot root) (Cursor.ofBytes data) :=
  rfl

theorem enough (ha : schema.Acyclic) :
    Capped.Enough (· = .stopped .tooDeep) (ofStruct schema)
      fun c => (c.remaining + 1) * schema.structs.length :=
  fun _ name path _ h => ofStruct_ne_tooDeep ha h name path

/-- With a bound that does not cut, the decoder reads as with any other such. -/
theorem ofStruct_eq_reader (ha : schema.Acyclic) {depth : Nat} {c : Cursor}
    (h : (c.remaining + 1) * schema.structs.length ≤ depth) (name : Text) (path : Path) :
    ofStruct schema depth name path c = reader schema name path c :=
  (capped schema).eq_of_enough (enough ha) h name path

/-- In a schema without cycles there is a reader that knows no bound. -/
theorem unbounded_reader (ha : schema.Acyclic) : Unbounded schema (reader schema) :=
  (capped schema).solves (enough ha)

/-- There is no other. -/
theorem Unbounded.eq_reader (ha : schema.Acyclic)
    {other : Text → Path → Cursor → Decoding} (h : Unbounded schema other) :
    other = reader schema :=
  (capped schema).eq_of_solution (enough ha) h

end Decode

end WireSchema
