import WireSchema.Proofs.Codec.Wire

/-!
# Codec — Places in what is read

Where the encoder comes, there the decoder's value has a place: the path of the position leads in it
to what is read for the value that is written there (`Rereads.exists_at?`). One step of the encoder
is one step into the value that is read (`Encode.Leads.placed`, `Encode.Opens.placed`), since the
elements of an array are read in their order and no field of a struct is named twice.
-/

namespace WireSchema

variable {schema : Schema}

namespace Encode

/-- What is read for a position stands in `w` at its path. -/
def Task.PlacedIn (schema : Schema) (w : Value) : Task → Prop
  | value _ written t path v => ∃ x, w.at? path.steps = some x ∧ Rereads schema written t v x
  | elements _ written t path i count items =>
      ∃ xs, xs.length = count ∧ RereadsElements schema written t items xs ∧
        ∀ k x, xs[k]? = some x → w.at? (path.element (i + k)).steps = some x
  | fields members left path _ written =>
      (left.map (·.1)).Nodup ∧ ∃ read all, w.at? path.steps = some (.map all) ∧
        RereadsFields schema members left written read all

variable {w : Value}

/-- Where fields have their places, so have the first of them and those behind it. -/
theorem placed_field {members : Fields} {name : Text} {t : FieldType}
    {left : List (Text × FieldType)} {path : Path} {earlier : Consistency.Earlier}
    {written : Fields} {v : Value}
    (placed : (Task.fields members ((name, t) :: left) path earlier written).PlacedIn schema w)
    (stands : Stands schema true written t ((Fields.get? members name).getD .null) v) :
    (Task.value earlier written t (path.child name) v).PlacedIn schema w ∧
      (Task.fields members left path (Fields.put earlier name t)
        (Fields.put written name v)).PlacedIn schema w := by
  obtain ⟨hnodup, read, all, hat, rereads⟩ := placed
  obtain ⟨hname, hrest⟩ := List.nodup_cons.mp hnodup
  cases rereads with
  | cons stands' first rest =>
      cases stands.unique stands'
      have hget := (rest.get?_of_notMem hname).trans Fields.get?_put_self
      exact ⟨⟨_, Value.at?_child hat hget, first⟩, hrest, _, all, hat, rest⟩

/-- Where a value has its place, so has all that lies in it. -/
theorem Leads.placed {a b : Task} (h : Leads schema a b) (placed : a.PlacedIn schema w) :
    b.PlacedIn schema w := by
  cases h with
  | array counted =>
      obtain ⟨x, hat, rereads⟩ := placed
      cases rereads with
      | array counted' rereads =>
          cases counted.symm.trans counted'
          refine ⟨_, rfl, rereads, fun k x hx => ?_⟩
          rw [Nat.zero_add]
          exact Value.at?_element hat hx
  | case chosen case =>
      obtain ⟨x, hat, rereads⟩ := placed
      cases rereads with
      | union chosen' case' rereads =>
          cases chosen.symm.trans chosen'
          cases case.symm.trans case'
          exact ⟨x, hat, rereads⟩
  | element stands =>
      obtain ⟨xs, hlength, rereads, hat⟩ := placed
      cases rereads with
      | nil => cases hlength
      | cons stands' first _ =>
          cases stands.unique stands'
          exact ⟨_, hat 0 _ rfl, first⟩
  | nextElement =>
      obtain ⟨xs, hlength, rereads, hat⟩ := placed
      cases rereads with
      | nil => cases hlength
      | cons _ _ rest =>
          refine ⟨_, Nat.succ.inj hlength, rest, fun k x hx => ?_⟩
          rw [Nat.add_assoc, Nat.add_comm 1]
          exact hat (k + 1) x hx
  | field stands => exact (placed_field placed stands).1
  | nextField stands => exact (placed_field placed stands).2

/-- Where a struct has its place, so have its fields. -/
theorem Opens.placed (hc : schema.Consistent) {a b : Task} (h : Opens schema a b)
    (placed : a.PlacedIn schema w) : b.PlacedIn schema w := by
  cases h with
  | struct declared =>
      obtain ⟨x, hat, rereads⟩ := placed
      cases rereads with
      | struct declared' rereads =>
          cases declared.symm.trans declared'
          exact ⟨(hc.fields_sound declared).names.1, [], _, hat, rereads⟩

end Encode

/-- The path of a position to which the encoder comes leads to what is read for the value there. -/
theorem Rereads.exists_at? (hc : schema.Consistent) {root : Text} {v w : Value}
    (h : Rereads schema [] (.struct root) v w) {n : Nat} {earlier : Consistency.Earlier}
    {written : Fields} {t : FieldType} {path : Path} {u : Value}
    (walk : Encode.Reaches schema n (.start root v) (.value earlier written t path u)) :
    ∃ x, w.at? path.steps = some x ∧ Rereads schema written t u x :=
  walk.keeps (P := Encode.Task.PlacedIn schema w) Encode.Leads.placed (Encode.Opens.placed hc)
    ⟨w, rfl, h⟩

end WireSchema
