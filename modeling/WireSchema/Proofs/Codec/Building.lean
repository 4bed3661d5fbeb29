import WireSchema.Proofs.Codec.Defaults
import WireSchema.Proofs.Walk

/-!
# Codec — Defaults without a bound on nesting

A struct that is being built is not built again inside itself, so every struct that is opened on the
way to a default is one less that can be (`Schema.unentered`). Whatever the structs embed, building
therefore ends: a bound on the nesting that allows for each struct once cuts nothing
(`Default.faults_ofStruct`), and there is one builder of structs that knows no bound
(`Default.unbounded_builder`, `Default.Unbounded.eq_builder`).

`Default.Task` is a position of a building, `Default.Reaches` the way from one to another. No way
opens more structs inside one another than there are (`Default.openings_le`).

With fewer structs under way as much can be built, and with more as well, if those that are more
have no default anyway (`Default.builder_of_builder`). So a struct has a default if its fields have,
each built on its own (`Default.defaultValue_struct_iff`).
-/

namespace WireSchema

namespace Outcome

/-- What has no outcome has none for a fault, of which the position is yet to be found. -/
def Faults {α : Type} (a : Outcome α) : Prop := ∀ e, a = .error e → ∃ cause, e = .fault cause none

variable {α : Type}

theorem Faults.ok {a : α} : Faults (.ok a) := fun _ h => nomatch h

theorem Faults.fail {cause : Fault} : Faults (Outcome.fail cause : Outcome α) :=
  fun _ h => ⟨cause, (Except.error.inj h).symm⟩

end Outcome

variable {schema : Schema}

namespace Default

open Outcome (Faults)

/-- Builds the default of a declared struct, and those of the structs inside it with another
builder. -/
def opened (schema : Schema) (builder : List Text → Text → Outcome Value)
    (building : List Text) (name : Text) : Outcome Value :=
  match schema.struct? name with
  | none => .fail (.unknownStruct name)
  | some s =>
      if name ∈ building then .fail (.endlessDefault name)
      else .map <$> ofFields (ofType schema (builder (name :: building))) s.fields []

/-- A builder of declared structs that builds the structs inside them itself, however deep. -/
def Unbounded (schema : Schema) (builder : List Text → Text → Outcome Value) : Prop :=
  ∀ building name, builder building name = opened schema builder building name

theorem ofStruct_succ (depth : Nat) (building : List Text) (name : Text) :
    ofStruct schema (depth + 1) building name =
      opened schema (ofStruct schema depth) building name := by
  cases hs : schema.struct? name with
  | none => simp only [ofStruct, opened, hs]
  | some s => simp only [ofStruct, opened, hs]

/-- Where every struct is under way, no builder is asked for what lies inside. -/
theorem ofStruct_zero (builder : List Text → Text → Outcome Value) {building : List Text}
    (h : schema.unentered building = 0) (name : Text) :
    ofStruct schema 0 building name = opened schema builder building name := by
  rw [ofStruct, opened]
  cases hs : schema.struct? name with
  | none => rfl
  | some s =>
      refine ite_congr rfl (fun _ => rfl) fun hb => ?_
      exact absurd (Schema.unentered_cons_lt hs hb) (by omega)

/-- Building alike with one more struct under way is building a struct alike. -/
theorem opened_congr {builder other : List Text → Text → Outcome Value}
    {building : List Text} {name : Text}
    (h : schema.unentered (name :: building) < schema.unentered building →
      builder (name :: building) = other (name :: building)) :
    opened schema builder building name = opened schema other building name := by
  rw [opened, opened]
  cases hs : schema.struct? name with
  | none => rfl
  | some s =>
      refine ite_congr rfl (fun _ => rfl) fun hb => ?_
      rw [h (Schema.unentered_cons_lt hs hb)]

/-- With as many openings as there are structs left, a struct is built as without a bound. -/
theorem Unbounded.eq_ofStruct {builder : List Text → Text → Outcome Value}
    (h : Unbounded schema builder) {depth : Nat} :
    ∀ {building : List Text}, schema.unentered building ≤ depth →
      builder building = ofStruct schema depth building := by
  induction depth with
  | zero =>
      intro building hleft
      funext name
      rw [h, ofStruct_zero builder (Nat.le_zero.mp hleft)]
  | succ depth ih =>
      intro building hleft
      funext name
      rw [h, ofStruct_succ]
      exact opened_congr fun hlt => ih (by omega)

/-- One opening more than there are structs left changes nothing. -/
theorem ofStruct_succ_eq_self {depth : Nat} :
    ∀ {building : List Text}, schema.unentered building ≤ depth →
      ofStruct schema (depth + 1) building = ofStruct schema depth building := by
  induction depth with
  | zero =>
      intro building hleft
      funext name
      rw [ofStruct_succ, ofStruct_zero _ (Nat.le_zero.mp hleft)]
  | succ depth ih =>
      intro building hleft
      funext name
      rw [ofStruct_succ, ofStruct_succ]
      exact opened_congr fun hlt => ih (by omega)

/-- The builder of structs with as many openings as there are structs. -/
def builder (schema : Schema) : List Text → Text → Outcome Value :=
  ofStruct schema schema.structs.length

theorem unbounded_builder (schema : Schema) : Unbounded schema (builder schema) := by
  intro building name
  rw [builder, ← ofStruct_succ, ofStruct_succ_eq_self (Schema.unentered_le schema building)]

/-- There is no other builder without a bound. -/
theorem Unbounded.eq_builder {other : List Text → Text → Outcome Value}
    (h : Unbounded schema other) : other = builder schema :=
  funext fun building => h.eq_ofStruct (Schema.unentered_le schema building)

theorem defaultValue_eq (t : FieldType) (siblings : Fields) :
    schema.defaultValue t siblings = ofType schema (builder schema []) siblings t :=
  rfl

theorem ofType_eq_defaultValue {depth : Nat} (h : schema.structs.length ≤ depth) (t : FieldType)
    (siblings : Fields) :
    ofType schema (ofStruct schema depth []) siblings t = schema.defaultValue t siblings := by
  rw [defaultValue_eq,
    (unbounded_builder schema).eq_ofStruct (Nat.le_trans (Schema.unentered_le schema []) h)]

/-! ### Why building fails -/

/-- Building a type fails for a fault, if building its structs does. -/
theorem faults_ofType {struct : Text → Outcome Value} {siblings : Fields}
    (hstruct : ∀ name, Faults (struct name)) (t : FieldType) :
    Faults (ofType schema struct siblings t) := by
  induction t with
  | int | float | text => exact .ok
  | enum name signed width default? =>
      rw [ofType]
      split
      · exact .fail
      · split
        · exact .ok
        · exact .ok
        · exact .fail
  | struct name => exact hstruct name
  | array element length ih =>
      rw [ofType]
      split
      · exact .ok
      · exact .ok
      · split
        · exact .ok
        · next e he => exact fun _ h => ih _ (he.trans h)
  | union discriminant enumName cases ih =>
      have hcase : ∀ label, Faults (ofCase schema struct siblings discriminant label cases) := by
        intro label
        rw [ofCase_eq]
        cases hu : Fields.get? cases label with
        | none => exact .fail
        | some t => exact ih label t (Fields.mem_of_get? hu)
      rw [ofType]
      split
      · exact hcase _
      · split
        · exact .fail
        · split
          · exact hcase _
          · exact .fail

theorem faults_ofFields {one : Fields → FieldType → Outcome Value}
    (hone : ∀ built t, Faults (one built t)) {fields : List (Text × FieldType)} :
    ∀ {built : Fields}, Faults (ofFields one fields built) := by
  induction fields with
  | nil => exact .ok
  | cons head rest ih =>
      obtain ⟨name, t⟩ := head
      intro built
      rw [ofFields]
      split
      · exact ih
      · next e he =>
          intro _ h
          cases h
          exact hone built t _ he

/-- **Building ends.** With as many openings as there are structs left, no struct is too deep. -/
theorem faults_ofStruct {depth : Nat} : ∀ {building : List Text},
    schema.unentered building ≤ depth → ∀ name, Faults (ofStruct schema depth building name) := by
  induction depth with
  | zero =>
      intro building hleft name
      rw [ofStruct]
      cases hs : schema.struct? name with
      | none => exact .fail
      | some s =>
          dsimp only
          split
          · exact .fail
          · next hb => exact absurd (Schema.unentered_cons_lt hs hb) (by omega)
  | succ depth ih =>
      intro building hleft name
      rw [ofStruct]
      cases hs : schema.struct? name with
      | none => exact .fail
      | some s =>
          dsimp only
          split
          · exact .fail
          · next hb =>
              have hlt := Schema.unentered_cons_lt hs hb
              have hfields : Faults (ofFields
                  (ofType schema (ofStruct schema depth (name :: building))) s.fields []) :=
                faults_ofFields fun _ t => faults_ofType (ih (by omega)) t
              intro e h
              cases hf : ofFields (ofType schema (ofStruct schema depth (name :: building)))
                  s.fields [] with
              | ok all =>
                  rw [hf] at h
                  cases h
              | error e' =>
                  rw [hf] at h
                  cases h
                  exact hfields _ hf

theorem faults_defaultValue (t : FieldType) (siblings : Fields) :
    Faults (schema.defaultValue t siblings) :=
  faults_ofType (faults_ofStruct (Schema.unentered_le schema [])) t

/-- Building a default never runs out of room. -/
theorem defaultValue_ne_tooDeep (t : FieldType) (siblings : Fields) :
    schema.defaultValue t siblings ≠ .error .tooDeep := by
  intro h
  obtain ⟨cause, he⟩ := faults_defaultValue t siblings _ h
  cases he

/-! ### The way to a default -/

/-- What is about to be built, with these structs under way. -/
inductive Task
  | value (building : List Text) (siblings : Fields) (t : FieldType)
  /-- The fields that are left of a struct, behind those built. -/
  | fields (building : List Text) (left : List (Text × FieldType)) (built : Fields)

/-- The structs under way. -/
def Task.building : Task → List Text
  | value building _ _ | fields building _ _ => building

section

variable (schema : Schema)

/-- A step of building within a struct. -/
inductive Leads : Task → Task → Prop
  | element {building siblings element length count}
      (counted : length.resolve siblings = .ok (count + 1)) :
      Leads (.value building siblings (.array element length)) (.value building siblings element)
  | case {building siblings discriminant enumName cases label t}
      (chosen : siblings.label? discriminant = some label)
      (case : Fields.get? cases label = some t) :
      Leads (.value building siblings (.union discriminant enumName cases))
        (.value building siblings t)
  | firstCase {building siblings discriminant enumName cases e label t}
      (unknown : siblings.label? discriminant = none) (declared : schema.enum? enumName = some e)
      (first : e.firstLabel? = some label) (case : Fields.get? cases label = some t) :
      Leads (.value building siblings (.union discriminant enumName cases))
        (.value building siblings t)
  | field {building name t left built} :
      Leads (.fields building ((name, t) :: left) built) (.value building built t)
  | nextField {building name t left built v}
      (first : ofType schema (builder schema building) built t = .ok v) :
      Leads (.fields building ((name, t) :: left) built)
        (.fields building left (Fields.put built name v))

/-- The step of building into a struct that is not under way. -/
inductive Opens : Task → Task → Prop
  | struct {building siblings name s} (declared : schema.struct? name = some s)
      (fresh : name ∉ building) :
      Opens (.value building siblings (.struct name)) (.fields (name :: building) s.fields [])

/-- The way of a building from a position to another. -/
abbrev Reaches : Nat → Task → Task → Prop := Walk (Leads schema) (Opens schema)

end

theorem Leads.building_eq {a b : Task} (h : Leads schema a b) : b.building = a.building := by
  cases h <;> rfl

/-- What is opened was not under way before. -/
theorem Opens.unentered_lt {a b : Task} (h : Opens schema a b) :
    schema.unentered b.building < schema.unentered a.building := by
  cases h with
  | struct declared fresh => exact Schema.unentered_cons_lt declared fresh

/-- **No struct is opened twice** on the way to a default, so no more than there are. -/
theorem openings_le {n : Nat} {a b : Task} (walk : Reaches schema n a b) :
    n ≤ schema.unentered a.building :=
  walk.openings_le (m := fun task => schema.unentered task.building)
    (fun h => Nat.le_of_eq (by rw [h.building_eq])) Opens.unentered_lt

/-! ### More and fewer structs under way -/

/-- A struct without a default, whatever is under way. -/
def Barren (schema : Schema) (name : Text) : Prop :=
  ∀ building d, builder schema building name ≠ .ok d

theorem builder_ne_tooDeep (building : List Text) (name : Text) :
    builder schema building name ≠ .error .tooDeep := by
  intro h
  obtain ⟨cause, he⟩ := faults_ofStruct (Schema.unentered_le schema building) name _ h
  cases he

/-- A default that is built is that of the struct's fields, with the struct among those under way.
-/
theorem builder_eq_ok {building : List Text} {name : Text} {d : Value}
    (h : builder schema building name = .ok d) :
    ∃ s all, schema.struct? name = some s ∧ name ∉ building ∧
      ofFields (ofType schema (builder schema (name :: building))) s.fields [] = .ok all ∧
      d = .map all := by
  rw [unbounded_builder schema building name, opened] at h
  cases hs : schema.struct? name with
  | none =>
      rw [hs] at h
      cases h
  | some s =>
      rw [hs] at h
      dsimp only at h
      split at h
      · cases h
      · next hb =>
          cases hf : ofFields (ofType schema (builder schema (name :: building))) s.fields [] with
          | error e =>
              rw [hf] at h
              cases h
          | ok all =>
              rw [hf] at h
              exact ⟨s, all, rfl, hb, hf, (Except.ok.inj h).symm⟩

theorem builder_of_ofFields {building : List Text} {name : Text} {s : StructDef} {all : Fields}
    (hs : schema.struct? name = some s) (hb : name ∉ building)
    (h : ofFields (ofType schema (builder schema (name :: building))) s.fields [] = .ok all) :
    builder schema building name = .ok (.map all) := by
  rw [unbounded_builder schema building name, opened, hs]
  dsimp only
  rw [if_neg hb, h]
  rfl

/-- No struct that is built is too deep, so unless there is a fault it is built. -/
theorem keeps_of_ok {name : Text} {building others : List Text}
    (h : ∀ d, builder schema building name = .ok d → builder schema others name = .ok d) :
    Keeps .tooDeep (builder schema building name) (builder schema others name) := by
  intro hdeep
  cases hb : builder schema building name with
  | ok d => exact h d hb
  | error e => exact absurd (hb.trans (congrArg _ (hdeep e hb))) (builder_ne_tooDeep building name)

/-- What is built is built for other structs too, if those that are more are barren: they have not
been built inside it either. -/
theorem builder_of_builder {left : Nat} :
    ∀ {building others : List Text} {name : Text} {d : Value},
      schema.unentered building = left →
      (∀ other ∈ others, other ∈ building ∨ Barren schema other) →
      builder schema building name = .ok d → builder schema others name = .ok d := by
  induction left using Nat.strongRecOn with
  | _ left ih =>
      intro building others name d hleft hothers h
      obtain ⟨s, all, hs, hb, hf, rfl⟩ := builder_eq_ok h
      have hfresh : name ∉ others := fun hm =>
        (hothers name hm).elim hb fun barren => barren _ _ h
      have hlt := Schema.unentered_cons_lt hs hb
      have hinside : ∀ other ∈ name :: others, other ∈ name :: building ∨ Barren schema other := by
        intro other hm
        rcases List.mem_cons.mp hm with rfl | hm
        · exact .inl List.mem_cons_self
        · exact (hothers other hm).imp_left (List.mem_cons_of_mem name)
      have hkeeps : Keeps .tooDeep
          (ofFields (ofType schema (builder schema (name :: building))) s.fields [])
          (ofFields (ofType schema (builder schema (name :: others))) s.fields []) :=
        keeps_ofFields fun _ t => keeps_ofType (fun inner =>
          keeps_of_ok fun _ => ih _ (hleft ▸ hlt) rfl hinside) t
      exact builder_of_ofFields hs hfresh ((hkeeps fun e he => by cases hf.symm.trans he).trans hf)

/-- What has no default on its own has none for other structs. -/
theorem barren_of_error {name : Text} {e : Failure} (h : builder schema [] name = .error e) :
    Barren schema name := by
  intro building d hd
  have hnone : ∀ other ∈ ([] : List Text), other ∈ building ∨ Barren schema other := nofun
  cases h.symm.trans (builder_of_builder rfl hnone hd)

/-- **The default of a struct is that of its fields.** It makes no difference that the fields are
built for the struct: one that contains its struct and can still be built does not build it. -/
theorem defaultValue_struct_iff {name : Text} {s : StructDef} {all : Fields}
    (hs : schema.struct? name = some s) :
    schema.defaultValue (.struct name) = .ok (.map all) ↔
      ofFields (fun built t => schema.defaultValue t built) s.fields [] = .ok all := by
  have hkeeps : ∀ building others, (∀ other ∈ others, other ∈ building ∨ Barren schema other) →
      Keeps .tooDeep (ofFields (ofType schema (builder schema building)) s.fields [])
        (ofFields (ofType schema (builder schema others)) s.fields []) :=
    fun building others hothers => keeps_ofFields fun _ t => keeps_ofType (fun inner =>
      keeps_of_ok fun _ => builder_of_builder rfl hothers) t
  -- building the fields on their own gives what building them for the struct gives
  have hfewer : ∀ {all}, ofFields (ofType schema (builder schema [name])) s.fields [] = .ok all →
      ofFields (ofType schema (builder schema [])) s.fields [] = .ok all := fun h =>
    (hkeeps [name] [] nofun fun e he => by cases h.symm.trans he).trans h
  constructor
  · intro h
    obtain ⟨s', all', hs', -, hf, hall⟩ := builder_eq_ok h
    cases hs.symm.trans hs'
    cases hall
    exact hfewer hf
  · intro h
    cases hf : ofFields (ofType schema (builder schema [name])) s.fields [] with
    | ok all' =>
        cases (hfewer hf).symm.trans h
        exact builder_of_ofFields hs (List.not_mem_nil) hf
    | error e =>
        cases hb : builder schema [] name with
        | ok d =>
            obtain ⟨s', all', hs', -, hf', -⟩ := builder_eq_ok hb
            cases hs.symm.trans hs'
            cases hf.symm.trans hf'
        | error e' =>
            -- the struct is barren, so nothing that was built for the fields needed it
            have hothers : ∀ other ∈ [name], other ∈ [] ∨ Barren schema other := fun other hm =>
              .inr (List.mem_singleton.mp hm ▸ barren_of_error hb)
            have hmore := (hkeeps [] [name] hothers fun e he => by cases h.symm.trans he).trans h
            cases hf.symm.trans hmore

end Default

end WireSchema
