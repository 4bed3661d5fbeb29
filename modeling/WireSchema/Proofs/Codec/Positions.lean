import WireSchema.Codec.Siblings
import WireSchema.Schema.Basic
import WireSchema.Proofs.Fields
import WireSchema.Proofs.Walk

/-!
# Codec — Positions

What is the same on the way of the encoder and of the decoder. A `Position` is a place in a message:
a value of a type, the elements that are left of an array or the fields that are left of a struct,
with the path and the fields before. `Position.Leads` is one step within a struct, which never goes
on for ever (`Position.wellFounded_leads`); `Position.Opens` is the step into a struct.

Paths are real: every step of the path of a position leads into a value at which the walk has been,
into a declared field of a struct or to an element below the length of an array
(`Position.traced_of_along`). A union adds no step. So a failure is followed to a position that is
really there (`Position.Located`).
-/

namespace WireSchema

/-- A place in a message, whichever way one goes through it. -/
inductive Position
  | value (siblings : Fields) (t : FieldType) (path : Path)
  /-- The elements of an array from number `i` on, `count` of them. -/
  | elements (siblings : Fields) (t : FieldType) (path : Path) (i count : Nat)
  /-- The fields that are left of a struct. -/
  | fields (left : List (Text × FieldType)) (path : Path) (siblings : Fields)

namespace Position

def path : Position → Path
  | value _ _ path | elements _ _ path _ _ | fields _ path _ => path

/-- A step within a struct. -/
inductive Leads : Position → Position → Prop
  | array {siblings element length count path} (counted : length.resolve siblings = .ok count) :
      Leads (.value siblings (.array element length) path)
        (.elements siblings element path 0 count)
  | case {siblings discriminant enumName cases label t path}
      (case : Fields.get? cases label = some t) :
      Leads (.value siblings (.union discriminant enumName cases) path) (.value siblings t path)
  | element {siblings t path i count} :
      Leads (.elements siblings t path i (count + 1)) (.value siblings t (path.element i))
  | nextElement {siblings t path i count} :
      Leads (.elements siblings t path i (count + 1)) (.elements siblings t path (i + 1) count)
  | field {siblings name t left path} :
      Leads (.fields ((name, t) :: left) path siblings) (.value siblings t (path.child name))
  | nextField {siblings name t left path next} :
      Leads (.fields ((name, t) :: left) path siblings) (.fields left path next)

/-- The step into a struct. -/
inductive Opens (schema : Schema) : Position → Position → Prop
  | struct {siblings name s path} (declared : schema.struct? name = some s) :
      Opens schema (.value siblings (.struct name) path) (.fields s.fields path [])

/-! ### A walk within a struct ends -/

/-- Elements follow one another up to their number; each is a value of a smaller type. -/
theorem acc_elements {siblings : Fields} {t : FieldType}
    (h : ∀ path, Acc (fun b a => Leads a b) (.value siblings t path)) {path : Path} {count : Nat} :
    ∀ i, Acc (fun b a => Leads a b) (.elements siblings t path i count) := by
  induction count with
  | zero => exact fun i => ⟨_, fun _ h => nomatch h⟩
  | succ count ih =>
      intro i
      refine ⟨_, fun b hb => ?_⟩
      cases hb with
      | element => exact h _
      | nextElement => exact ih (i + 1)

/-- A value leads only to values of types inside its own. -/
theorem acc_value (siblings : Fields) (t : FieldType) :
    ∀ path, Acc (fun b a => Leads a b) (.value siblings t path) := by
  induction t with
  | int | float | text | enum | struct => exact fun path => ⟨_, fun _ h => nomatch h⟩
  | array element length ih =>
      refine fun path => ⟨_, fun b hb => ?_⟩
      cases hb with
      | array => exact acc_elements ih 0
  | union discriminant enumName cases ih =>
      refine fun path => ⟨_, fun b hb => ?_⟩
      cases hb with
      | case case => exact ih _ _ (Fields.mem_of_get? case) path

/-- Fields follow one another up to the last. -/
theorem acc_fields {left : List (Text × FieldType)} {path : Path} :
    ∀ siblings, Acc (fun b a => Leads a b) (.fields left path siblings) := by
  induction left with
  | nil => exact fun siblings => ⟨_, fun _ h => nomatch h⟩
  | cons head left ih =>
      refine fun siblings => ⟨_, fun b hb => ?_⟩
      cases hb with
      | field => exact acc_value _ _ _
      | nextField => exact ih _

/-- Within a struct every walk comes to an end. -/
theorem wellFounded_leads : WellFounded fun b a => Leads a b := by
  constructor
  intro a
  cases a with
  | value siblings t path => exact acc_value siblings t path
  | elements siblings t path i count => exact acc_elements (acc_value siblings t) i
  | fields left path siblings => exact acc_fields siblings

end Position

/-! ### Paths are real -/

/-- A step into a value of a type: into a declared field, or to an element below the length. -/
inductive Schema.Steps (schema : Schema) (siblings : Fields) : FieldType → PathStep → Prop
  | field {name s field} (declared : schema.struct? name = some s) (mem : field ∈ s.fieldNames) :
      Steps schema siblings (.struct name) (.field field)
  | index {element length count i} (counted : length.resolve siblings = .ok count)
      (lt : i < count) : Steps schema siblings (.array element length) (.index i)

namespace Path

variable (schema : Schema) (At : Position → Prop)

/-- Among the positions there is a value at the path into which the step leads. -/
def Enters (path : Path) (step : PathStep) : Prop :=
  ∃ siblings t, At (.value siblings t path) ∧ schema.Steps siblings t step

/-- Every step of the path leads into a value at the path so far. -/
def Traced (path : Path) : Prop :=
  ∀ before step after, path.steps = before ++ step :: after →
    Enters schema At ⟨path.root, before⟩ step

variable {schema At}

theorem traced_ofRoot (root : Text) : (ofRoot root).Traced schema At :=
  fun _ _ _ h => nomatch (List.append_eq_nil_iff.mp h.symm).2

/-- A path is real if all but its last step is, and the last step enters what is there. -/
theorem Traced.snoc {path : Path} (h : path.Traced schema At) {step : PathStep}
    (last : path.Enters schema At step) :
    Traced schema At ⟨path.root, path.steps ++ [step]⟩ := by
  intro before next after heq
  rcases List.eq_nil_or_concat after with rfl | ⟨more, last', rfl⟩
  · obtain ⟨hsteps, hstep⟩ := List.append_inj' heq rfl
    cases hstep
    subst hsteps
    exact last
  · rw [List.concat_eq_append, ← List.cons_append, ← List.append_assoc] at heq
    exact h before next more (List.append_inj' heq rfl).1

end Path

namespace Position

variable {schema : Schema} {At : Position → Prop}

/-- The path of a position is real, and so are the steps that are still to be taken. -/
def Traced (schema : Schema) (At : Position → Prop) : Position → Prop
  | value _ _ path => path.Traced schema At
  | elements _ _ path i count =>
      path.Traced schema At ∧ ∀ j < i + count, path.Enters schema At (.index j)
  | fields left path _ =>
      path.Traced schema At ∧ ∀ f ∈ left, path.Enters schema At (.field f.1)

/-- The path of a position is real. -/
theorem Traced.path {p : Position} (h : p.Traced schema At) : p.path.Traced schema At := by
  cases p with
  | value => exact h
  | elements | fields => exact h.1

/-- Where a position is real, so is the one that it leads to. -/
theorem Leads.traced {p q : Position} (h : Leads p q) (at' : At p) (traced : p.Traced schema At) :
    q.Traced schema At := by
  cases h with
  | array counted =>
      refine ⟨traced, fun j hj => ⟨_, _, at', .index counted ?_⟩⟩
      rwa [Nat.zero_add] at hj
  | case => exact traced
  | @element _ _ _ i count => exact traced.1.snoc (traced.2 i (by omega))
  | nextElement => exact ⟨traced.1, fun j hj => traced.2 j (by omega)⟩
  | field => exact traced.1.snoc (traced.2 _ List.mem_cons_self)
  | nextField => exact ⟨traced.1, fun f hf => traced.2 f (List.mem_cons_of_mem _ hf)⟩

/-- Where a position is real, so is the struct that it opens. -/
theorem Opens.traced {p q : Position} (h : Opens schema p q) (at' : At p)
    (traced : p.Traced schema At) : q.Traced schema At := by
  cases h with
  | struct declared =>
      exact ⟨traced, fun f hf => ⟨_, _, at', .field declared (List.mem_map_of_mem hf)⟩⟩

theorem Leads.root_eq {p q : Position} (h : Leads p q) : q.path.root = p.path.root := by
  cases h <;> rfl

theorem Opens.root_eq {p q : Position} (h : Opens schema p q) : q.path.root = p.path.root := by
  cases h
  rfl

section

variable {α : Type} {Leads' Opens' : α → α → Prop} {position : α → Position} {S : Nat → α → Prop}

/-- The positions along which a walk comes. -/
def Along (Leads' Opens' : α → α → Prop) (position : α → Position) (S : Nat → α → Prop)
    (room : Nat) (start : α) (p : Position) : Prop :=
  ∃ left a, Walk.Along Leads' Opens' S room start left a ∧ position a = p

/-- A failure lies at a path: positions that all stop with it lead from the first one to one that
itself fails with it and has this path. The path begins at the root, and every step of it is real.
-/
def Located (schema : Schema) (Leads' Opens' : α → α → Prop) (position : α → Position)
    (Fails : α → Failure → Prop) (S : Nat → α → Prop) (room : Nat) (start : α) (root : Text)
    (failure : Failure) (path : Path) : Prop :=
  (∃ left a, Walk.Along Leads' Opens' S room start left a ∧ Fails a failure ∧
    (position a).path = path) ∧
  path.root = root ∧ path.Traced schema (Along Leads' Opens' position S room start)

variable (hleads : ∀ ⦃a b⦄, Leads' a b → Leads (position a) (position b))
  (hopens : ∀ ⦃a b⦄, Opens' a b → Opens schema (position a) (position b))
  {siblings : Fields} {t : FieldType} {root : Text} {room left : Nat} {start b : α}
  (hstart : position start = .value siblings t (Path.ofRoot root))

include hleads hopens hstart

/-- The path of a position to which a walk has come is real. -/
theorem traced_of_along (along : Walk.Along Leads' Opens' S room start left b) :
    (position b).path.root = root ∧
      (position b).path.Traced schema (Along Leads' Opens' position S room start) := by
  have hkeeps := along.keeps
    (P := fun less a => Walk.Along Leads' Opens' S room start less a ∧
      (position a).path.root = root ∧
      (position a).Traced schema (Along Leads' Opens' position S room start))
    (fun first stays next h => ⟨h.1.trans (.on stays first (.here next)),
      (hleads first).root_eq.trans h.2.1, (hleads first).traced ⟨_, _, h.1, rfl⟩ h.2.2⟩)
    (fun first stays next h => ⟨h.1.trans (.opening stays first (.here next)),
      (hopens first).root_eq.trans h.2.1, (hopens first).traced ⟨_, _, h.1, rfl⟩ h.2.2⟩)
  have hfirst : (position start).path.root = root ∧
      (position start).Traced schema (Along Leads' Opens' position S room start) := by
    rw [hstart]
    exact ⟨rfl, Path.traced_ofRoot root⟩
  obtain ⟨-, hroot, htraced⟩ := hkeeps ⟨.here along.start, hfirst⟩
  exact ⟨hroot, htraced.path⟩

variable (position) in
/-- Whatever is not for want of room lies at the path of a position that fails with it. -/
theorem exists_located {Fails : α → Failure → Prop} {failure : Failure}
    (wf : WellFounded fun b a => Leads' a b)
    (hstops : ∀ {room a}, S room a → Walk.Stops Leads' Opens' Fails S failure a room)
    (hne : failure ≠ .tooDeep) (h : S room start) :
    ∃ a, Fails a failure ∧
      Located schema Leads' Opens' position Fails S room start root failure (position a).path := by
  obtain ⟨left, a, along, hfails | ⟨-, hdeep, -⟩⟩ := Walk.exists_along wf hstops h
  · exact ⟨a, hfails, ⟨left, a, along, hfails, rfl⟩, traced_of_along hleads hopens hstart along⟩
  · exact absurd hdeep hne

end

end Position

end WireSchema
