import WireSchema.Proofs.Codec.Building
import WireSchema.Proofs.Codec.Listed

/-!
# Codec — Sizes without a bound on nesting

A struct of which a map is given is one level of the value, and one of which nothing is known joins
those visited, of which there are no more than structs. The sum of both falls from a struct to those
inside it (`Size.Enters.room`), although neither does: what is visited stays so where a map is
given, and what is not given is never deeper.

So a bound on the nesting from that sum on cuts nothing, and measures alike
(`Size.alike_ofStruct`); and there is one measurer of structs that knows no bound
(`Size.unbounded_measurer`, `Size.Unbounded.eq_measurer`).

`Size.Task` is a position of a measuring, `Size.Reaches` the way from one to another. Its openings
are the structs of which nothing is known: no way has more of them than there are structs
(`Size.openings_le`), however many maps lie around or between them.
-/

namespace WireSchema

namespace Size

/-! ### Outcomes alike -/

/-- One outcome, which is not that structs lie too deep. -/
def Alike {α : Type} (a b : Outcome α) : Prop := a = b ∧ a ≠ .error .tooDeep

namespace Alike

variable {α β : Type} {a b c : Outcome α}

theorem ok {x : α} : Alike (.ok x) (.ok x) := ⟨rfl, nofun⟩

theorem fail {cause : Fault} : Alike (Outcome.fail cause : Outcome α) (Outcome.fail cause) :=
  ⟨rfl, nofun⟩

theorem symm (h : Alike a b) : Alike b a := ⟨h.1.symm, h.1 ▸ h.2⟩

theorem trans (h : Alike a b) (h' : Alike b c) : Alike a c := ⟨h.1.trans h'.1, h.2⟩

/-- What goes on alike behind two that are alike is alike. -/
theorem bind {f g : α → Outcome β} (h : Alike a b) (hf : ∀ x, Alike (f x) (g x)) :
    Alike (a >>= f) (b >>= g) := by
  obtain ⟨rfl, hne⟩ := h
  cases a with
  | ok x => exact hf x
  | error e => exact ⟨rfl, fun h => hne (congrArg Except.error (Except.error.inj h))⟩

theorem of_measured {o : Outcome Extent} (h : Measured o) : Alike o o := by
  rcases h with ⟨e, rfl⟩ | rfl
  · exact ok
  · exact ⟨rfl, nofun⟩

end Alike

variable {schema : Schema} {mode : Mode}

section

variable {one two : Value → Outcome Extent}

theorem alike_sumOf {items : List Value} (h : ∀ v ∈ items, Alike (one v) (two v)) :
    ∀ {total : Extent}, Alike (sumOf one items total) (sumOf two items total) := by
  induction items with
  | nil => exact .ok
  | cons v items ih =>
      intro total
      refine (h v List.mem_cons_self).bind fun size => ?_
      exact (Alike.of_measured .add).bind fun next =>
        ih fun w hm => h w (List.mem_cons_of_mem v hm)

theorem alike_elements {count : Nat} {items : List Value} (hnull : Alike (one .null) (two .null))
    (h : ∀ v ∈ items, Alike (one v) (two v)) :
    Alike (elements one count items) (elements two count items) := by
  rw [elements, elements]
  split
  · exact hnull.bind fun _ => .of_measured .times
  · refine (alike_sumOf fun v hm => h v (List.mem_of_mem_take hm)).bind fun total => ?_
    split
    · exact hnull.bind fun _ => .of_measured .addTimes
    · exact .ok

end

section

variable {f g : Text → Value → Outcome Extent}

theorem alike_ofCases {siblings : Fields} {combine : Extent → Extent → Extent}
    {cases : List (Text × FieldType)}
    (h : ∀ label t, (label, t) ∈ cases →
      Alike (ofType schema mode f siblings t .null) (ofType schema mode g siblings t .null)) :
    ∀ {before? : Option Extent},
      Alike (ofCases schema mode f siblings combine before? cases)
        (ofCases schema mode g siblings combine before? cases) := by
  induction cases with
  | nil => exact .ok
  | cons head cases ih =>
      obtain ⟨label, t⟩ := head
      intro before?
      obtain ⟨heq, hne⟩ := h label t List.mem_cons_self
      rw [ofCases, ofCases, ← heq]
      cases hsize : ofType schema mode f siblings t .null with
      | ok size => exact ih fun label t hm => h label t (List.mem_cons_of_mem _ hm)
      | error e =>
          rw [hsize] at hne
          exact ⟨rfl, fun he => hne (congrArg Except.error (Except.error.inj he))⟩

theorem alike_ofCase {siblings : Fields} {absent : Outcome Extent} {label : Text}
    {cases : List (Text × FieldType)} {v : Value} (habsent : Alike absent absent)
    (h : ∀ label t, (label, t) ∈ cases →
      Alike (ofType schema mode f siblings t v) (ofType schema mode g siblings t v)) :
    Alike (ofCase schema mode f siblings absent label cases v)
      (ofCase schema mode g siblings absent label cases v) := by
  rw [ofCase_eq, ofCase_eq]
  cases hu : Fields.get? cases label with
  | none => exact habsent
  | some t => exact h label t (Fields.mem_of_get? hu)

/-- Types are measured alike if structs are, for values that are no deeper. -/
theorem alike_ofType {depth : Nat}
    (h : ∀ name v, v.depth ≤ depth → Alike (f name v) (g name v)) (t : FieldType) :
    ∀ {siblings : Fields} {v : Value}, v.depth ≤ depth →
      Alike (ofType schema mode f siblings t v) (ofType schema mode g siblings t v) := by
  induction t with
  | int | float => exact fun _ => .ok
  | enum name signed width default? =>
      intro siblings v _
      rw [ofType, ofType]
      cases schema.enum? name with
      | none => exact .fail
      | some e => exact .ok
  | text charset default? =>
      intro siblings v _
      cases v <;> cases mode <;> cases default? <;> exact .ok
  | struct name => exact h name _
  | array element length ih =>
      intro siblings v hv
      cases hres : length.resolve siblings with
      | error field =>
          simp only [ofType, hres]
          cases mode <;> exact .ok
      | ok count =>
          cases count with
          | zero =>
              simp only [ofType, hres]
              exact .ok
          | succ count =>
              rw [ofType_array_succ hres, ofType_array_succ hres]
              exact alike_elements (ih (Nat.zero_le _)) fun w hm =>
                ih ((Value.depth_le_of_items hm).trans hv)
  | union discriminant enumName cases ih =>
      intro siblings v hv
      have hcases : ∀ label t, (label, t) ∈ cases → ∀ {w : Value}, w.depth ≤ depth →
          Alike (ofType schema mode f siblings t w) (ofType schema mode g siblings t w) :=
        fun label t hm {_} hw => ih label t hm hw
      cases hl : siblings.label? discriminant with
      | some label =>
          simp only [ofType, hl]
          exact alike_ofCase .fail fun label t hm => hcases label t hm hv
      | none =>
          simp only [ofType, hl]
          cases mode with
          | min => exact alike_ofCases fun label t hm => hcases label t hm (Nat.zero_le _)
          | max => exact alike_ofCases fun label t hm => hcases label t hm (Nat.zero_le _)
          | default =>
              cases schema.enum? enumName with
              | none => exact .fail
              | some e =>
                  dsimp only
                  cases e.firstLabel? with
                  | none => exact .ok
                  | some label =>
                      exact alike_ofCase .ok fun label t hm => hcases label t hm (Nat.zero_le _)

end

/-! ### Fields -/

/-- What a sibling counts as is a number, a label or nothing, if it can be told. -/
theorem siblingDefault_cases (schema : Schema) (t : FieldType) :
    (∃ d, siblingDefault schema t = .ok d ∧ d.depth = 0) ∨
      ∃ cause, siblingDefault schema t = .fail cause := by
  cases t with
  | enum name signed width default? =>
      cases default? with
      | some label => exact .inl ⟨_, rfl, rfl⟩
      | none =>
          rw [siblingDefault]
          cases schema.enum? name with
          | none => exact .inr ⟨_, rfl⟩
          | some e =>
              dsimp only
              cases e.firstLabel? with
              | none => exact .inl ⟨_, rfl, rfl⟩
              | some label => exact .inl ⟨_, rfl, rfl⟩
  | _ => exact .inl ⟨_, rfl, rfl⟩

/-- A field has siblings, or it cannot be told what it counts as. -/
theorem passes_or_fails (schema : Schema) (mode : Mode) (siblings : Fields) (name : Text)
    (t : FieldType) :
    (∃ behind, Passes schema mode siblings name t behind) ∨
      ∃ cause, ∀ one rest total,
        fields schema mode one addUp ((name, t) :: rest) siblings total = .fail cause := by
  cases hm : ((Fields.get? siblings name).getD .null).isNull && mode == .default with
  | false => exact .inl ⟨_, .given hm⟩
  | true =>
      rcases siblingDefault_cases schema t with ⟨d, hd, -⟩ | ⟨cause, hd⟩
      · exact .inl ⟨_, .filled hm hd⟩
      · refine .inr ⟨cause, fun one rest total => ?_⟩
        rw [fields]
        simp only [hm, if_true, hd]
        rfl

/-- Fields none of which is deeper. -/
def Shallow (depth : Nat) (fields : Fields) : Prop :=
  ∀ name v, Fields.get? fields name = some v → v.depth ≤ depth

theorem Shallow.depth_given {depth : Nat} {siblings : Fields} (h : Shallow depth siblings)
    (name : Text) : ((Fields.get? siblings name).getD .null).depth ≤ depth :=
  Value.depth_getD_le (h name)

/-- Passing a field leaves the siblings shallow: the default that it may be filled with has no
depth. -/
theorem Passes.shallow {depth : Nat} {siblings behind : Fields} {name : Text} {t : FieldType}
    (h : Passes schema mode siblings name t behind) (shallow : Shallow depth siblings) :
    Shallow depth behind := by
  cases h with
  | given => exact shallow
  | @filled d _ hd =>
      intro other v hv
      rw [standing] at hv
      split at hv
      · exact shallow other v hv
      · rcases Fields.get?_put_cases hv with ⟨-, rfl⟩ | ⟨-, hv⟩
        · rcases siblingDefault_cases schema t with ⟨d', hd', h₀⟩ | ⟨cause, hd'⟩
          · cases hd.symm.trans hd'
            exact h₀.trans_le (Nat.zero_le _)
          · cases hd.symm.trans hd'
        · exact shallow other v hv

/-- Two ways to measure that agree on shallow values agree on the fields of a struct. -/
theorem alike_fields {depth : Nat} {one two : Fields → FieldType → Value → Outcome Extent}
    (h : ∀ siblings t v, v.depth ≤ depth → Alike (one siblings t v) (two siblings t v))
    {left : List (Text × FieldType)} :
    ∀ {siblings : Fields} {total : Extent}, Shallow depth siblings →
      Alike (fields schema mode one addUp left siblings total)
        (fields schema mode two addUp left siblings total) := by
  induction left with
  | nil => exact fun _ => .ok
  | cons head left ih =>
      obtain ⟨name, t⟩ := head
      intro siblings total shallow
      rcases passes_or_fails schema mode siblings name t with ⟨behind, hp⟩ | ⟨cause, hfails⟩
      · rw [fields_of_passes hp, fields_of_passes hp]
        refine (h behind t _ (shallow.depth_given name)).bind fun size => ?_
        exact (Alike.of_measured .add).bind fun next => ih (hp.shallow shallow)
      · rw [hfails, hfails]
        exact .fail

/-! ### Structs -/

/-- Measures a declared struct, and the structs inside it with another measurer. -/
def opened (schema : Schema) (mode : Mode)
    (measurer : List Text → Text → Value → Outcome Extent) (visiting : List Text)
    (name : Text) (v : Value) : Outcome Extent :=
  match schema.struct? name with
  | none => .fail (.unknownStruct name)
  | some s =>
      let inside? : Option (List Text) :=
        match v with
        | .map _ => some visiting
        | _ => if name ∈ visiting then none else some (name :: visiting)
      match inside? with
      | none => .ok .infinite
      | some inside =>
          fields schema mode (ofType schema mode (measurer inside)) addUp s.fields v.members
            (.finite 0)

/-- A measurer of declared structs that measures the structs inside them itself, however deep. -/
def Unbounded (schema : Schema) (mode : Mode)
    (measurer : List Text → Text → Value → Outcome Extent) : Prop :=
  ∀ visiting name v, measurer visiting name v = opened schema mode measurer visiting name v

/-- A struct that is not declared is not measured, with whatever room. -/
theorem ofStruct_of_undeclared {name : Text} (h : schema.struct? name = none) (depth : Nat)
    (visiting : List Text) (v : Value) :
    ofStruct schema mode depth visiting name v = .fail (.unknownStruct name) := by
  rw [ofStruct.eq_def]
  simp only [h]

theorem ofStruct_succ (depth : Nat) (visiting : List Text) (name : Text) (v : Value) :
    ofStruct schema mode (depth + 1) visiting name v =
      opened schema mode (ofStruct schema mode depth) visiting name v := by
  cases hs : schema.struct? name with
  | none => simp only [ofStruct_of_undeclared hs, opened, hs]
  | some s =>
      cases v with
      | map members => simp only [ofStruct, opened, hs]
      | _ => by_cases hm : name ∈ visiting <;> simp only [ofStruct, opened, hs, hm, ↓reduceIte]

section

variable {visiting inside : List Text} {name : Text} {s : StructDef} {v : Value}
  {measurer one two : List Text → Text → Value → Outcome Extent}

/-- A struct of which nothing is known is cut off if it is visited; else it is entered. -/
theorem cut_or_enters (visiting : List Text) (name : Text) (v : Value) :
    ((∀ members, v ≠ .map members) ∧ name ∈ visiting) ∨
      ∃ inside, Enters visiting name v inside := by
  by_cases hv : ∀ members, v ≠ .map members
  · by_cases hm : name ∈ visiting
    · exact .inl ⟨hv, hm⟩
    · exact .inr ⟨_, .unknown hv hm⟩
  · push Not at hv
    obtain ⟨members, rfl⟩ := hv
    exact .inr ⟨_, .known⟩

/-- Of a struct that is entered the members are less deep, or there are fewer structs left. -/
theorem Enters.room (declared : schema.struct? name = some s)
    (enters : Enters visiting name v inside) :
    ∃ depth, Shallow depth v.members ∧
      depth + schema.unentered inside < v.depth + schema.unentered visiting := by
  cases enters with
  | @known members =>
      refine ⟨Value.depthOfMembers members, fun other w hw => ?_, ?_⟩
      · exact Value.depth_le_of_mem_members (Fields.mem_of_get? hw)
      · rw [Value.depth]
        omega
  | unknown hv fresh =>
      have hlt := Schema.unentered_cons_lt declared fresh
      refine ⟨0, fun other w hw => ?_, by omega⟩
      rw [members_eq_nil hv] at hw
      cases hw

theorem opened_of_undeclared (h : schema.struct? name = none) :
    opened schema mode measurer visiting name v = .fail (.unknownStruct name) := by
  simp only [opened, h]

theorem opened_of_cut (declared : schema.struct? name = some s) (hv : ∀ members, v ≠ .map members)
    (hm : name ∈ visiting) : opened schema mode measurer visiting name v = .ok .infinite := by
  cases v with
  | map members => exact absurd rfl (hv members)
  | _ => simp only [opened, declared, if_pos hm]

theorem opened_of_enters (declared : schema.struct? name = some s)
    (enters : Enters visiting name v inside) :
    opened schema mode measurer visiting name v =
      fields schema mode (ofType schema mode (measurer inside)) addUp s.fields v.members
        (.finite 0) := by
  cases enters with
  | known => simp only [opened, declared]
  | unknown hv fresh =>
      cases v with
      | map members => exact absurd rfl (hv members)
      | _ => simp only [opened, declared, if_neg fresh]

/-- A struct is measured alike if those inside it are. -/
theorem alike_opened
    (h : ∀ inside other w, w.depth + schema.unentered inside <
      v.depth + schema.unentered visiting → Alike (one inside other w) (two inside other w)) :
    Alike (opened schema mode one visiting name v) (opened schema mode two visiting name v) := by
  cases hs : schema.struct? name with
  | none =>
      rw [opened_of_undeclared hs, opened_of_undeclared hs]
      exact .fail
  | some s =>
      rcases cut_or_enters visiting name v with ⟨hv, hm⟩ | ⟨inside, enters⟩
      · rw [opened_of_cut hs hv hm, opened_of_cut hs hv hm]
        exact .ok
      · rw [opened_of_enters hs enters, opened_of_enters hs enters]
        obtain ⟨depth, shallow, hlt⟩ := enters.room hs
        have hinside : ∀ other x, x.depth ≤ depth →
            Alike (one inside other x) (two inside other x) :=
          fun other x hx => h inside other x (by omega)
        exact alike_fields (fun siblings t w hw => alike_ofType hinside t hw) shallow

/-- Where nothing is left, no measurer is asked for what lies inside. -/
theorem alike_ofStruct_zero (h : v.depth + schema.unentered visiting = 0) :
    Alike (ofStruct schema mode 0 visiting name v)
      (opened schema mode measurer visiting name v) := by
  cases hs : schema.struct? name with
  | none =>
      rw [opened_of_undeclared hs, ofStruct_of_undeclared hs]
      exact .fail
  | some s =>
      rcases cut_or_enters visiting name v with ⟨hv, hm⟩ | ⟨inside, enters⟩
      · rw [opened_of_cut hs hv hm, ofStruct_cut hs hv hm]
        exact .ok
      · obtain ⟨depth, -, hlt⟩ := enters.room hs
        omega

end

/-- **Measuring ends.** Two bounds on the nesting of structs that allow for the depth of the value
and for the structs not yet visited measure alike. -/
theorem alike_ofStruct {depth : Nat} :
    ∀ {more : Nat} {visiting : List Text} {name : Text} {v : Value},
      v.depth + schema.unentered visiting ≤ depth → v.depth + schema.unentered visiting ≤ more →
      Alike (ofStruct schema mode depth visiting name v)
        (ofStruct schema mode more visiting name v) := by
  induction depth with
  | zero =>
      intro more visiting name v h _
      have hzero : ∀ measurer, Alike (ofStruct schema mode 0 visiting name v)
          (opened schema mode measurer visiting name v) :=
        fun measurer => alike_ofStruct_zero (Nat.le_zero.mp h)
      cases more with
      | zero => exact (hzero fun _ _ _ => .ok .infinite).trans (hzero _).symm
      | succ more =>
          rw [ofStruct_succ]
          exact hzero _
  | succ depth ih =>
      intro more visiting name v h h'
      cases more with
      | zero =>
          rw [ofStruct_succ]
          exact (alike_ofStruct_zero (Nat.le_zero.mp h')).symm
      | succ more =>
          rw [ofStruct_succ, ofStruct_succ]
          exact alike_opened fun inside other w hlt => ih (by omega) (by omega)

/-- Without a bound everything is measured alike. -/
theorem Unbounded.alike {measurer : List Text → Text → Value → Outcome Extent}
    (h : Unbounded schema mode measurer) {depth : Nat} :
    ∀ {visiting : List Text} {name : Text} {v : Value},
      v.depth + schema.unentered visiting ≤ depth →
      Alike (ofStruct schema mode depth visiting name v) (measurer visiting name v) := by
  induction depth with
  | zero =>
      intro visiting name v hle
      rw [h]
      exact alike_ofStruct_zero (Nat.le_zero.mp hle)
  | succ depth ih =>
      intro visiting name v hle
      rw [h, ofStruct_succ]
      exact alike_opened fun inside other w hlt => ih (by omega)

/-- The measurer of structs with a bound that the value and the schema allow for. -/
def measurer (schema : Schema) (mode : Mode) (visiting : List Text) (name : Text) (v : Value) :
    Outcome Extent :=
  ofStruct schema mode (v.depth + schema.structs.length) visiting name v

/-- A bound that allows for the value and for the schema cuts nothing. -/
theorem alike_measurer {depth : Nat} {visiting : List Text} {name : Text} {v : Value}
    (h : v.depth + schema.unentered visiting ≤ depth) :
    Alike (ofStruct schema mode depth visiting name v)
      (measurer schema mode visiting name v) :=
  alike_ofStruct h (Nat.add_le_add_left (Schema.unentered_le schema visiting) _)

theorem unbounded_measurer (schema : Schema) (mode : Mode) :
    Unbounded schema mode (measurer schema mode) := by
  intro visiting name v
  have hle := Schema.unentered_le schema visiting
  have hmore : Alike (ofStruct schema mode (v.depth + schema.structs.length + 1) visiting name v)
      (measurer schema mode visiting name v) := alike_measurer (by omega)
  rw [ofStruct_succ] at hmore
  rw [← hmore.1]
  exact (alike_opened fun inside other w hlt => alike_measurer (by omega)).1

/-- There is no other measurer without a bound. -/
theorem Unbounded.eq_measurer {other : List Text → Text → Value → Outcome Extent}
    (h : Unbounded schema mode other) : other = measurer schema mode := by
  funext visiting name v
  exact (h.alike (Nat.add_le_add_left (Schema.unentered_le schema visiting) _)).1.symm

/-- A struct of which nothing is known is measured as without a bound, if the bound allows for each
struct once. -/
theorem alike_of_unknown {depth : Nat} (h : schema.structs.length ≤ depth) (visiting : List Text)
    (name : Text) {v : Value} (hv : ∀ members, v ≠ .map members) :
    Alike (ofStruct schema mode depth visiting name v) (measurer schema mode visiting name v) := by
  have hle := Schema.unentered_le schema visiting
  have hnull : Value.null.depth = 0 := rfl
  rw [measurer, ofStruct_eq_null hv, ofStruct_eq_null hv]
  exact alike_ofStruct (by omega) (by omega)

/-- A type is measured as without a bound, if the bound allows for the value and for the schema. -/
theorem alike_ofType_measurer {depth : Nat} {v : Value}
    (h : v.depth + schema.structs.length ≤ depth) (t : FieldType) (siblings : Fields) :
    Alike (ofType schema mode (ofStruct schema mode depth []) siblings t v)
      (ofType schema mode (measurer schema mode []) siblings t v) := by
  have hle := Schema.unentered_le schema []
  have hstruct : ∀ name w, w.depth ≤ v.depth →
      Alike (ofStruct schema mode depth [] name w) (measurer schema mode [] name w) :=
    fun name w hw => alike_measurer (by omega)
  exact alike_ofType hstruct t le_rfl

theorem alike_sizeOf (schema : Schema) (t : FieldType) (mode : Mode) (v : Value)
    (siblings : Fields) :
    Alike (schema.sizeOf t mode v siblings)
      (ofType schema mode (measurer schema mode []) siblings t v) :=
  alike_ofType_measurer (Nat.le_succ _) t siblings

/-! ### The way to a size -/

/-- What is about to be measured, with these structs visited. -/
inductive Task
  | value (visiting : List Text) (siblings : Fields) (t : FieldType) (v : Value)
  /-- The fields that are left of a struct, among these siblings. -/
  | fields (visiting : List Text) (left : List (Text × FieldType)) (siblings : Fields)

/-- The structs visited, of which nothing is known. -/
def Task.visiting : Task → List Text
  | value visiting _ _ _ | fields visiting _ _ => visiting

section

variable (schema : Schema) (mode : Mode)

/-- A step of measuring within a struct, or into one of which a map is given. -/
inductive Leads : Task → Task → Prop
  | item {visiting siblings element length v count i}
      (counted : length.resolve siblings = .ok count) (inside : i < count) :
      Leads (.value visiting siblings (.array element length) v)
        (.value visiting siblings element (v.items.getD i .null))
  | case {visiting siblings discriminant enumName cases v label t}
      (chosen : siblings.label? discriminant = some label)
      (case : Fields.get? cases label = some t) :
      Leads (.value visiting siblings (.union discriminant enumName cases) v)
        (.value visiting siblings t v)
  | firstCase {visiting siblings discriminant enumName cases v e label t}
      (writing : mode = .default) (unknown : siblings.label? discriminant = none)
      (declared : schema.enum? enumName = some e) (first : e.firstLabel? = some label)
      (case : Fields.get? cases label = some t) :
      Leads (.value visiting siblings (.union discriminant enumName cases) v)
        (.value visiting siblings t .null)
  | anyCase {visiting siblings discriminant enumName cases v label t}
      (bounding : mode ≠ .default) (unknown : siblings.label? discriminant = none)
      (case : (label, t) ∈ cases) :
      Leads (.value visiting siblings (.union discriminant enumName cases) v)
        (.value visiting siblings t .null)
  | map {visiting siblings name s members} (declared : schema.struct? name = some s) :
      Leads (.value visiting siblings (.struct name) (.map members))
        (.fields visiting s.fields members)
  | field {visiting name t left siblings behind}
      (passes : Passes schema mode siblings name t behind) :
      Leads (.fields visiting ((name, t) :: left) siblings)
        (.value visiting behind t ((Fields.get? siblings name).getD .null))
  | nextField {visiting name t left siblings behind}
      (passes : Passes schema mode siblings name t behind) :
      Leads (.fields visiting ((name, t) :: left) siblings) (.fields visiting left behind)

/-- The step of measuring into a struct of which nothing is known and that is not visited. -/
inductive Opens : Task → Task → Prop
  | struct {visiting siblings name s v} (declared : schema.struct? name = some s)
      (unknown : ∀ members, v ≠ .map members) (fresh : name ∉ visiting) :
      Opens (.value visiting siblings (.struct name) v) (.fields (name :: visiting) s.fields [])

/-- The way of a measuring from a position to another. -/
abbrev Reaches : Nat → Task → Task → Prop := Walk (Leads schema mode) (Opens schema)

end

theorem Leads.visiting_eq {a b : Task} (h : Leads schema mode a b) : b.visiting = a.visiting := by
  cases h <;> rfl

/-- What is opened was not visited before. -/
theorem Opens.unentered_lt {a b : Task} (h : Opens schema a b) :
    schema.unentered b.visiting < schema.unentered a.visiting := by
  cases h with
  | struct declared _ fresh => exact Schema.unentered_cons_lt declared fresh

/-- **No struct is opened twice without a value**, so no more than there are, whatever maps lie
between. -/
theorem openings_le {n : Nat} {a b : Task} (walk : Reaches schema mode n a b) :
    n ≤ schema.unentered a.visiting :=
  walk.openings_le (m := fun task => schema.unentered task.visiting)
    (fun h => Nat.le_of_eq (by rw [h.visiting_eq])) Opens.unentered_lt

end Size

end WireSchema
