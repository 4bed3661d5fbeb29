import WireSchema.Proofs.Capped
import WireSchema.Proofs.Codec.Building
import WireSchema.Proofs.Codec.Conforming
import WireSchema.Proofs.Codec.WriteWalk

/-!
# Codec — Writing without a bound on nesting

The encoder counts the structs that it opens inside one another. What it does between is to write a
struct with some writer of the structs inside it (`Encode.opened`), and a writer that knows no bound
is one that does so with itself (`Encode.Unbounded`).

As in reading, a bound only ever cuts (`Encode.capped`). Here the bounds that do not cut are those
that allow for the depth of the value and once for every struct (`Encode.enough`): the encoder is
either in what it was given, or in a default, where it finds everything built. All that is asked of
the schema is that no struct names a field twice. So there is a writer without a bound, and no other
(`Encode.unbounded_writer`, `Encode.Unbounded.eq_writer`).

A strict encoder is cut in the same way: it stops at an array of another length than the resolved
one, and else does what one that is not strict does (`Encode.approximates_ofStruct`).

Whether a value conforms is told in any schema, unless something is not declared
(`Conform.faults_conforms`). So whatever is given, encoding gives bytes or finds a fault
(`Schema.bytes_or_fault_of_encode`).
-/

namespace WireSchema

/-- To every place a path leads, from something. -/
theorem Value.exists_at? (v : Value) (steps : List PathStep) :
    ∃ top : Value, top.at? steps = some v := by
  induction steps with
  | nil => exact ⟨v, rfl⟩
  | cons step steps ih =>
      obtain ⟨inner, h⟩ := ih
      cases step with
      | field name =>
          refine ⟨.map [(name, inner)], ?_⟩
          rw [at?, members, Fields.get?_cons, if_pos rfl]
          exact h
      | index i =>
          refine ⟨.list (List.replicate i .null ++ [inner]), ?_⟩
          rw [at?, items, List.getElem?_append_right (by rw [List.length_replicate]),
            List.length_replicate, Nat.sub_self]
          exact h

namespace Encode

variable {schema : Schema} {strict : Bool}

/-- Stopped with one of these failures. -/
def Stopped (P : Failure → Prop) (e : Encoding) : Prop :=
  ∃ failure notices, P failure ∧ e = .stopped failure notices

theorem Stopped.after {P : Failure → Prop} {e : Encoding} (h : Stopped P e) (pre : Script) :
    Stopped P (.after pre e) := by
  obtain ⟨failure, notices, hp, rfl⟩ := h
  exact ⟨failure, _, hp, rfl⟩

/-- Stopped for the nesting of structs. -/
def Cut : Encoding → Prop := Stopped (· = .tooDeep)

/-- An array is refused for its length. -/
def Mismatched (failure : Failure) : Prop :=
  ∃ expected got path, failure = .fault (.lengthMismatch expected got) (some path)

/-- The one writer writes as the other does, unless it is stopped with one of these failures. -/
def Approximates (P : Failure → Prop) (one whole : Path → Value → Encoding) : Prop :=
  ∀ path v, Stopped P (one path v) ∨ one path v = whole path v

/-- Writes a declared struct, and the structs inside it with another writer. -/
def opened (schema : Schema) (strict : Bool) (writer : Text → Path → Value → Encoding)
    (name : Text) (path : Path) (v : Value) : Encoding :=
  match schema.struct? name with
  | none => .fail (.unknownStruct name) path
  | some s =>
      match v with
      | .map members => fields schema (ofType schema strict writer) members path s.fields []
      | v => .fail (.expectedMap name v.typeName) path

/-- A writer of declared structs that writes the structs inside them itself, however deep. -/
def Unbounded (schema : Schema) (strict : Bool) (writer : Text → Path → Value → Encoding) :
    Prop :=
  ∀ name path v, writer name path v = opened schema strict writer name path v

theorem ofStruct_succ (depth : Nat) (name : Text) (path : Path) (v : Value) :
    ofStruct schema strict (depth + 1) name path v =
      opened schema strict (ofStruct schema strict depth) name path v := by
  cases hs : schema.struct? name with
  | none => simp only [ofStruct, opened, hs]
  | some s => cases v <;> simp only [ofStruct, opened, hs]

/-- Without room for a struct only what cannot be opened is written. -/
theorem ofStruct_zero (writer : Text → Path → Value → Encoding) (name : Text) (path : Path)
    (v : Value) : Cut (ofStruct schema strict 0 name path v) ∨
      ofStruct schema strict 0 name path v = opened schema strict writer name path v := by
  rw [ofStruct, opened]
  cases schema.struct? name with
  | none => exact .inr rfl
  | some s =>
      cases v with
      | map members => exact .inl ⟨_, [], rfl, rfl⟩
      | _ => exact .inr rfl

/-! ### A bound only cuts -/

section

variable {P : Failure → Prop}

theorem approximates_elements {one whole : Path → Value → Encoding} (h : Approximates P one whole)
    {default : Unit → Outcome Value} {path : Path} {count : Nat} :
    ∀ {i : Nat} {items : List Value} {scripts : List Script},
      Stopped P (elements one default path count i items scripts) ∨
        elements one default path count i items scripts =
          elements whole default path count i items scripts := by
  induction count with
  | zero => exact .inr rfl
  | succ count ih =>
      intro i items scripts
      rw [elements, elements]
      cases (if (items.headD .null).isNull then default () else .ok (items.headD .null)) with
      | error e => exact .inr rfl
      | ok v =>
          dsimp only
          rcases h (path.element i) v with ⟨failure, notices, hp, hd⟩ | he
          · rw [hd]
            exact .inl ⟨failure, _, hp, rfl⟩
          · rw [he]
            cases whole (path.element i) v with
            | done script => exact ih
            | stopped => exact .inr rfl

theorem approximates_fields {one whole : Fields → FieldType → Path → Value → Encoding}
    (h : ∀ written t, Approximates P (one written t) (whole written t)) {members : Fields}
    {path : Path} {left : List (Text × FieldType)} : ∀ {written : Fields},
      Stopped P (Encode.fields schema one members path left written) ∨
        Encode.fields schema one members path left written =
          Encode.fields schema whole members path left written := by
  induction left with
  | nil => exact .inr rfl
  | cons head left ih =>
      obtain ⟨name, t⟩ := head
      intro written
      rw [Encode.fields, Encode.fields]
      cases (if ((Fields.get? members name).getD .null).isNull then
        schema.defaultValue t written else .ok ((Fields.get? members name).getD .null)) with
      | error e => exact .inr rfl
      | ok v =>
          dsimp only
          rcases h written t (path.child name) v with ⟨failure, notices, hp, hd⟩ | he
          · rw [hd]
            exact .inl ⟨failure, notices, hp, rfl⟩
          · rw [he]
            cases whole written t (path.child name) v with
            | done script =>
                exact ih.imp (fun hcut => hcut.after script) (congrArg (Encoding.after script))
            | stopped => exact .inr rfl

/-- Of two writers the one may be strict about lengths where the other is not. -/
theorem approximates_ofType {lenient : Bool}
    (hstrict : lenient = strict ∨ lenient = false ∧ ∀ failure, Mismatched failure → P failure)
    {struct whole : Text → Path → Value → Encoding} {siblings : Fields}
    (h : ∀ name, Approximates P (struct name) (whole name)) (t : FieldType) :
    Approximates P (ofType schema strict struct siblings t)
      (ofType schema lenient whole siblings t) := by
  induction t with
  | int | float | text | enum => exact fun _ _ => .inr rfl
  | struct name => exact h name
  | array element length ih =>
      intro path v
      rw [ofType, ofType]
      cases length.resolve siblings with
      | error field => exact .inr rfl
      | ok count =>
          cases v with
          | list items =>
              dsimp only
              rcases hstrict with rfl | ⟨rfl, hp⟩
              · split
                · exact .inr rfl
                · exact (approximates_elements ih).imp (fun h => h.after _) (congrArg _)
              · rw [Bool.false_and, if_neg Bool.false_ne_true]
                split
                · exact .inl ⟨_, [], hp _ ⟨_, _, _, rfl⟩, rfl⟩
                · exact (approximates_elements ih).imp (fun h => h.after _) (congrArg _)
          | _ => exact .inr rfl
  | union discriminant enumName cases ih =>
      intro path v
      rw [ofType, ofType]
      cases siblings.label? discriminant with
      | none => exact .inr rfl
      | some label =>
          dsimp only
          rw [ofCase_eq, ofCase_eq]
          cases hu : Fields.get? cases label with
          | none => exact .inr rfl
          | some t => exact ih label t (Fields.mem_of_get? hu) path v

theorem approximates_opened {lenient : Bool}
    (hstrict : lenient = strict ∨ lenient = false ∧ ∀ failure, Mismatched failure → P failure)
    {one whole : Text → Path → Value → Encoding}
    (h : ∀ name, Approximates P (one name) (whole name)) (name : Text) :
    Approximates P (opened schema strict one name) (opened schema lenient whole name) := by
  intro path v
  rw [opened, opened]
  cases schema.struct? name with
  | none => exact .inr rfl
  | some s =>
      cases v with
      | map members => exact approximates_fields fun _ t => approximates_ofType hstrict h t
      | _ => exact .inr rfl

end

/-- The encoder with a bound is cut by it, and else does what it does without. -/
theorem capped (schema : Schema) (strict : Bool) :
    Capped Cut (opened schema strict) (ofStruct schema strict) where
  zero := ofStruct_zero
  succ := ofStruct_succ
  keeps := approximates_opened (.inl rfl)

/-- Strict about lengths, the encoder refuses an array for its length, or writes as it does if it is
not. -/
theorem approximates_ofStruct (schema : Schema) (strict : Bool) {depth : Nat} : ∀ name,
    Approximates Mismatched (ofStruct schema strict depth name)
      (ofStruct schema false depth name) := by
  induction depth with
  | zero => exact fun name path v => .inr (by rw [ofStruct, ofStruct])
  | succ depth ih =>
      intro name path v
      rw [ofStruct_succ, ofStruct_succ]
      exact approximates_opened (.inr ⟨rfl, fun _ => id⟩) ih name path v

/-! ### A bound that does not cut -/

/-- The encoder of structs with the bound that the value and the schema allow for. -/
def writer (schema : Schema) (strict : Bool) (name : Text) (path : Path) (v : Value) : Encoding :=
  ofStruct schema strict (v.depth + schema.structs.length) name path v

/-- A position fails for a fault, with its own path. -/
theorem Fails.eq_fault {task : Task} {failure : Failure} (h : Fails schema strict task failure) :
    ∃ cause, failure = .fault cause (some task.position.path) := by
  cases h with
  | value => exact ⟨_, rfl⟩
  | element _ hd | field _ hd =>
      -- a default fails at no position, so the one around the gap is taken
      obtain ⟨cause, rfl⟩ := Default.faults_defaultValue _ _ _ hd
      exact ⟨cause, rfl⟩

section

variable (hnames : ∀ s ∈ schema.structs, s.fieldNames.Nodup)

include hnames

/-- With room for the depth of the value and for every struct once, what is written fails only for a
fault. -/
theorem eq_fault_of_stopped {depth : Nat} {name : Text} {path : Path} {v : Value}
    {failure : Failure} {notices : List Notice} (hroom : v.depth + schema.structs.length ≤ depth)
    (h : ofStruct schema strict depth name path v = .stopped failure notices) :
    ∃ cause path, failure = .fault cause (some path) := by
  obtain ⟨top, hat⟩ := v.exists_at? path.steps
  have room : Task.Room schema top depth (.value [] [] (.struct name) path v) :=
    .inl ⟨hat, hroom⟩
  have stops : (Task.value [] [] (.struct name) path v).Stops schema strict failure depth :=
    ⟨notices, h⟩
  obtain ⟨_, _, -, fails⟩ := (ends_of_stops stops).exists_fails
    (R := Task.Room schema top) Leads.room (Opens.room hnames) room
  obtain ⟨cause, rfl⟩ := fails.eq_fault
  exact ⟨cause, _, rfl⟩

/-- With room for both no struct is too deep. -/
theorem enough :
    Capped.Enough Cut (ofStruct schema strict) fun v => v.depth + schema.structs.length := by
  rintro depth name path v hroom ⟨_, notices, rfl, h⟩
  obtain ⟨cause, _, he⟩ := eq_fault_of_stopped hnames hroom h
  cases he

/-- With a bound that does not cut, the encoder writes as with any other such. -/
theorem ofStruct_eq_writer {depth : Nat} {v : Value}
    (hroom : v.depth + schema.structs.length ≤ depth) (name : Text) (path : Path) :
    ofStruct schema strict depth name path v = writer schema strict name path v :=
  (capped schema strict).eq_of_enough (enough hnames) hroom name path

/-- Where no struct names a field twice, there is a writer that knows no bound. -/
theorem unbounded_writer : Unbounded schema strict (writer schema strict) :=
  (capped schema strict).solves (enough hnames)

/-- There is no other. -/
theorem Unbounded.eq_writer {other : Text → Path → Value → Encoding}
    (h : Unbounded schema strict other) : other = writer schema strict :=
  (capped schema strict).eq_of_solution (enough hnames) h

theorem script_eq_writer (root : Text) (v : Value) :
    script schema strict root v = writer schema strict root (Path.ofRoot root) v := by
  refine ofStruct_eq_writer hnames ?_ root (Path.ofRoot root)
  have := Nat.le_mul_self (schema.structs.length + 1)
  rw [depthBound]
  omega

/-- Inside one another no more structs are opened than the value is deep and the schema long. -/
theorem openings_le {root : Text} {v : Value} {n : Nat} {task : Task}
    (walk : Reaches schema n (.start root v) task) : n ≤ v.depth + schema.structs.length := by
  obtain ⟨less, hless, -⟩ := walk.keeps_room (R := Task.Room schema v) Leads.room
    (Opens.room hnames) (.inl ⟨rfl, Nat.le_refl _⟩)
  omega

end

end Encode

/-! ### Encoding finds a fault or gives bytes -/

namespace Conform

open Outcome (Faults)

variable {schema : Schema}

theorem faults_allPass {α : Type} {test : α → Outcome Bool} {as : List α}
    (h : ∀ a ∈ as, Faults (test a)) : Faults (allPass test as) := by
  induction as with
  | nil => exact .ok
  | cons a as ih =>
      rw [allPass]
      split
      · exact ih fun b hb => h b (List.mem_cons_of_mem _ hb)
      · exact .ok
      · next e he =>
          intro _ h'
          cases h'
          exact h a List.mem_cons_self _ he

theorem faults_ofType {struct : Text → Value → Outcome Bool} {siblings : Fields} {depth : Nat}
    (hstruct : ∀ name v, v.depth ≤ depth → Faults (struct name v)) (t : FieldType) :
    ∀ {v : Value}, v.depth ≤ depth → Faults (ofType schema struct siblings t v) := by
  induction t with
  | int | float | text =>
      intro v _
      cases v <;> exact .ok
  | enum name signed width default? =>
      intro v _
      cases he : schema.enum? name with
      | none =>
          simp only [ofType, he]
          exact .fail
      | some e => cases v <;> simp only [ofType, he] <;> exact .ok
  | struct name => exact hstruct name _
  | array element length ih =>
      intro v hv
      cases v with
      | list items =>
          rw [ofType]
          split
          · split
            · exact faults_allPass fun w hm =>
                ih (Nat.le_trans (Nat.le_of_lt (Value.depth_lt_list hm)) hv)
            · exact .ok
          · exact .ok
      | _ => exact .ok
  | union discriminant enumName cases ih =>
      intro v hv
      rw [ofType]
      split
      · exact .ok
      · next label hl =>
          rw [ofCase_eq]
          cases hu : Fields.get? cases label with
          | none => exact .ok
          | some t => exact ih label t (Fields.mem_of_get? hu) hv

theorem faults_ofStruct {depth : Nat} : ∀ (name : Text) (v : Value), v.depth ≤ depth →
    Faults (ofStruct schema depth name v) := by
  induction depth with
  | zero =>
      intro name v hv
      rw [ofStruct]
      split
      · exact .fail
      · split
        · next members => exact absurd hv (Nat.not_succ_le_zero _)
        · exact .ok
  | succ depth ih =>
      intro name v hv
      rw [ofStruct]
      split
      · exact .fail
      · split
        · next members =>
            split
            · refine faults_allPass fun f _ => faults_ofType ih f.2 ?_
              exact Nat.le_of_lt_succ (Nat.lt_of_lt_of_le (Value.depth_member_lt members f.1) hv)
            · exact .ok
        · exact .ok

/-- Whether a value conforms is told, unless something is not declared. -/
theorem faults_conforms (t : FieldType) (v : Value) (siblings : Fields) :
    Faults (schema.conforms t v siblings) :=
  faults_ofType faults_ofStruct t (Nat.le_refl _)

end Conform

namespace Schema

variable {schema : Schema}

/-- Encoding gives bytes or finds a fault, unless it is cut. -/
theorem bytes_or_fault_or_cut_of_encode (v : Value) (root : Text) (options : Options) :
    (∃ bytes, (schema.encode v root options).outcome = .ok bytes) ∨
      (∃ cause path?, (schema.encode v root options).outcome = .error (.fault cause path?)) ∨
      (schema.encode v root options).outcome = .error .tooDeep ∧
        ∃ notices,
          Encode.script schema options.strictArrays root v = .stopped .tooDeep notices := by
  have hencodes := encodes schema v root options
  generalize schema.encode v root options = report at hencodes ⊢
  cases hencodes with
  | untold _ h =>
      obtain ⟨cause, rfl⟩ := Conform.faults_conforms _ _ _ _ h
      exact .inr (.inl ⟨cause, none, rfl⟩)
  | unfit => exact .inr (.inl ⟨_, _, rfl⟩)
  | stopped _ h =>
      cases Encode.ends_of_script h with
      | failed _ fails =>
          obtain ⟨cause, rfl⟩ := fails.eq_fault
          exact .inr (.inl ⟨cause, _, rfl⟩)
      | deep _ _ tooDeep =>
          subst tooDeep
          exact .inr (.inr ⟨rfl, _, h⟩)
  | @written script _ h =>
      obtain ⟨bs, -, hp⟩ := Encode.writes_of_script h
      obtain ⟨bytes, -, -, hcarries⟩ := Encode.exists_finish bs
      have hcarried := hcarries options root script hp
      generalize Encode.finish options root script = report at hcarried ⊢
      cases hcarried with
      | within => exact .inl ⟨_, rfl⟩
      | beyond => exact .inr (.inl ⟨_, _, rfl⟩)

/-- **Encoding gives bytes or finds a fault.** -/
theorem bytes_or_fault_of_encode (hnames : ∀ s ∈ schema.structs, s.fieldNames.Nodup) (v : Value)
    (root : Text) (options : Options) :
    (∃ bytes, (schema.encode v root options).outcome = .ok bytes) ∨
      ∃ cause path?, (schema.encode v root options).outcome = .error (.fault cause path?) := by
  rcases bytes_or_fault_or_cut_of_encode v root options with hok | hfault | ⟨-, notices, h⟩
  · exact .inl hok
  · exact .inr hfault
  · rw [Encode.script_eq_writer hnames] at h
    obtain ⟨_, _, he⟩ := Encode.eq_fault_of_stopped hnames (Nat.le_refl _) h
    cases he

end Schema

end WireSchema
