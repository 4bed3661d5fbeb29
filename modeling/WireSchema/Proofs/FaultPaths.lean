import WireSchema.Proofs.Codec.ReadWalk
import WireSchema.Proofs.Codec.WriteUnbounded

/-!
# Where faults lie

**The path of a fault is real** (`Schema.exists_path_of_fault`). Of whatever schema, a fault of the
decoder has a path, and so has one of the encoder, unless it arises while the value as a whole is
checked: there is no walk then, and what is not declared is found at no particular position.

A path that there is leads from the root to the position at which the fault arises. Every position
on the way to it stops with this same fault and path, so nothing further out has put another in its
place. Every step leads from a struct at which the walk has been into a field that it declares, or
from an array to an element below its length (`Position.Located`). Only a value that does not
conform as a whole, and a message that is too large, are faults of the root without being faults of
the walk.

A position fails by itself for what its value is refused for, with its own path, or for a default
that cannot be built there, with the path of the struct or array around the gap
(`Decode.Fails.eq_fault`, `Encode.Fails.eq_fault`).
-/

namespace WireSchema

variable {schema : Schema} {root : Text}

/-! ### Reading -/

namespace Decode

/-- A read of a message stops with a failure at this path. -/
abbrev Located (schema : Schema) (data : Array UInt8) (root : Text) (failure : Failure) :
    Path → Prop :=
  Position.Located schema (Leads schema) (Opens schema) Task.position (Fails schema)
    (Task.Stops schema failure) (depthBound schema data.size) (.start data root) root failure

theorem located_of_run {data : Array UInt8} {cause : Fault} {path? : Option Path}
    (h : run schema data root = .stopped (.fault cause path?)) :
    ∃ path, path? = some path ∧ Located schema data root (.fault cause path?) path := by
  have hlies : ∃ task, Fails schema task (.fault cause path?) ∧
      Located schema data root (.fault cause path?) task.position.path :=
    Position.exists_located Task.position (fun _ _ => Leads.position)
      (fun _ _ => Opens.position) rfl (wellFounded_leads schema) Task.Stops.stopsFor
      (fun h => nomatch h) h
  obtain ⟨task, fails, located⟩ := hlies
  obtain ⟨_, heq⟩ := fails.eq_fault
  cases heq
  exact ⟨_, rfl, located⟩

end Decode

/-! ### Writing -/

namespace Encode

/-- Writing a value stops with a failure at this path. -/
abbrev Located (schema : Schema) (strict : Bool) (root : Text) (v : Value) (failure : Failure) :
    Path → Prop :=
  Position.Located schema (Leads schema) (Opens schema) Task.position (Fails schema strict)
    (Task.Stops schema strict failure) (depthBound schema v) (.start root v) root failure

theorem located_of_script {strict : Bool} {v : Value} {cause : Fault} {path? : Option Path}
    {notices : List Notice}
    (h : script schema strict root v = .stopped (.fault cause path?) notices) :
    ∃ path, path? = some path ∧ Located schema strict root v (.fault cause path?) path := by
  have hlies : ∃ task, Fails schema strict task (.fault cause path?) ∧
      Located schema strict root v (.fault cause path?) task.position.path :=
    Position.exists_located Task.position (fun _ _ => Leads.position)
      (fun _ _ => Opens.position) rfl (wellFounded_leads schema) Task.Stops.stopsFor
      (fun h => nomatch h) ⟨notices, h⟩
  obtain ⟨task, fails, located⟩ := hlies
  obtain ⟨_, heq⟩ := fails.eq_fault
  cases heq
  exact ⟨_, rfl, located⟩

/-- What is wrong with a value or a message as a whole. -/
inductive Whole (schema : Schema) (root : Text) (v : Value) (options : Options) : Fault → Prop
  | unfit (validate : options.validateValues = true)
      (h : schema.conforms (.struct root) v = .ok false) :
      Whole schema root v options (.mismatch root)
  | tooLarge {size limit} (max : options.maxBytes = some limit) (h : limit < size) :
      Whole schema root v options (.tooLarge size limit)

end Encode

namespace Schema

/-- Where a fault of the encoder lies, if it lies anywhere. -/
theorem located_of_encode {v : Value} {options : Options} {cause : Fault} {path? : Option Path}
    (h : (schema.encode v root options).outcome = .error (.fault cause path?)) :
    (path? = none ∧ options.validateValues = true ∧
      schema.conforms (.struct root) v = .error (.fault cause none)) ∨
    ∃ path, path? = some path ∧
      (path = Path.ofRoot root ∧ Encode.Whole schema root v options cause ∨
        Encode.Located schema options.strictArrays root v (.fault cause path?) path) := by
  have hencodes := encodes schema v root options
  generalize schema.encode v root options = report at h hencodes
  cases hencodes with
  | untold validate hfit =>
      cases h
      obtain ⟨_, heq⟩ := Conform.faults_conforms _ _ _ _ hfit
      cases heq
      exact .inl ⟨rfl, validate, hfit⟩
  | unfit validate hfit =>
      cases h
      exact .inr ⟨_, rfl, .inl ⟨rfl, .unfit validate hfit⟩⟩
  | stopped _ hscript =>
      cases h
      obtain ⟨path, hpath, located⟩ := Encode.located_of_script hscript
      exact .inr ⟨path, hpath, .inr located⟩
  | @written script _ hscript =>
      obtain ⟨bs, -, hp⟩ := Encode.writes_of_script hscript
      obtain ⟨bytes, -, -, hcarries⟩ := Encode.exists_finish bs
      have hcarried := hcarries options root script hp
      generalize Encode.finish options root script = report at h hcarried
      cases hcarried with
      | within => cases h
      | beyond max hlt =>
          cases h
          exact .inr ⟨_, rfl, .inl ⟨rfl, .tooLarge max hlt⟩⟩

/-- **The path of a fault is real.** Of whatever schema, root and options, every fault of the
decoder has a path, and a fault of the encoder has none exactly if it is that of the check of the
whole value. The path is written as its steps behind the root, and the fault lies there: at the
position that itself fails with it, along positions all of which stop with the same fault and path,
through declared fields and elements below the length. Or the whole is refused, at the root. -/
theorem exists_path_of_fault (schema : Schema) (root : Text) (options : Options) :
    (∀ data cause path?,
      (schema.decode data root options).outcome = .error (.fault cause path?) →
        ∃ path, path? = some path ∧ path.render = path.steps.foldl PathStep.extend root ∧
          Decode.Located schema data root (.fault cause path?) path) ∧
    ∀ v cause path?,
      (schema.encode v root options).outcome = .error (.fault cause path?) →
        (path? = none ↔ options.validateValues = true ∧
          schema.conforms (.struct root) v = .error (.fault cause none)) ∧
        ∀ path, path? = some path →
          path.render = path.steps.foldl PathStep.extend root ∧
          (path = Path.ofRoot root ∧ Encode.Whole schema root v options cause ∨
            Encode.Located schema options.strictArrays root v (.fault cause path?) path) := by
  constructor
  · intro data cause path? h
    obtain ⟨path, hpath, located⟩ := Decode.located_of_run (run_of_decode h)
    refine ⟨path, hpath, ?_, located⟩
    rw [Path.render, located.2.1]
  · intro v cause path? h
    refine ⟨⟨fun hnone => ?_, fun ⟨validate, hfit⟩ => ?_⟩, fun path hpath => ?_⟩
    · rcases located_of_encode h with ⟨-, validate, hfit⟩ | ⟨path, hpath, -⟩
      · exact ⟨validate, hfit⟩
      · cases hnone.symm.trans hpath
    · rw [(Encodes.untold validate hfit).eq] at h
      cases h
      rfl
    · rcases located_of_encode h with ⟨hnone, -, -⟩ | ⟨path', hpath', hlies⟩
      · cases hnone.symm.trans hpath
      · cases hpath.symm.trans hpath'
        refine ⟨?_, hlies⟩
        rcases hlies with ⟨rfl, -⟩ | located
        · rfl
        · rw [Path.render, located.2.1]

/-- Where the kind of the second node lies. -/
def secondKind : Path := ⟨"Node", [.field "body", .field "kind"]⟩

/-- In a chain the second node is found to be of no kind. -/
theorem chain_exists_path_of_fault :
    (chain.decode #[0, 0x40, 0x20] "Node" {}).outcome =
        .error (.fault (.unknownCode 2 "Kind") (some secondKind)) ∧
      secondKind.render = "Node.body.kind" ∧
      Decode.Located chain #[0, 0x40, 0x20] "Node"
        (.fault (.unknownCode 2 "Kind") (some secondKind)) secondKind := by
  have h : (chain.decode #[0, 0x40, 0x20] "Node" {}).outcome =
      .error (.fault (.unknownCode 2 "Kind") (some secondKind)) := rfl
  obtain ⟨_, hpath, hrender, located⟩ := (exists_path_of_fault chain "Node" {}).1 _ _ _ h
  cases hpath
  exact ⟨h, hrender, located⟩

/-- A struct with a field of a struct that is not declared. -/
def torso : Schema where
  structs := [⟨"Torso", [("head", .struct "Head")]⟩]
  enums := []
  names_nodup := by decide

/-- The walk finds what is not declared where it lies, and the check of the whole value nowhere. -/
example :
    (torso.encode (.map [("head", .map [])]) "Torso").outcome =
        .error (.fault (.unknownStruct "Head") (some ⟨"Torso", [.field "head"]⟩)) ∧
      (torso.encode (.map [("head", .map [])]) "Torso" { validateValues := true }).outcome =
        .error (.fault (.unknownStruct "Head") none) :=
  ⟨rfl, rfl⟩

end Schema

end WireSchema
