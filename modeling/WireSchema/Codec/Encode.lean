import WireSchema.Bits.Packer
import WireSchema.Codec.Conform
import WireSchema.Codec.Default
import WireSchema.Codec.Notice
import WireSchema.Codec.Options

/-!
# Codec — Encoding

A value becomes a script of writes, in the order in which its struct declares the fields; a packer
then carries the script out. A field that is not given is filled with its default among the fields
before it, and what was written for a field is what later fields see of it.

An array takes its resolved length: it is filled up with defaults or, with a notice, cut. A fault
carries the path of the position at which it arose; that of a default which cannot be built is the
path of the struct or array around it.

Types are walked structurally, structs are opened through the parameter `struct`. A given struct is
a level of the value's depth, and a defaulted one is free of gaps; that bounds the nesting.
-/

namespace WireSchema

/-- Writes to carry out, and the notices given on the way. -/
structure Script where
  writes : List Write
  notices : List Notice

namespace Script

def empty : Script := ⟨[], []⟩

def ofWrite (w : Write) : Script := ⟨[w], []⟩

def append (a b : Script) : Script := ⟨a.writes ++ b.writes, a.notices ++ b.notices⟩

/-- One script behind the other. -/
def concat (scripts : List Script) : Script :=
  ⟨scripts.flatMap (·.writes), scripts.flatMap (·.notices)⟩

end Script

/-- How encoding a value ends. -/
inductive Encoding
  | done (script : Script)
  | stopped (failure : Failure) (notices : List Notice)

namespace Encoding

/-- Stops at a position. -/
def fail (cause : Fault) (path : Path) : Encoding := stopped (.fault cause (some path)) []

/-- Puts a script before. -/
def after (script : Script) : Encoding → Encoding
  | done next => done (script.append next)
  | stopped failure notices => stopped failure (script.notices ++ notices)

end Encoding

namespace Encode

/-- The float that a number is written as. -/
def float? : Value → Option Binary64
  | .int i => some (Binary64.ofInt i)
  | .float x => some x
  | _ => none

/-- The elements of an array from number `i` on, `count` of them; a missing one is the default.
`scripts` holds those before, the last first. -/
def elements (one : Path → Value → Encoding) (default : Unit → Outcome Value) (path : Path) :
    (count i : Nat) → List Value → (scripts : List Script) → Encoding
  | 0, _, _, scripts => .done (Script.concat scripts.reverse)
  | count + 1, i, items, scripts =>
      let given := items.headD .null
      match if given.isNull then default () else .ok given with
      | .error e =>
          .stopped (e.locate path) (Script.concat scripts.reverse).notices
      | .ok v =>
          match one (path.element i) v with
          | .stopped e notices =>
              .stopped e ((Script.concat scripts.reverse).notices ++ notices)
          | .done script => elements one default path count (i + 1) items.tail (script :: scripts)

section

variable (schema : Schema) (strict : Bool) (struct : Text → Path → Value → Encoding)
  (siblings : Fields)

mutual

/-- Encodes a value as a type, with `siblings` written before it. -/
def ofType : FieldType → Path → Value → Encoding
  | .int _ width _, path, v =>
      match v with
      | .int i => .done (.ofWrite (.bits64 i width.bits))
      | v => .fail (.expectedInt v.typeName) path
  | .float width _, path, v =>
      match float? v, width with
      | some x, .f32 => .done (.ofWrite (.float32 x))
      | some x, .f64 => .done (.ofWrite (.float64 x))
      | none, _ => .fail (.expectedFloat v.typeName) path
  | .text charset _, path, v =>
      match v with
      | .text t => .done (.ofWrite (.text charset t))
      | v => .fail (.expectedText charset v.typeName) path
  | .enum name _ width _, path, v =>
      match schema.enum? name with
      | none => .fail (.unknownEnum name) path
      | some e =>
          let code? :=
            match v with
            | .text label => e.codeOf? label
            | _ => none
          match code? with
          | some code => .done (.ofWrite (.bits64 code width.bits))
          | none => .fail (.unknownLabel v name) path
  | .struct name, path, v => struct name path v
  | .array element length, path, v =>
      match length.resolve siblings with
      | .error field => .fail (.unwrittenLength field) path
      | .ok count =>
          match v with
          | .list items =>
              if strict && items.length != count then
                .fail (.lengthMismatch count items.length) path
              else
                let notices :=
                  if count < items.length then
                    [.dropped path (items.length - count) count]
                  else []
                .after ⟨[], notices⟩ <|
                  elements (ofType element)
                    (fun _ => schema.defaultValue element siblings)
                    path count 0 items []
          | v => .fail (.expectedList v.typeName) path
  | .union discriminant enumName cases, path, v =>
      match siblings.label? discriminant with
      | none => .fail (.unwrittenDiscriminant discriminant) path
      | some label => ofCase label enumName cases path v

/-- Encodes a value as the case of a label. -/
def ofCase (label enumName : Text) :
    List (Text × FieldType) → Path → Value → Encoding
  | [], path, _ => .fail (.noWrittenCase label enumName) path
  | (l, t) :: cases, path, v =>
      if l = label then ofType t path v else ofCase label enumName cases path v

end

end

/-- Encodes the members of a struct, field by field; `written` holds the fields before. -/
def fields (schema : Schema) (one : Fields → FieldType → Path → Value → Encoding)
    (members : Fields) (path : Path) :
    List (Text × FieldType) → (written : Fields) → Encoding
  | [], _ => .done .empty
  | (name, t) :: rest, written =>
      let given := (Fields.get? members name).getD .null
      match if given.isNull then schema.defaultValue t written else .ok given with
      | .error e => .stopped (e.locate path) []
      | .ok v =>
          match one written t (path.child name) v with
          | .stopped e notices => .stopped e notices
          | .done script =>
              .after script (fields schema one members path rest (Fields.put written name v))

/-- Encodes a value as a declared struct. -/
def ofStruct (schema : Schema) (strict : Bool) :
    (depth : Nat) → Text → Path → Value → Encoding
  | depth, name, path, v =>
      match schema.struct? name with
      | none => .fail (.unknownStruct name) path
      | some s =>
          match v with
          | .map members =>
              match depth with
              | 0 => .stopped .tooDeep []
              | depth + 1 =>
                  fields schema (ofType schema strict (ofStruct schema strict depth)) members path
                    s.fields []
          | v => .fail (.expectedMap name v.typeName) path

/-- A bound on the nesting of structs while a value is encoded. -/
def depthBound (schema : Schema) (v : Value) : Nat :=
  v.depth + (schema.structs.length + 1) * (schema.structs.length + 1)

/-- The script of a value as a root struct. -/
def script (schema : Schema) (strict : Bool) (root : Text) (v : Value) : Encoding :=
  ofStruct schema strict (depthBound schema v) root (Path.ofRoot root) v

end Encode

/-- The outcome of a codec call with the notices given up to its end. -/
structure Report (α : Type) where
  notices : List Notice
  outcome : Outcome α

namespace Encode

/-- Carries out a script, and refuses an encoding that is too large. -/
def finish (options : Options) (root : Text) (script : Script) : Report (Array UInt8) :=
  match (Packer.withCapacity options.capacity options.capacity_pos).writeAll script.writes with
  | .error e => ⟨script.notices, .error (.badWidth e)⟩
  | .ok packer =>
      let bytes := packer.toBytes
      match options.maxBytes with
      | some limit =>
          if limit < bytes.size then
            ⟨script.notices,
              .error (.fault (.tooLarge bytes.size limit) (some (Path.ofRoot root)))⟩
          else ⟨script.notices ++ [.encoded root packer.length], .ok bytes⟩
      | none => ⟨script.notices ++ [.encoded root packer.length], .ok bytes⟩

end Encode

namespace Schema

/-- Whether a value may be encoded: all may, unless values are checked. -/
def admits (schema : Schema) (v : Value) (root : Text) (options : Options) : Outcome Bool :=
  if options.validateValues then schema.conforms (.struct root) v else .ok true

/-- Encodes a value as a root struct. -/
def encode (schema : Schema) (v : Value) (root : Text) (options : Options := {}) :
    Report (Array UInt8) :=
  match schema.admits v root options with
  | .error e => ⟨[], .error e⟩
  | .ok false => ⟨[], .error (.fault (.mismatch root) (some (Path.ofRoot root)))⟩
  | .ok true =>
      match Encode.script schema options.strictArrays root v with
      | .stopped e notices => ⟨notices, .error e⟩
      | .done script => Encode.finish options root script

/-- Encodes a value as a root struct, if there is a buffer to write to. The buffer is made once the
value is admitted and before anything is written. -/
def encodeBuffered (schema : Schema) (v : Value) (root : Text) (options : Options := {}) :
    Report (Array UInt8) :=
  match schema.admits v root options with
  | .ok true =>
      if options.capacity < Packer.indexLimit then schema.encode v root options
      else ⟨[], .error (.noBuffer options.capacity)⟩
  | _ => schema.encode v root options

end Schema

end WireSchema
