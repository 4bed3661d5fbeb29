import WireSchema.Bits.Cursor
import WireSchema.Codec.Encode

/-!
# Codec — Decoding

A message is read field by field in the order of the declarations. Data that ends early is no
fault: the read is *cut*, every struct and array around the cut stops at once, and what was read
before it is the value. A container that had read nothing yields nothing.

A cut keeps its place: the position of the cursor, and a notice for each array it ended, the
innermost first. A read that completes gives no notices.

Types are walked structurally, structs are opened through the parameter `struct`. Reading a struct
starts from its name and the position alone, so a message of `n` bits opens no more than
`(n + 1) * N` of `N` structs inside one another unless it opens them without end.
-/

namespace WireSchema

/-- How reading a value ends. -/
inductive Decoding
  | done (v : Value) (rest : Cursor)
  /-- The data ended; what could be read, if anything. -/
  | cut (read? : Option Value) (rest : Cursor) (notices : List Notice)
  | stopped (failure : Failure)

namespace Decoding

/-- Stops at a position. -/
def fail (cause : Fault) (path : Path) : Decoding := stopped (.fault cause (some path))

/-- What taking something from a cursor says; with nothing taken, the data has ended at `c`. -/
def ofTaken {α : Type} (c : Cursor) (toValue : α → Value) : Option (α × Cursor) → Decoding
  | some (a, rest) => done (toValue a) rest
  | none => cut none c []

end Decoding

namespace Decode

/-- Reads an integer. -/
def integer (signed : Bool) (width : Nat) (c : Cursor) :
    Except WidthError (Option (Int × Cursor)) := do
  let w ← WidthError.check width wideLimit
  return (c.take? w).map fun (bs, rest) => (if signed then bs.toInt else (bs.toNat : Int), rest)

/-- The elements of an array, `count` of them out of `length`; `read` holds those before, the last
first. -/
def elements (one : Path → Cursor → Decoding) (path : Path) (length : Nat) :
    (count : Nat) → (read : List Value) → Cursor → Decoding
  | 0, read, c => .done (.list read.reverse) c
  | count + 1, read, c =>
      match one (path.element (length - (count + 1))) c with
      | .done v rest => elements one path length count (v :: read) rest
      | .cut read? rest notices =>
          let read := read?.toList ++ read
          .cut (if read.isEmpty then none else some (.list read.reverse)) rest
            (notices ++ [.arrayCut path read.length length])
      | .stopped failure => .stopped failure

section

variable (schema : Schema) (struct : Text → Path → Cursor → Decoding) (siblings : Fields)

mutual

/-- Reads a value of a type, with `siblings` read before it. -/
def ofType : FieldType → Path → Cursor → Decoding
  | .int signed width _, _, c =>
      match integer signed width.bits c with
      | .error e => .stopped (.badWidth e)
      | .ok taken => .ofTaken c .int taken
  | .float .f32 _, _, c => .ofTaken c .float c.float32?
  | .float .f64 _, _, c => .ofTaken c .float c.float64?
  | .text charset _, _, c => .ofTaken c.toEnd (.text <| Text.ofChars ·) (c.text? charset)
  | .enum name signed width _, path, c =>
      match schema.enum? name with
      | none => .fail (.unknownEnum name) path
      | some e =>
          match integer signed width.bits c with
          | .error e => .stopped (.badWidth e)
          | .ok none => .cut none c []
          | .ok (some (code, rest)) =>
              match e.labelOf? code with
              | some label => .done (.text label) rest
              | none => .fail (.unknownCode code name) path
  | .struct name, path, c => struct name path c
  | .array element length, path, c =>
      match length.resolve siblings with
      | .error field => .fail (.unreadLength field) path
      | .ok count => elements (ofType element) path count count [] c
  | .union discriminant _ cases, path, c =>
      match siblings.label? discriminant with
      | none => .fail (.unreadDiscriminant discriminant) path
      | some label => ofCase label cases path c

/-- Reads a value of the case of a label. -/
def ofCase (label : Text) : List (Text × FieldType) → Path → Cursor → Decoding
  | [], path, _ => .fail (.noReadCase label) path
  | (l, t) :: cases, path, c => if l = label then ofType t path c else ofCase label cases path c

end

end

/-- Reads the fields of a struct in order; `read` holds those before. -/
def fields (one : Fields → FieldType → Path → Cursor → Decoding) (path : Path) :
    List (Text × FieldType) → (read : Fields) → Cursor → Decoding
  | [], read, c => .done (.map read) c
  | (name, t) :: rest, read, c =>
      match one read t (path.child name) c with
      | .done v c => fields one path rest (Fields.put read name v) c
      | .cut read? c notices =>
          let read :=
            match read? with
            | some v => Fields.put read name v
            | none => read
          .cut (if read.isEmpty then none else some (.map read)) c notices
      | .stopped failure => .stopped failure

/-- Reads a declared struct. -/
def ofStruct (schema : Schema) : (depth : Nat) → Text → Path → Cursor → Decoding
  | depth, name, path, c =>
      match schema.struct? name with
      | none => .fail (.unknownStruct name) path
      | some s =>
          match depth with
          | 0 => .stopped .tooDeep
          | depth + 1 => fields (ofType schema (ofStruct schema depth)) path s.fields [] c

/-- A bound on the nesting of structs in a message of this many bytes. -/
def depthBound (schema : Schema) (bytes : Nat) : Nat := (8 * bytes + 1) * schema.structs.length

/-- Reads a root struct from the start of the data. -/
def run (schema : Schema) (data : Array UInt8) (root : Text) : Decoding :=
  ofStruct schema (depthBound schema data.size) root (Path.ofRoot root) (Cursor.ofBytes data)

/-- What is reported when a root struct has been read: data that ended early, or whole bytes that
are left. -/
def finish (options : Options) (root : Text) (size : Nat) : Decoding → Report (Option Value)
  | .stopped failure => ⟨[], .error failure⟩
  | .cut read? rest notices => ⟨notices ++ [.dataCut root rest.position], .ok read?⟩
  | .done v rest =>
      let notices :=
        if options.warnTrailingBytes && 8 ≤ rest.remaining then
          [.trailingBytes ((rest.position + 7) / 8) size]
        else []
      ⟨notices, .ok (some v)⟩

end Decode

namespace Schema

/-- Decodes a message as a root struct; nothing if not a single field could be read. -/
def decode (schema : Schema) (data : Array UInt8) (root : Text) (options : Options := {}) :
    Report (Option Value) :=
  Decode.finish options root data.size (Decode.run schema data root)

end Schema

end WireSchema
