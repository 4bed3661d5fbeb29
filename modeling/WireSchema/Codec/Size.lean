import WireSchema.Codec.Default
import WireSchema.Codec.Options

/-!
# Codec — Sizes

How many bits a type takes, from what is known of its value. `Mode.default` measures what the
encoder would write, `Mode.min` and `Mode.max` bound what any value with the known parts takes.

Infinity is a double, and what it is added to or compared with has to be within the range of
doubles; a number that is not makes the computation overflow.

A struct of which nothing is known and that lies inside itself has no bound on its depth; its size
is infinite. So structs lie inside one another no deeper than the value does, and once each beyond
that.
-/

namespace WireSchema

/-- A number of bits, or no bound on it. -/
inductive Extent
  | finite (bits : Nat)
  | infinite
  deriving DecidableEq, Repr

namespace Extent

/-- The least number that rounds to infinity as a double. -/
def doubleLimit : Nat := Nat.pow 2 1024 - Nat.pow 2 970

/-- The outcome `e` of reckoning a number with an infinity. Infinities are doubles, so the number
has to be within the range of doubles. -/
def beside (n : Nat) (e : Extent) : Outcome Extent :=
  if n < doubleLimit then .ok e else .error .overflow

def add : Extent → Extent → Outcome Extent
  | finite a, finite b => .ok (finite (a + b))
  | finite a, infinite => beside a infinite
  | infinite, finite b => beside b infinite
  | infinite, infinite => .ok infinite

/-- `count` times a size; there is at least one. -/
def times (count : Nat) : Extent → Outcome Extent
  | finite a => .ok (finite (count * a))
  | infinite => beside count infinite

/-- A size `count` times added to another; there is at least one. -/
def addTimes (total : Extent) (count : Nat) (e : Extent) : Outcome Extent :=
  match total, e with
  | finite a, finite b => .ok (finite (a + count * b))
  | total, e => total.add e

def max : Extent → Extent → Extent
  | finite a, finite b => finite (Nat.max a b)
  | _, _ => infinite

def min : Extent → Extent → Extent
  | finite a, finite b => finite (Nat.min a b)
  | finite a, infinite => finite a
  | infinite, b => b

/-- The bytes that so many bits fill, the last one perhaps in part. To be told from infinity, the
number of bits has to be within the range of doubles. -/
def bytes : Extent → Outcome Extent
  | finite bits => beside bits (finite ((bits + 7) / 8))
  | infinite => .ok infinite

end Extent

namespace Size

/-- What of a type is measured. -/
inductive Mode
  | min
  | max
  | default
  deriving DecidableEq, Repr

def Mode.name : Mode → String
  | min => "min"
  | max => "max"
  | default => "default"

def Mode.ofName? (name : Text) : Option Mode :=
  [Mode.min, .max, .default].find? fun mode => Text.ofString mode.name == name

/-- The mode that a value names. -/
def Mode.ofValue (v : Value) : Outcome Mode :=
  match v with
  | .text name =>
      match Mode.ofName? name with
      | some mode => .ok mode
      | none => .error (.badMode v)
  | v => .error (.badMode v)

/-- The bits of a text with its zero byte. -/
def ofText (charset : Charset) (text : Text) : Extent :=
  .finite (8 * ((charset.encode text).length + 1))

/-- Adds up the sizes of a list, each as soon as it is known. -/
def sumOf (one : Value → Outcome Extent) : List Value → (total : Extent) → Outcome Extent
  | [], total => .ok total
  | v :: rest, total => do sumOf one rest (← total.add (← one v))

/-- The size of `count` elements, given some of them; there is at least one element. -/
def elements (one : Value → Outcome Extent) (count : Nat) (given : List Value) : Outcome Extent :=
  match given.take count with
  | [] => do (← one .null).times count
  | known => do
      let total ← sumOf one known (.finite 0)
      if known.length < count then
        total.addTimes (count - known.length) (← one .null)
      else return total

section

variable (schema : Schema) (mode : Mode) (struct : Text → Value → Outcome Extent)
  (siblings : Fields)

mutual

/-- The size of a type, from what is known of its value and of its siblings. -/
def ofType : FieldType → Value → Outcome Extent
  | .int _ width _, _ => .ok (.finite width.bits)
  | .float width _, _ => .ok (.finite width.bits)
  | .enum name _ width _, _ =>
      match schema.enum? name with
      | some _ => .ok (.finite width.bits)
      | none => .fail (.unknownEnum name)
  | .text charset default?, v =>
      match v, mode, default? with
      | .text s, _, _ => .ok (ofText charset s)
      | _, .default, some s => .ok (ofText charset s)
      | _, .max, _ => .ok .infinite
      | _, _, _ => .ok (.finite 8)
  | .struct name, v => struct name v
  | .array element length, v =>
      match length.resolve siblings, mode with
      | .error _, .max => .ok .infinite
      | .error _, _ => .ok (.finite 0)
      | .ok 0, _ => .ok (.finite 0)
      | .ok count, _ => elements (ofType element) count v.items
  | .union discriminant enumName cases, v =>
      match siblings.label? discriminant with
      | some label => ofCase (.fail (.noMeasuredCase label)) label cases v
      | none =>
          match mode with
          | .default =>
              match schema.enum? enumName with
              | none => .fail (.unknownEnum enumName)
              | some e =>
                  match e.firstLabel? with
                  | none => .ok (.finite 0)
                  | some label => ofCase (.ok (.finite 0)) label cases .null
          | .max => ofCases .max none cases
          | .min => ofCases .min none cases

/-- The size of the case of a label, `absent` if there is none. -/
def ofCase (absent : Outcome Extent) (label : Text) :
    List (Text × FieldType) → Value → Outcome Extent
  | [], _ => absent
  | (l, t) :: cases, v => if l = label then ofType t v else ofCase absent label cases v

/-- The sizes of all cases, combined; zero if there are none. -/
def ofCases (combine : Extent → Extent → Extent) (before? : Option Extent) :
    List (Text × FieldType) → Outcome Extent
  | [] => .ok (before?.getD (.finite 0))
  | (_, t) :: cases =>
      match ofType t .null with
      | .error e => .error e
      | .ok size =>
          let sofar :=
            match before? with
            | some before => combine before size
            | none => size
          ofCases combine (some sofar) cases

end

end

/-- What a sibling that is not given counts as: the integer or the label that the encoder would
write, and nothing of another type. -/
def siblingDefault (schema : Schema) : FieldType → Outcome Value
  | .int _ _ default? => .ok (.int (default?.getD 0))
  | .enum name _ _ default? =>
      match default? with
      | some label => .ok (.text label)
      | none =>
          match schema.enum? name with
          | none => .fail (.unknownEnum name)
          | some e =>
              match e.firstLabel? with
              | some label => .ok (.text label)
              | none => .ok .null
  | .float .. | .text .. | .struct .. | .array .. | .union .. => .ok .null

/-- Measures the fields of a struct in order; `note` takes down the size of each as soon as it is
known. Fields not given are measured without a value; in default mode what they count as is among
the siblings of all fields from them on. -/
def fields {σ : Type} (schema : Schema) (mode : Mode)
    (one : Fields → FieldType → Value → Outcome Extent)
    (note : σ → Text → Extent → Outcome σ) :
    List (Text × FieldType) → (siblings : Fields) → (noted : σ) → Outcome σ
  | [], _, noted => .ok noted
  | (name, t) :: rest, siblings, noted => do
      let given := (Fields.get? siblings name).getD .null
      let siblings ←
        if given.isNull && mode == .default then do
          let v ← siblingDefault schema t
          pure (if v.isNull then siblings else Fields.put siblings name v)
        else pure siblings
      let size ← one siblings t given
      fields schema mode one note rest siblings (← note noted name size)

/-- Takes down a size by adding it up. -/
def addUp (total : Extent) (_ : Text) (size : Extent) : Outcome Extent := total.add size

/-- Takes down a size under the name of its field; a repeated name has the last one's. -/
def list (sizes : List (Text × Extent)) (name : Text) (size : Extent) :
    Outcome (List (Text × Extent)) :=
  .ok (Fields.put sizes name size)

/-- The size of a declared struct; `visiting` are those of which nothing is known around it. -/
def ofStruct (schema : Schema) (mode : Mode) :
    (depth : Nat) → (visiting : List Text) → Text → Value → Outcome Extent
  | depth, visiting, name, v =>
      match schema.struct? name with
      | none => .fail (.unknownStruct name)
      | some s =>
          let inside? : Option (List Text) :=
            match v with
            | .map _ => some visiting
            | _ => if name ∈ visiting then none else some (name :: visiting)
          match inside? with
          | none => .ok .infinite
          | some inside =>
              match depth with
              | 0 => .error .tooDeep
              | depth + 1 =>
                  fields schema mode (ofType schema mode (ofStruct schema mode depth inside)) addUp
                    s.fields v.members (.finite 0)

/-- A bound on the nesting of structs while a value is measured. -/
def depthBound (schema : Schema) (v : Value) : Nat := v.depth + schema.structs.length + 1

end Size

namespace Schema

/-- The size of a type in bits, from what is known of its value and of its siblings. -/
def sizeOf (schema : Schema) (t : FieldType) (mode : Size.Mode) (v : Value := .null)
    (siblings : Fields := []) : Outcome Extent :=
  Size.ofType schema mode (Size.ofStruct schema mode (Size.depthBound schema v) []) siblings t v

/-- The size of a root struct in bits. -/
def encodedBits (schema : Schema) (root : Text) (mode : Size.Mode) (v : Value := .null) :
    Outcome Extent :=
  schema.sizeOf (.struct root) mode v

/-- The size of a root struct in bytes. -/
def encodedSize (schema : Schema) (root : Text) (mode : Size.Mode) (v : Value := .null) :
    Outcome Extent := do
  (← schema.encodedBits root mode v).bytes

/-- The size in bits of each field of a declared struct. -/
def fieldSizesOf (schema : Schema) (s : StructDef) (mode : Size.Mode) (v : Value := .null) :
    Outcome (List (Text × Extent)) :=
  Size.fields schema mode
    (Size.ofType schema mode (Size.ofStruct schema mode (Size.depthBound schema v) [s.name]))
    Size.list s.fields v.members []

/-- The size in bits of each field of a root struct. -/
def fieldSizes (schema : Schema) (root : Text) (mode : Size.Mode) (v : Value := .null) :
    Outcome (List (Text × Extent)) :=
  match schema.struct? root with
  | none => .fail (.unknownStruct root)
  | some s => schema.fieldSizesOf s mode v

/-- The sizes of the fields in the mode that a value names; an unknown struct is reported before
an unknown mode. -/
def fieldSizesIn (schema : Schema) (root : Text) (mode : Value) (v : Value := .null) :
    Outcome (List (Text × Extent)) :=
  match schema.struct? root with
  | none => .fail (.unknownStruct root)
  | some s => do schema.fieldSizesOf s (← Size.Mode.ofValue mode) v

end Schema

end WireSchema
