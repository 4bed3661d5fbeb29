import WireSchema.Number.Format
import WireSchema.Text.Charset

/-!
# Schema — Field types

The type of a field says how its value lies on the wire. Structs and enums are named here and
declared by the schema, so a type is a finite tree although structs may contain one another.
-/

namespace WireSchema

/-- A number of bits from 1 to 64. -/
structure BitWidth where
  bits : Nat
  pos : 1 ≤ bits
  le : bits ≤ 64
  deriving DecidableEq, Repr

/-- The precision of a float field. -/
inductive FloatWidth
  | f32
  | f64
  deriving DecidableEq, Repr

namespace FloatWidth

/-- The word for a float field in payloads. -/
def kind : FloatWidth → String
  | f32 => "f32"
  | f64 => "f64"

def bits : FloatWidth → Nat
  | f32 => 32
  | f64 => 64

end FloatWidth

/-- The number of elements of an array. -/
inductive ArrayLength
  | static (count : Nat)
  /-- The number that an earlier field of the same struct holds. -/
  | dynamic (field : Text)
  deriving DecidableEq, Repr

/-- The type of a field. -/
inductive FieldType
  | int (signed : Bool) (width : BitWidth) (default? : Option Int)
  | float (width : FloatWidth) (default? : Option Binary64)
  | text (charset : Charset) (default? : Option Text)
  /-- A label of a declared enum, written as its code. -/
  | enum (name : Text) (signed : Bool) (width : BitWidth) (default? : Option Text)
  /-- A declared struct. -/
  | struct (name : Text)
  | array (element : FieldType) (length : ArrayLength)
  /-- The case chosen by the label that an earlier field of the same struct holds. -/
  | union (discriminant enumName : Text) (cases : List (Text × FieldType))

namespace FieldType

/-- The number of bits of a type whose values all take the same. -/
def fixedWidth? : FieldType → Option Nat
  | int _ width _ => some width.bits
  | float width _ => some width.bits
  | enum _ _ width _ => some width.bits
  | text .. | struct .. | array .. | union .. => none

/-- Whether two optional defaults are equal as numbers. -/
def sameDefault : Option Binary64 → Option Binary64 → Bool
  | none, none => true
  | some x, some y => x.sameNumber y
  | _, _ => false

mutual

/-- Whether two types are the same; the order of cases does not count. -/
def same : FieldType → FieldType → Bool
  | int s w d, int s' w' d' => s == s' && w == w' && d == d'
  | float w d, float w' d' => w == w' && sameDefault d d'
  | text c d, text c' d' => c == c' && d == d'
  | enum n s w d, enum n' s' w' d' => n == n' && s == s' && w == w' && d == d'
  | struct n, struct n' => n == n'
  | array t l, array t' l' => same t t' && l == l'
  | union d n cases, union d' n' cases' =>
      d == d' && n == n' && cases.length == cases'.length && sameCases cases cases'
  | _, _ => false

/-- Whether every case is among `others` too. -/
def sameCases : List (Text × FieldType) → List (Text × FieldType) → Bool
  | [], _ => true
  | (label, t) :: cases, others =>
      (match others.lookup label with
        | some t' => same t t'
        | none => false) && sameCases cases others

end

end FieldType

end WireSchema
