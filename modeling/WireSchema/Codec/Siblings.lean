import WireSchema.Schema.FieldType
import WireSchema.Value

/-!
# Codec — Siblings

A union looks up its label, and an array its length, among the fields of the same struct that came
before. Every computation over a schema passes those fields along and reads them here.
-/

namespace WireSchema

namespace Fields

/-- The label that a field holds: a text that is not empty. -/
def label? (siblings : Fields) (field : Text) : Option Text :=
  match get? siblings field with
  | some (.text label) => if label.isEmpty then none else some label
  | _ => none

/-- The count that a field holds: an integer, and zero for a negative one. -/
def count? (siblings : Fields) (field : Text) : Option Nat :=
  match get? siblings field with
  | some (.int i) => some i.toNat
  | _ => none

end Fields

namespace ArrayLength

/-- The number of elements, or the name of the field that should hold it and does not. -/
def resolve (siblings : Fields) : ArrayLength → Except Text Nat
  | static count => .ok count
  | dynamic field =>
      match siblings.count? field with
      | some count => .ok count
      | none => .error field

end ArrayLength

end WireSchema
