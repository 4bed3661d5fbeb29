import WireSchema.Schema.Payload

/-!
# Schema — Building types

Field types from loose arguments, one function for each kind. What is wrong with an argument is
reported under its name.
-/

namespace WireSchema

namespace FieldType

namespace Build

variable (reading : Reading)

/-- The helpers that build a type with no types inside. -/
def leaves : List (Text × (Payload.Members → Checked FieldType)) :=
  [("Int", Payload.readInt reading), ("Float32", Payload.readFloatType reading .tree .f32),
    ("Float64", Payload.readFloatType reading .tree .f64),
    ("CString", Payload.readTextType reading .utf8),
    ("HebrewString", Payload.readTextType reading .hebrew),
    ("EnumRef", Payload.readEnumType reading), ("StructRef", Payload.readStructType reading)]

/-- A type with no types inside. -/
def leaf? (helper : Text) (arguments : Fields) : Option (Checked FieldType) :=
  ((leaves reading).lookup helper).map fun build => build (Payload.plainMembers arguments)

/-- An array: a text names the field that holds the length, all else is a count. -/
def array (element : FieldType) (length : Value) : Checked FieldType :=
  match length with
  | .text field => .ok (.array element (.dynamic field))
  | v =>
      (fun count => .array element (.static count)) <$>
        (Payload.readCount reading ⟨v, .fail .missing, []⟩).under "value"

/-- A union of built cases. -/
def union (arguments : Fields) (cases : List (Text × FieldType)) : Checked FieldType :=
  let ms := Payload.plainMembers arguments
  (fun discriminant enumName => .union discriminant enumName cases)
    <$> Payload.required ms ["discriminant"] (Payload.readText reading)
    <*> Payload.required ms ["enum_type_name"] (Payload.readText reading)

end Build

end FieldType

end WireSchema
