import WireSchema.Codec.Failure
import WireSchema.Codec.Siblings
import WireSchema.Schema.Basic

/-!
# Codec — Defaults

The value a field takes when none is given: its declared default, or zero, the empty text, the
first label, the struct of the defaults of its fields. A union takes the case that the siblings
select, and the case of the first label where they select none.

A struct that is being built cannot be built again inside itself, so no more structs lie inside one
another than the schema declares.
-/

namespace WireSchema

namespace Default

section

variable (schema : Schema) (struct : Text → Outcome Value) (siblings : Fields)

mutual

/-- The default of a type. -/
def ofType : FieldType → Outcome Value
  | .int _ _ default? => .ok (.int (default?.getD 0))
  | .float _ default? => .ok (.float (default?.getD Binary64.zero))
  | .text _ default? => .ok (.text (default?.getD ""))
  | .enum name _ _ default? =>
      match schema.enum? name with
      | none => .fail (.unknownEnum name)
      | some e =>
          match default?, e.firstLabel? with
          | some label, _ => .ok (.text label)
          | none, some label => .ok (.text label)
          | none, none => .fail (.emptyEnum name)
  | .struct name => struct name
  | .array element length =>
      match length.resolve siblings with
      | .error _ | .ok 0 => .ok (.list [])
      | .ok count =>
          match ofType element with
          | .ok v => .ok (.list (List.replicate count v))
          | .error e => .error e
  | .union discriminant enumName cases =>
      match siblings.label? discriminant with
      | some label => ofCase discriminant label cases
      | none =>
          match schema.enum? enumName with
          | none => .fail (.unknownEnum enumName)
          | some e =>
              match e.firstLabel? with
              | some label => ofCase discriminant label cases
              | none => .fail (.noDefaultCase discriminant none)

/-- The default of the case of a label. -/
def ofCase (discriminant label : Text) : List (Text × FieldType) → Outcome Value
  | [] => .fail (.noDefaultCase discriminant (some label))
  | (l, t) :: cases => if l = label then ofType t else ofCase discriminant label cases

end

end

/-- The defaults of fields, each among those before it. -/
def ofFields (one : Fields → FieldType → Outcome Value) :
    List (Text × FieldType) → (built : Fields) → Outcome Fields
  | [], built => .ok built
  | (name, t) :: fields, built =>
      match one built t with
      | .ok v => ofFields one fields (Fields.put built name v)
      | .error e => .error e

/-- The default of a declared struct; `building` are those that it is being built for. -/
def ofStruct (schema : Schema) : (depth : Nat) → (building : List Text) → Text → Outcome Value
  | depth, building, name =>
      match schema.struct? name with
      | none => .fail (.unknownStruct name)
      | some s =>
          if name ∈ building then .fail (.endlessDefault name)
          else
            match depth with
            | 0 => .error .tooDeep
            | depth + 1 =>
                .map <$> ofFields
                  (ofType schema (ofStruct schema depth (name :: building))) s.fields []

end Default

namespace Schema

/-- The default of a type among these siblings. -/
def defaultValue (schema : Schema) (t : FieldType) (siblings : Fields := []) : Outcome Value :=
  Default.ofType schema (Default.ofStruct schema schema.structs.length []) siblings t

end Schema

end WireSchema
