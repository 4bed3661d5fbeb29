import WireSchema.Schema.Basic
import WireSchema.Text.Quoted

/-!
# Schema — Summary

A schema on one line: the names of its structs and of its enums.
-/

namespace WireSchema

namespace Schema

def structNames (schema : Schema) : List Text := schema.structs.map (·.name)

def enumNames (schema : Schema) : List Text := schema.enums.map (·.name)

def summary (schema : Schema) : Text :=
  let list (names : List Text) : Text :=
    "[" ++ (", " : Text).intercalate (names.map Quoted.quoted) ++ "]"
  "Schema(structs=" ++ list schema.structNames ++ ", enums=" ++ list schema.enumNames ++ ")"

end Schema

end WireSchema
