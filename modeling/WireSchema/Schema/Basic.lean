import WireSchema.Schema.FieldType

/-!
# Schema

The declared structs and enums, each name declared once. Everything that is computed over a schema
looks names up in it: `struct?` and `enum?`.
-/

namespace WireSchema

/-- A struct: its fields in the order in which they lie on the wire. -/
structure StructDef where
  name : Text
  fields : List (Text × FieldType)

namespace StructDef

def fieldNames (s : StructDef) : List Text := s.fields.map (·.1)

def same (s t : StructDef) : Bool :=
  s.name == t.name && s.fieldNames == t.fieldNames &&
    (s.fields.zip t.fields).all fun (f, g) => f.2.same g.2

end StructDef

/-- An enum: its labels with their codes, in order. -/
structure EnumDef where
  name : Text
  entries : List (Text × Int)
  deriving DecidableEq, Repr

namespace EnumDef

def labels (e : EnumDef) : List Text := e.entries.map (·.1)

/-- The code of a label. -/
def codeOf? (e : EnumDef) (label : Text) : Option Int := e.entries.lookup label

/-- The first label with a code. -/
def labelOf? (e : EnumDef) (code : Int) : Option Text :=
  (e.entries.find? fun entry => entry.2 == code).map (·.1)

/-- The label an enum value has where nothing else says. -/
def firstLabel? (e : EnumDef) : Option Text := e.labels.head?

end EnumDef

/-- A declaration of a schema. -/
inductive Definition
  | struct (s : StructDef)
  | enum (e : EnumDef)

namespace Definition

def name : Definition → Text
  | struct s => s.name
  | enum e => e.name

def struct? : Definition → Option StructDef
  | struct s => some s
  | enum _ => none

def enum? : Definition → Option EnumDef
  | struct _ => none
  | enum e => some e

end Definition

/-- Structs and enums in the order of their declarations, all with names of their own. -/
structure Schema where
  structs : List StructDef
  enums : List EnumDef
  names_nodup : (enums.map (·.name) ++ structs.map (·.name)).Nodup

namespace Schema

/-- The first of the names that occurs before it. -/
def repeated? (seen : List Text) : List Text → Option Text
  | [] => none
  | name :: names =>
      if name ∈ seen then some name else repeated? (name :: seen) names

/-- The schema of a list of declarations, or the name that is declared again first. -/
def ofDefinitions (definitions : List Definition) : Except Text Schema :=
  let structs := definitions.filterMap (·.struct?)
  let enums := definitions.filterMap (·.enum?)
  if h : (enums.map (·.name) ++ structs.map (·.name)).Nodup then .ok ⟨structs, enums, h⟩
  else .error ((repeated? [] (definitions.map (·.name))).getD "")

/-- The declarations of a schema, enums first. -/
def definitions (schema : Schema) : List Definition :=
  schema.enums.map .enum ++ schema.structs.map .struct

/-- The struct of this name. -/
def struct? (schema : Schema) (name : Text) : Option StructDef :=
  schema.structs.find? fun s => s.name == name

/-- The enum of this name. -/
def enum? (schema : Schema) (name : Text) : Option EnumDef :=
  schema.enums.find? fun e => e.name == name

/-- Whether a struct or an enum has this name. -/
def declares (schema : Schema) (name : Text) : Bool :=
  (schema.struct? name).isSome || (schema.enum? name).isSome

/-- Whether two schemas declare the same structs and the same enums, in whatever order. -/
def same (a b : Schema) : Bool :=
  a.structs.length == b.structs.length && a.enums.length == b.enums.length &&
    (a.structs.all fun s => (b.struct? s.name).any s.same) &&
    a.enums.all fun e => (b.enum? e.name).any (decide <| e = ·)

end Schema

end WireSchema
