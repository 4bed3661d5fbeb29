import WireSchema.Bits
import WireSchema.Consistency.Recursion
import WireSchema.Number.Numeral
import WireSchema.Value

/-!
# Consistency

What makes a schema fail only when a value reaches the part in question: names that are not
declared, repeated names, labels and codes that do not fit, structs that embed themselves, and
unions and arrays whose discriminant or length is not a suitable field before them.
-/

namespace WireSchema

/-- A place in a struct: a field, then elements and cases of its type. -/
structure Place where
  struct : Text
  field : Text
  inner : List (Option Text)
  deriving DecidableEq, Repr

namespace Place

def element (p : Place) : Place := { p with inner := p.inner ++ [none] }

def case (p : Place) (label : Text) : Place := { p with inner := p.inner ++ [some label] }

def render (p : Place) : Text :=
  p.inner.foldl
    (fun text step =>
      match step with
      | none => text ++ "[]"
      | some label => text ++ "<" ++ label ++ ">")
    (p.struct ++ "." ++ p.field)

end Place

/-- An inconsistency of a schema. -/
inductive Inconsistency
  | duplicateLabel (enumName label : Text)
  | duplicateCode (enumName : Text) (code : Int)
  | noLabels (enumName : Text)
  | duplicateField (place : Place)
  | undefinedStruct (place : Place) (name : Text)
  | undefinedEnum (place : Place) (name : Text)
  | codeTooWide (place : Place) (label : Text) (code : Int) (width : Nat)
  | unknownDefault (place : Place) (label enumName : Text)
  | badLength (place : Place) (field : Text)
  | badDiscriminant (place : Place) (field enumName : Text)
  | unknownCase (place : Place) (label enumName : Text)
  | missingCases (place : Place) (labels : List Text)
  | recursion (cycle : List Text)
  deriving DecidableEq, Repr

namespace Inconsistency

/-- The line about an inconsistency; there is none if a code in it has no numeral. -/
def message : Inconsistency → Except Numeral.TooLong Text
  | duplicateLabel enumName label =>
      return "Enum '" ++ enumName ++ "': duplicate variant '" ++ label ++ "'"
  | duplicateCode enumName code => do
      let code ← Numeral.ofInt code
      return "Enum '" ++ enumName ++ "': duplicate code " ++ code
  | noLabels enumName => return "Enum '" ++ enumName ++ "': no variants"
  | duplicateField place =>
      return place.render ++ ": duplicate field '" ++ place.field ++ "' in struct"
  | undefinedStruct place name => return place.render ++ ": undefined struct type '" ++ name ++ "'"
  | undefinedEnum place name => return place.render ++ ": undefined enum type '" ++ name ++ "'"
  | codeTooWide place label code width => do
      let code ← Numeral.ofInt code
      return place.render ++ ": code " ++ code ++ " of '" ++ label ++
        s!"' does not fit in {width} bits"
  | unknownDefault place label enumName =>
      return place.render ++ ": default '" ++ label ++ "' is not a variant of '" ++ enumName ++ "'"
  | badLength place field =>
      return place.render ++ ": length field '" ++ field ++ "' must be an integer field " ++
        "declared before the array"
  | badDiscriminant place field enumName =>
      return place.render ++ ": discriminant '" ++ field ++ "' must be a '" ++ enumName ++
        "' field declared before the match"
  | unknownCase place label enumName =>
      return place.render ++ ": unknown variant '" ++ label ++ "' of enum '" ++ enumName ++ "'"
  | missingCases place labels =>
      return place.render ++ ": missing match cases " ++ (", " : Text).intercalate labels
  | recursion cycle =>
      return "Recursive struct definition detected: " ++ (" -> " : Text).intercalate cycle

end Inconsistency

namespace Consistency

/-- The entries of an enum that repeat a label or a code of `before`, those before them. -/
def ofEntries (enumName : Text) (before : List (Text × Int)) :
    List (Text × Int) → List Inconsistency
  | [] => []
  | (label, code) :: entries =>
      (if label ∈ before.map (·.1) then [.duplicateLabel enumName label] else []) ++
        (if code ∈ before.map (·.2) then [.duplicateCode enumName code] else []) ++
        ofEntries enumName ((label, code) :: before) entries

def ofEnum (e : EnumDef) : List Inconsistency :=
  ofEntries e.name [] e.entries ++ if e.entries.isEmpty then [.noLabels e.name] else []

/-- The fields before a field, the last of a repeated name only. -/
abbrev Earlier := List (Text × FieldType)

/-- Whether an integer field of this name comes before. -/
def isInteger (earlier : Earlier) (field : Text) : Bool :=
  match Fields.get? earlier field with
  | some (.int ..) => true
  | _ => false

/-- Whether a field of this name and this enum comes before. -/
def isEnum (earlier : Earlier) (field enumName : Text) : Bool :=
  match Fields.get? earlier field with
  | some (.enum name ..) => name == enumName
  | _ => false

section

variable (schema : Schema) (earlier : Earlier)

mutual

/-- What is wrong with a type at a place. -/
def ofType : FieldType → Place → List Inconsistency
  | .int .., _ => []
  | .float .., _ => []
  | .text .., _ => []
  | .struct name, place =>
      if (schema.struct? name).isSome then [] else [.undefinedStruct place name]
  | .enum name signed width default?, place =>
      match schema.enum? name with
      | none => [.undefinedEnum place name]
      | some e =>
          (e.entries.filter fun (_, code) => !Bits.fits signed width.bits code).map
              (fun (label, code) => .codeTooWide place label code width.bits) ++
            match default? with
            | some label =>
                if (e.codeOf? label).isSome then [] else [.unknownDefault place label name]
            | none => []
  | .array element length, place =>
      (match length with
        | .dynamic field => if isInteger earlier field then [] else [.badLength place field]
        | .static _ => []) ++
        ofType element place.element
  | .union discriminant enumName cases, place =>
      match schema.enum? enumName with
      | none => [.undefinedEnum place enumName]
      | some e =>
          let missing := e.labels.filter fun label => (cases.lookup label).isNone
          (if isEnum earlier discriminant enumName then []
            else [.badDiscriminant place discriminant enumName]) ++
            ofCases e cases place ++
            if missing.isEmpty then [] else [.missingCases place missing]

/-- What is wrong with the cases of a union over an enum. -/
def ofCases (e : EnumDef) : List (Text × FieldType) → Place → List Inconsistency
  | [], _ => []
  | (label, t) :: cases, place =>
      (if label ∈ e.labels then [] else [.unknownCase place label e.name]) ++
        ofType t (place.case label) ++ ofCases e cases place

end

end

/-- What is wrong with the fields of a struct, in order. -/
def ofFields (schema : Schema) (structName : Text) :
    List (Text × FieldType) → Earlier → List Inconsistency
  | [], _ => []
  | (name, t) :: fields, earlier =>
      let place : Place := ⟨structName, name, []⟩
      (if (Fields.get? earlier name).isSome then [.duplicateField place] else []) ++
        ofType schema earlier t place ++
        ofFields schema structName fields (Fields.put earlier name t)

end Consistency

namespace Schema

/-- All inconsistencies of a schema: of its enums, of its structs, and the cycles among them. -/
def inconsistencies (schema : Schema) : List Inconsistency :=
  schema.enums.flatMap Consistency.ofEnum ++
    (schema.structs.flatMap fun s => Consistency.ofFields schema s.name s.fields []) ++
    (Recursion.cycles schema).map .recursion

end Schema

end WireSchema
