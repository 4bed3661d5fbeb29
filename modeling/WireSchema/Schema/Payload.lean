import WireSchema.Json.Printer
import WireSchema.Schema.Basic
import WireSchema.Schema.Reading

/-!
# Schema — Payloads

A schema as a value tree: a list of declarations, each a map with a tag. `toPayload` writes every
declaration in one form; `ofPayload` reads that form and its looser spellings, and reports all
that it cannot read.

A payload is read from the leaves up: for every member of a map it is worked out once what the
member says as a type and, if it is a map, what its members say as the cases of a union.

A name may repeat in a map that comes from a text. The last member of that name is then the one
that counts, in the place of the first. Of the cases of a union all are read even so.
-/

namespace WireSchema

/-! ### Writing -/

/-- A member that is left out when there is nothing to say. -/
def optionalMember {α : Type} (name : Text) (toValue : α → Value) (a? : Option α) : Fields :=
  match a? with
  | some a => [(name, toValue a)]
  | none => []

namespace ArrayLength

def toPayload : ArrayLength → Value
  | static count => .map [("kind", .text "Static"), ("value", .int count)]
  | dynamic field => .map [("kind", .text "Dynamic"), ("field", .text field)]

end ArrayLength

namespace FieldType

/-- The tag of a type in payloads. -/
def kind : FieldType → String
  | int .. => "Int"
  | float width _ => width.kind
  | text charset _ => charset.kind
  | enum .. => "Enum"
  | struct _ => "Struct"
  | array .. => "Array"
  | union .. => "Match"

mutual

/-- The members of a type's payload behind its tag. -/
def payloadMembers : FieldType → Fields
  | int signed width default? =>
      ("signed", .bool signed) :: ("width", .int width.bits) ::
        optionalMember "default" .int default?
  | float _ default? => optionalMember "default" .float default?
  | text _ default? => optionalMember "default" .text default?
  | enum name signed width default? =>
      ("name", .text name) :: ("signed", .bool signed) :: ("width", .int width.bits) ::
        optionalMember "default" .text default?
  | struct name => [("name", .text name)]
  | array element length =>
      [("elementType", .map (("kind", .text element.kind) :: payloadMembers element)),
        ("length", length.toPayload)]
  | union discriminant enumName cases =>
      [("discriminant", .text discriminant), ("enumTypeName", .text enumName),
        ("cases", .map (payloadCases cases))]

/-- The cases of a union, each with its payload. -/
def payloadCases : List (Text × FieldType) → Fields
  | [] => []
  | (label, t) :: cases =>
      (label, .map (("kind", .text t.kind) :: payloadMembers t)) :: payloadCases cases

end

/-- The payload of a type. -/
def toPayload (t : FieldType) : Value := .map (("kind", .text t.kind) :: t.payloadMembers)

end FieldType

namespace Definition

/-- The payload of a declaration. -/
def toPayload : Definition → Value
  | struct s =>
      .map [("type", .text "Struct"), ("name", .text s.name),
        ("fields", .list (s.fields.map fun (name, t) => .list [.text name, t.toPayload]))]
  | enum e =>
      .map [("type", .text "Enum"), ("name", .text e.name),
        ("entries", .list (e.entries.map fun (label, code) => .list [.text label, .int code]))]

end Definition

namespace Schema

/-- The payload of a schema. -/
def toPayload (schema : Schema) : Value := .list (schema.definitions.map (·.toPayload))

/-- The payload of a schema as JSON text. -/
def toJson (schema : Schema) : Except Numeral.TooLong Text := Json.print schema.toPayload

end Schema

/-! ### Reading -/

namespace Payload

/-- A member of a map: its value, what it says as a type, and what its own members say so. -/
structure Member where
  value : Value
  asType : Checked FieldType
  asCases : List (Text × Checked FieldType)

abbrev Members := List (Text × Member)

/-- The members of a map that has no types inside. -/
def plainMembers (members : Fields) : Members :=
  (Fields.ofPairs members).map fun (name, v) => (name, ⟨v, .fail .missing, []⟩)

/-- The value of a member, if there is one of this name. -/
def valueOf? (ms : Members) (name : Text) : Option Value :=
  (Fields.get? ms name).map Member.value

/-- The member of the first of these names that is there, with that name. -/
def find? (ms : Members) (names : List Text) : Option (Text × Member) :=
  names.findSome? fun name => (Fields.get? ms name).map (name, ·)

/-- A member that must be there under one of these names. -/
def required {α : Type} (ms : Members) (names : List Text) (read : Member → Checked α) :
    Checked α :=
  match find? ms names with
  | some (name, m) => (read m).under name
  | none => (Checked.fail .missing).under (names.headD "")

/-- A member that need not be there. -/
def optional {α : Type} (ms : Members) (name : Text) (default : α)
    (read : Member → Checked α) : Checked α :=
  match Fields.get? ms name with
  | some m => (read m).under name
  | none => .ok default

/-- A member that may be null or absent. -/
def nullable {α : Type} (ms : Members) (name : Text) (read : Member → Checked α) :
    Checked (Option α) :=
  optional ms name none fun m => if m.value.isNull then .ok none else some <$> read m

/-- Every member is one of those with these names, of each group the first that is there. -/
def nothingElse (ms : Members) (groups : List (List Text)) : Checked Unit :=
  let known := groups.filterMap fun names => (find? ms names).map (·.1)
  match ms.filter fun (name, _) => !known.contains name with
  | [] => .ok ()
  | others => .bad (others.map fun (name, _) => ⟨[name], .extraForbidden⟩)

/-- What the members of a map say whose tag, under this name, says how they are read. -/
def tagged {α : Type} (name : Text) (readers : List (Text × (Members → Checked α)))
    (ms : Members) : Checked α :=
  match valueOf? ms name with
  | none => .fail .unionTagNotFound
  | some (.text tag) =>
      match readers.lookup tag with
      | some read => (read ms).under tag
      | none => .fail .unionTagInvalid
  | some _ => .fail .unionTagInvalid

section

variable (reading : Reading) (source : PayloadSource)

def readInteger (m : Member) : Checked Int := .ofExcept (reading.integer m.value)

def readBool (m : Member) : Checked Bool := .ofExcept (reading.bool m.value)

def readFloat (m : Member) : Checked Binary64 := .ofExcept (reading.float source m.value)

def readText (m : Member) : Checked Text := .ofExcept (reading.text m.value)

/-- A bit width is an integer from 1 to 64. -/
def checkWidth (i : Int) : Checked BitWidth :=
  if low : i < 1 then .fail .greaterThanEqual
  else if high : 64 < i then .fail .lessThanEqual
  else .ok ⟨i.toNat, by omega, by omega⟩

def readWidth (m : Member) : Checked BitWidth :=
  match reading.integer m.value with
  | .ok i => checkWidth i
  | .error kind => .fail kind

/-- A count is an integer that is not negative. -/
def readCount (m : Member) : Checked Nat :=
  match reading.integer m.value with
  | .ok i => if i < 0 then .fail .greaterThanEqual else .ok i.toNat
  | .error kind => .fail kind

/-- The members of an integer type. -/
def readInt (ms : Members) : Checked FieldType :=
  (fun signed width default? _ => .int signed width default?)
    <$> optional ms "signed" false (readBool reading)
    <*> required ms ["width"] (readWidth reading)
    <*> nullable ms "default" (readInteger reading)
    <*> nothingElse ms [["kind"], ["signed"], ["width"], ["default"]]

/-- The members of a float type. -/
def readFloatType (width : FloatWidth) (ms : Members) : Checked FieldType :=
  (fun default? _ => .float width default?)
    <$> nullable ms "default" (readFloat reading source)
    <*> nothingElse ms [["kind"], ["default"]]

/-- The members of a string type. -/
def readTextType (charset : Charset) (ms : Members) : Checked FieldType :=
  (fun default? _ => .text charset default?)
    <$> nullable ms "default" (readText reading)
    <*> nothingElse ms [["kind"], ["default"]]

/-- The members of an enum type. -/
def readEnumType (ms : Members) : Checked FieldType :=
  (fun name signed width default? _ => .enum name signed width default?)
    <$> required ms ["name"] (readText reading)
    <*> optional ms "signed" false (readBool reading)
    <*> required ms ["width"] (readWidth reading)
    <*> nullable ms "default" (readText reading)
    <*> nothingElse ms [["kind"], ["name"], ["signed"], ["width"], ["default"]]

/-- The members of a struct type. -/
def readStructType (ms : Members) : Checked FieldType :=
  (fun name _ => .struct name)
    <$> required ms ["name"] (readText reading)
    <*> nothingElse ms [["kind"], ["name"]]

def readStatic (ms : Members) : Checked ArrayLength :=
  (fun count _ => .static count)
    <$> required ms ["value"] (readCount reading)
    <*> nothingElse ms [["kind"], ["value"]]

def readDynamic (ms : Members) : Checked ArrayLength :=
  (fun field _ => .dynamic field)
    <$> required ms ["field"] (readText reading)
    <*> nothingElse ms [["kind"], ["field"]]

/-- The length of an array: a map with a tag of its own. -/
def readLength (m : Member) : Checked ArrayLength :=
  match m.value with
  | .map members =>
      tagged "kind" [("Static", readStatic reading), ("Dynamic", readDynamic reading)]
        (plainMembers members)
  | _ => .fail source.notAMap

/-- The cases of a union. -/
def readCases (m : Member) : Checked (List (Text × FieldType)) :=
  match m.value with
  | .map _ =>
      Fields.ofPairs <$>
        Checked.all (m.asCases.map fun (label, t) => (Prod.mk label <$> t).under label)
  | _ => .fail .dictType

/-- The members of an array type. -/
def readArray (ms : Members) : Checked FieldType :=
  (fun element length _ => .array element length)
    <$> required ms ["elementType", "element_type"] (·.asType)
    <*> required ms ["length"] (readLength reading source)
    <*> nothingElse ms [["kind"], ["elementType", "element_type"], ["length"]]

/-- The members of a union type. -/
def readUnion (ms : Members) : Checked FieldType :=
  (fun discriminant enumName cases _ => .union discriminant enumName cases)
    <$> required ms ["discriminant"] (readText reading)
    <*> required ms ["enumTypeName", "enum_type_name"] (readText reading)
    <*> required ms ["cases"] readCases
    <*> nothingElse ms
      [["kind"], ["discriminant"], ["enumTypeName", "enum_type_name"], ["cases"]]

/-- The kinds of types there are, each with the reader of its members. -/
def typeReaders : List (Text × (Members → Checked FieldType)) :=
  [("Int", readInt reading), ("f32", readFloatType reading source .f32),
    ("f64", readFloatType reading source .f64), ("CString", readTextType reading .utf8),
    ("HebrewString", readTextType reading .hebrew), ("Enum", readEnumType reading),
    ("Struct", readStructType reading), ("Array", readArray reading source),
    ("Match", readUnion reading)]

/-- A type from the members of its map. -/
def readTagged : Members → Checked FieldType := tagged "kind" (typeReaders reading source)

mutual

/-- What a value says, once its members are known. -/
def survey : Value → Member
  | .map members =>
      let ms := surveyMembers members
      ⟨.map members, readTagged reading source (Fields.ofPairs ms),
        ms.map fun (name, m) => (name, m.asType)⟩
  | v => ⟨v, .fail source.notAMap, []⟩

def surveyMembers : List (Text × Value) → Members
  | [] => []
  | (name, v) :: members => (name, survey v) :: surveyMembers members

end

/-- Reads a type. -/
def readType (v : Value) : Checked FieldType := (survey reading source v).asType

/-- The items of a list, each with its position as a place. -/
def readItems {α : Type} (read : Value → Checked α) (items : List Value) : Checked (List α) :=
  Checked.all ((items.zipIdx).map fun (v, i) => (read v).under (toString i))

/-- A list of exactly two items. -/
def readPair {α β : Type} (first : Value → Checked α) (second : Value → Checked β) :
    Value → Checked (α × β)
  | .list [] =>
      Prod.mk <$> (Checked.fail .missing).under "0" <*> (Checked.fail .missing).under "1"
  | .list [a] => Prod.mk <$> (first a).under "0" <*> (Checked.fail .missing).under "1"
  | .list [a, b] => Prod.mk <$> (first a).under "0" <*> (second b).under "1"
  | .list _ => .fail .tooLong
  | _ => .fail .tupleType

/-- A list of pairs. -/
def readPairs {α β : Type} (first : Value → Checked α) (second : Value → Checked β)
    (m : Member) : Checked (List (α × β)) :=
  match m.value with
  | .list items => readItems (readPair first second) items
  | _ => .fail .tupleType

def readStruct (ms : Members) : Checked Definition :=
  (fun name fields _ => .struct ⟨name, fields⟩)
    <$> required ms ["name"] (readText reading)
    <*> optional ms "fields" []
      (readPairs (.ofExcept <| reading.text ·) (readType reading source))
    <*> nothingElse ms [["type"], ["name"], ["fields"]]

def readEnum (ms : Members) : Checked Definition :=
  (fun name entries _ => .enum ⟨name, entries⟩)
    <$> required ms ["name"] (readText reading)
    <*> optional ms "entries" []
      (readPairs (.ofExcept <| reading.text ·) (.ofExcept <| reading.integer ·))
    <*> nothingElse ms [["type"], ["name"], ["entries"]]

/-- A declaration: a map with a tag. -/
def readDefinition : Value → Checked Definition
  | .map members =>
      tagged "type" [("Struct", readStruct reading source), ("Enum", readEnum reading)]
        (plainMembers members)
  | _ => .fail source.notAMap

/-- A payload: a list of declarations. -/
def readDefinitions : Value → Checked (List Definition)
  | .list items => readItems (readDefinition reading source) items
  | _ => .fail .listType

end

end Payload

/-- Why a payload is no schema. -/
inductive PayloadError
  | malformed (problems : List Problem)
  | duplicateName (name : Text)

namespace PayloadError

def message : PayloadError → Text
  | malformed _ => "Invalid schema payload"
  | duplicateName name => "Duplicate definition name '" ++ name ++ "'"

/-- The lines that a report on a malformed payload lists. -/
def report : PayloadError → Option (List Text)
  | malformed problems => some (Problem.report problems)
  | duplicateName _ => none

end PayloadError

namespace Schema

/-- The schema of a payload. -/
def ofPayload (reading : Reading) (source : PayloadSource) (payload : Value) :
    Except PayloadError Schema :=
  match Payload.readDefinitions reading source payload with
  | .bad problems => .error (.malformed problems)
  | .ok definitions => (ofDefinitions definitions).mapError .duplicateName

/-- The schema of a payload in JSON text. -/
def ofText (reading : Reading) (text : Text) : Except PayloadError Schema :=
  match reading.document text with
  | .error kind => .error (.malformed [⟨[], kind⟩])
  | .ok payload => ofPayload reading .text payload

end Schema

end WireSchema
