import WireSchema.Codec.Size
import WireSchema.Consistency.Basic

/-!
# Command line — Reports

The texts that the command line prints about a schema: the sizes of its structs, in a table with
a row for each field, and its inconsistencies.
-/

namespace WireSchema

namespace CommandLine

/-- Lines, and the failure after which no more followed. -/
structure Lines where
  lines : List Text
  failure? : Option Failure := none

namespace Lines

/-- Lines behind others; nothing follows a failure. -/
def append (a : Lines) (b : Unit → Lines) : Lines :=
  match a.failure? with
  | some _ => a
  | none => let b := b (); ⟨a.lines ++ b.lines, b.failure?⟩

/-- Lines that can be worked out, or the failure to. -/
def ofOutcome (lines : Outcome (List Text)) : Lines :=
  match lines with
  | .ok lines => ⟨lines, none⟩
  | .error e => ⟨[], some e⟩

end Lines

namespace Report

/-- A text filled up with blanks on the right. -/
def left (width : Nat) (t : Text) : Text :=
  t ++ .ofChars (List.replicate (width - t.length) ' ')

/-- A text filled up with blanks on the left. -/
def right (width : Nat) (t : Text) : Text :=
  .ofChars (List.replicate (width - t.length) ' ') ++ t

/-- The text of a size. To be told from infinity, it has to be within the range of doubles. -/
def extent : Extent → Outcome Text
  | .finite bits => if bits < Extent.doubleLimit then .ok (toString bits) else .error .overflow
  | .infinite => .ok "inf"

/-- A row of the table. -/
def row (width : Nat) (name min default max : Text) : Text :=
  "  " ++ left width name ++ "  " ++ right 8 min ++ "  " ++ right 8 default ++ "  " ++ right 8 max

/-- The rows of a struct's fields and their head. -/
def fieldRows (schema : Schema) (name : Text) (width : Nat) (s : StructDef) :
    Outcome (List Text) := do
  let min ← schema.fieldSizes name .min
  let default ← schema.fieldSizes name .default
  let max ← schema.fieldSizes name .max
  let cell (sizes : List (Text × Extent)) (field : Text) : Outcome Text :=
    extent ((Fields.get? sizes field).getD (.finite 0))
  let rows ← s.fieldNames.mapM fun field => do
    return row width field (← cell min field) (← cell default field) (← cell max field)
  return row width "field" "min" "default" "max" :: rows

/-- The row of a struct as a whole. -/
def totalRow (schema : Schema) (name : Text) (width : Nat) : Outcome (List Text) := do
  let min ← schema.sizeOf (.struct name) .min
  let default ← schema.sizeOf (.struct name) .default
  let max ← schema.sizeOf (.struct name) .max
  return [row width "total" (← extent min) (← extent default) (← extent max), ""]

/-- The sizes of a struct and its fields. -/
def structSizes (schema : Schema) (name : Text) : Lines :=
  let rule := Text.ofChars (List.replicate 19 '=')
  let heading : Lines := ⟨[rule ++ " " ++ name ++ " " ++ rule], none⟩
  heading.append fun _ =>
    match schema.struct? name with
    | none => ⟨[], some (.fault (.unknownStruct name) none)⟩
    | some s =>
        let width := (s.fieldNames.map (·.length)).foldl Nat.max 5
        (Lines.ofOutcome (fieldRows schema name width s)).append fun _ =>
          Lines.ofOutcome (totalRow schema name width)

/-- The sizes of every struct, or of one. -/
def sizes (schema : Schema) (root? : Option Text) : Lines :=
  let names : List Text :=
    match root? with
    | some root => [root]
    | none => schema.structs.map (·.name)
  let bar := Text.ofChars (List.replicate 7 '|')
  let plural := if names.length = 1 then "" else "s"
  let opening : Lines :=
    ⟨[bar ++ " bitexpr: bit-packed schema codec " ++ bar,
      s!"{names.length} struct{plural} loaded.",
      "Field sizes are in bits unless otherwise noted.", ""], none⟩
  names.foldl (fun lines name => lines.append fun _ => structSizes schema name) opening

/-- The inconsistencies of a schema, or that there are none. -/
def problems (found : List Inconsistency) : Except Numeral.TooLong (List Text) :=
  if found.isEmpty then .ok ["Schema is consistent."]
  else found.mapM fun problem => return "  - " ++ (← problem.message)

end Report

end CommandLine

end WireSchema
