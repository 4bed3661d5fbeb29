import WireSchema.Schema.Coerce

/-!
# Schema — Readings

How the scalars of a payload are read, and its text as JSON, is up to the library that checks
payloads. All that reads a payload takes it as a `Reading`, and knows no more of it than what it
makes of a value. `Reading.lax` reads loosely.
-/

namespace WireSchema

/-- A way to read the scalars and the text of a payload. -/
structure Reading where
  integer : Value → Except ProblemKind Int
  bool : Value → Except ProblemKind Bool
  float : PayloadSource → Value → Except ProblemKind Binary64
  text : Value → Except ProblemKind Text
  /-- What a text says as JSON, with all members of a name that repeats. -/
  document : Text → Except ProblemKind Value

namespace Reading

/-- What is refused in JSON text although it is JSON, besides what is nested too deeply. -/
def textRules : Json.Rules := { digits? := some ⟨Numeral.mostDigits, true⟩ }

/-- Scalars may be spelled loosely; lists and maps that are not empty lie inside one another only so
deep. A text with a surrogate in it is no JSON. -/
def lax (nesting? : Option Nat := some 200) : Reading where
  integer := Coerce.integer
  bool := Coerce.bool
  float := Coerce.float
  text := Coerce.text
  document text :=
    match text.string? with
    | none => .error .stringUnicode
    | some s => (Json.read s { textRules with nesting? }).mapError fun _ => .jsonInvalid

end Reading

end WireSchema
