import WireSchema.Consistency.Basic
import WireSchema.Schema.Payload

/-!
# Schema — Loading

A schema from a payload, be it a tree or JSON text, and on demand only from one that is consistent.
-/

namespace WireSchema

/-- Why a payload is not loaded. -/
inductive LoadError
  | payload (e : PayloadError)
  | inconsistent (problems : List Inconsistency)

namespace LoadError

/-- What the error says; there is no message if a problem cannot be worded. -/
def message : LoadError → Except Numeral.TooLong Text
  | payload e => return e.message
  | inconsistent problems =>
      return "Inconsistent schema:\n  " ++
        ("\n  " : Text).intercalate (← problems.mapM (·.message))

/-- The lines that a report on a malformed payload lists. -/
def report : LoadError → Option (List Text)
  | payload e => e.report
  | inconsistent _ => none

end LoadError

namespace Schema

/-- The schema itself, unless it is inconsistent. -/
def checked (schema : Schema) : Except LoadError Schema :=
  match schema.inconsistencies with
  | [] => .ok schema
  | problems => .error (.inconsistent problems)

/-- The schema of a payload; a text is read as JSON. With `check`, an inconsistent one is
refused. -/
def load (payload : Value) (check : Bool := false) (reading : Reading := .lax) :
    Except LoadError Schema :=
  let loaded :=
    match payload with
    | .text text => ofText reading text
    | payload => ofPayload reading .tree payload
  match loaded with
  | .error e => .error (.payload e)
  | .ok schema => if check then schema.checked else .ok schema

end Schema

end WireSchema
