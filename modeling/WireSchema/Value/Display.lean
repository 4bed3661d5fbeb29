import WireSchema.Number.Numeral
import WireSchema.Text.Quoted
import WireSchema.Value

/-!
# Values — Display

How a message shows a value: a text as it is, all else in one line, with texts quoted where they
stand inside a list or a map. A value that holds an integer without a numeral is not shown.
-/

namespace WireSchema

namespace Value

/-- How a displayed value writes what is no finite number. -/
def floatStyle : FloatStyle := ⟨"inf", "nan"⟩

mutual

/-- A value as it stands inside a list or a map. -/
def nested : Value → Except Numeral.TooLong Text
  | null => return "None"
  | bool b => return if b then "True" else "False"
  | int i => Numeral.ofInt i
  | float x => return floatStyle.render x
  | text t => return Quoted.quoted t
  | list items => return "[" ++ (← nestedItems "" items) ++ "]"
  | map members => return "\x7b" ++ (← nestedMembers "" members) ++ "\x7d"

/-- Items with commas between them; `before` separates the first from what precedes it. -/
def nestedItems (before : Text) : List Value → Except Numeral.TooLong Text
  | [] => return ""
  | v :: items => return before ++ (← nested v) ++ (← nestedItems ", " items)

/-- Members with commas between them. -/
def nestedMembers (before : Text) : Fields → Except Numeral.TooLong Text
  | [] => return ""
  | (name, v) :: members =>
      return before ++ Quoted.quoted name ++ ": " ++ (← nested v) ++
        (← nestedMembers ", " members)

end

/-- A value as a message shows it. -/
def display : Value → Except Numeral.TooLong Text
  | text t => return t
  | v => nested v

end Value

end WireSchema
