import WireSchema.Number.Numeral
import WireSchema.Text.Hex
import WireSchema.Value

/-!
# JSON — Printer

Values as JSON on one line: a blank behind every comma and colon, code points beyond ASCII as they
are, surrogates among them, and only those escaped that a string cannot hold. The words `NaN`,
`Infinity` and `-Infinity` stand for the doubles that JSON itself has no number for. A value that
holds an integer without a numeral has no text.
-/

namespace WireSchema

namespace Json

/-- How JSON writes what is no finite number. -/
def floatStyle : FloatStyle := ⟨"Infinity", "NaN"⟩

/-- A character within a string. -/
def escape (c : Char) : List Char :=
  if c = '"' ∨ c = '\\' then ['\\', c]
  else if c = '\n' then ['\\', 'n']
  else if c = '\r' then ['\\', 'r']
  else if c = '\t' then ['\\', 't']
  else if c.toNat = 8 then ['\\', 'b']
  else if c.toNat = 12 then ['\\', 'f']
  else if c.toNat < 0x20 then '\\' :: 'u' :: Hex.digits 4 c.toNat
  else [c]

/-- A code point within a string. -/
def escapePoint (p : CodePoint) : Text :=
  match p.toChar? with
  | some c => Text.ofChars (escape c)
  | none => [p]

/-- A string with its quotes. -/
def quoted (t : Text) : Text := "\"" ++ t.flatMap escapePoint ++ "\""

mutual

/-- The text of a value. -/
def render : Value → Text
  | .null => "null"
  | .bool true => "true"
  | .bool false => "false"
  | .int i => toString i
  | .float x => floatStyle.render x
  | .text t => quoted t
  | .list [] => "[]"
  | .list (v :: items) => "[" ++ render v ++ renderItems items
  | .map [] => "\x7b\x7d"
  | .map ((name, v) :: members) =>
      "\x7b" ++ quoted name ++ ": " ++ render v ++ renderMembers members

/-- The text of the further items of a list, up to its end. -/
def renderItems : List Value → Text
  | [] => "]"
  | v :: items => ", " ++ render v ++ renderItems items

/-- The text of the further members of a map, up to its end. -/
def renderMembers : Fields → Text
  | [] => "\x7d"
  | (name, v) :: members => ", " ++ quoted name ++ ": " ++ render v ++ renderMembers members

end

/-- A value as JSON text, if all its integers have numerals. -/
def print (v : Value) : Except Numeral.TooLong Text :=
  match v.integers.find? fun i => !decide (Numeral.Short i) with
  | some i => .error ⟨i⟩
  | none => .ok (render v)

end Json

end WireSchema
