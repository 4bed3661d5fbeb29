import WireSchema.Number.Decimal
import WireSchema.Text.CodePoint

/-!
# Number — Numerals

Integers in decimal digits, as messages and JSON texts have them. There are only so many digits to a
numeral; an integer that needs more has none, and what was to show it fails.
-/

namespace WireSchema

namespace Numeral

/-- The most digits of a numeral, its sign not counted. -/
def mostDigits : Nat := 4300

/-- An integer of no more digits than a numeral has. -/
def Short (i : Int) : Prop := Decimal.length i.natAbs ≤ mostDigits

instance (i : Int) : Decidable (Short i) := Nat.decLe _ _

/-- An integer that has no numeral. -/
structure TooLong where
  integer : Int
  deriving DecidableEq, Repr

def TooLong.message (_ : TooLong) : Text :=
  "Exceeds the limit (4300 digits) for integer string conversion; " ++
    "use sys.set_int_max_str_digits() to increase the limit"

/-- The numeral of an integer. -/
def ofInt (i : Int) : Except TooLong Text :=
  if Short i then .ok (toString i) else .error ⟨i⟩

/-- A message; where it fails for a numeral, the message that says so. -/
def message : Except TooLong Text → Text
  | .ok text => text
  | .error e => e.message

end Numeral

end WireSchema
