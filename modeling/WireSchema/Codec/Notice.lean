import WireSchema.Codec.Path
import WireSchema.Number.Numeral

/-!
# Codec — Notices

What a codec call reports on the side.
-/

namespace WireSchema

/-- How much a notice matters. -/
inductive Level
  | debug
  | warning
  deriving DecidableEq, Repr

def Level.name : Level → String
  | debug => "DEBUG"
  | warning => "WARNING"

/-- A report on the side. -/
inductive Notice
  | loaded (structs enums : Nat)
  | encoded (root : Text) (bits : Nat)
  | dropped (path : Path) (count length : Nat)
  | arrayCut (path : Path) (count length : Nat)
  | dataCut (root : Text) (bits : Nat)
  | trailingBytes (read size : Nat)
  deriving DecidableEq, Repr

namespace Notice

def level : Notice → Level
  | dropped .. | trailingBytes .. => .warning
  | loaded .. | encoded .. | arrayCut .. | dataCut .. => .debug

/-- The name of the part of the program that reports. -/
def source : Notice → String
  | loaded .. => "bitexpr.codec.schema"
  | encoded .. | dropped .. => "bitexpr.codec.encoder"
  | arrayCut .. | dataCut .. | trailingBytes .. => "bitexpr.codec.decoder"

/-- The line of a notice. The length of an array that is cut need not have a numeral; all other
numbers count what there is. -/
def message : Notice → Except Numeral.TooLong Text
  | loaded structs enums => return s!"Loaded schema with {structs} structs, {enums} enums"
  | encoded root bits => return "Encoded " ++ root ++ s!" into {bits} bits"
  | dropped path count length =>
      return path.render ++ s!": dropping {count} array elements beyond length {length}"
  | arrayCut path count length => do
      let length ← Numeral.ofInt length
      return path.render ++ s!": array truncated after {count} of " ++ length ++ " elements"
  | dataCut root bits => return "Data for " ++ root ++ s!" truncated after {bits} bits"
  | trailingBytes read size =>
      return s!"Buffer length mismatch: read {read} bytes but buffer has {size} bytes"

end Notice

end WireSchema
