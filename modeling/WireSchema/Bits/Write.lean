import WireSchema.Bits
import WireSchema.Number.Numeral
import WireSchema.Text.Charset

/-!
# Bits — Writes

What can be written to a bit string, and the bits that each write stands for. A write is refused
only for a width out of range; a value is never refused, its low bits are taken.
-/

namespace WireSchema

/-- A bit width outside `0 ..= limit`. -/
structure WidthError where
  width : Int
  limit : Nat
  deriving DecidableEq, Repr

namespace WidthError

def message (e : WidthError) : Text :=
  Numeral.message do
    let width ← Numeral.ofInt e.width
    return "Invalid bit width " ++ width ++ s!", must be 0..{e.limit}"

/-- The width as a natural number, if it is within the limit. -/
def check (width : Int) (limit : Nat) : Except WidthError Nat :=
  if 0 ≤ width ∧ width ≤ limit then .ok width.toNat else .error ⟨width, limit⟩

end WidthError

/-- The limit of a narrow integer access. -/
def narrowLimit : Nat := 32

/-- The limit of a wide integer access. -/
def wideLimit : Nat := 64

/-- The bytes of a number, least significant first. -/
def littleEndian : (count n : Nat) → List UInt8
  | 0, _ => []
  | count + 1, n => UInt8.ofNat n :: littleEndian count (n / 256)

/-- The number that bytes spell, least significant first. -/
def ofLittleEndian : List UInt8 → Nat
  | [] => 0
  | b :: bytes => b.toNat + 256 * ofLittleEndian bytes

/-- One write. -/
inductive Write
  /-- The low bits of an integer, at most 32. -/
  | bits (value width : Int)
  /-- The low bits of an integer, at most 64. -/
  | bits64 (value width : Int)
  | bytes (data : List UInt8)
  /-- The nearest single-precision number. -/
  | float32 (x : Binary64)
  | float64 (x : Binary64)
  /-- A text with the zero byte that ends it. -/
  | text (charset : Charset) (points : Text)

namespace Write

/-- The bytes of a single-precision field. -/
def float32Bytes (x : Binary64) : List UInt8 := littleEndian 4 x.narrow.pattern

/-- The bytes of a double-precision field. -/
def float64Bytes (x : Binary64) : List UInt8 := littleEndian 8 x.pattern

/-- The bytes of a string field. -/
def textBytes (charset : Charset) (points : Text) : List UInt8 :=
  charset.encode points ++ [0]

/-- The bits of a write. Floats lie in little-endian order, byte by byte. -/
def toBits : Write → Except WidthError Bits
  | bits v w => (Bits.ofInt · v) <$> WidthError.check w narrowLimit
  | bits64 v w => (Bits.ofInt · v) <$> WidthError.check w wideLimit
  | bytes data => .ok (Bits.ofBytes data)
  | float32 x => .ok (Bits.ofBytes (float32Bytes x))
  | float64 x => .ok (Bits.ofBytes (float64Bytes x))
  | text charset points => .ok (Bits.ofBytes (textBytes charset points))

end Write

end WireSchema
