import WireSchema.Bits.Write

/-!
# Bits — Cursor

A position in the bits of a byte string. A read that needs more bits than are left yields nothing
and leaves the cursor where it is, but for a text: one whose ending byte is missing takes the
cursor to the end.
-/

namespace WireSchema

/-- A bit position in a byte string. -/
structure Cursor where
  data : Array UInt8
  position : Nat
  position_le : position ≤ 8 * data.size

namespace Cursor

/-- The start of a byte string. -/
def ofBytes (data : Array UInt8) : Cursor := ⟨data, 0, Nat.zero_le _⟩

/-- The number of bits not yet read. -/
def remaining (c : Cursor) : Nat := 8 * c.data.size - c.position

def atEnd (c : Cursor) : Bool := decide (8 * c.data.size ≤ c.position)

/-- The cursor behind the last bit. -/
def toEnd (c : Cursor) : Cursor := ⟨c.data, 8 * c.data.size, Nat.le_refl _⟩

/-- The bits not yet read. -/
def rest (c : Cursor) : Bits := (Bits.ofBytes c.data.toList).drop c.position

/-- The bit at a position, false beyond the end. -/
def bitAt (data : Array UInt8) (i : Nat) : Bool :=
  (data.getD (i / 8) 0).toNat.testBit (7 - i % 8)

/-- The `w` bits from a position on. -/
def bitsAt (data : Array UInt8) : (w position : Nat) → Bits
  | 0, _ => []
  | w + 1, i => bitAt data i :: bitsAt data w (i + 1)

/-- Takes the next `w` bits, if so many are left. -/
def take? (c : Cursor) (w : Nat) : Option (Bits × Cursor) :=
  if h : c.position + w ≤ 8 * c.data.size then
    some (bitsAt c.data w c.position, ⟨c.data, c.position + w, h⟩)
  else none

/-- Takes the next `n` bytes from a cursor that has so many left. -/
def bytesAt (data : Array UInt8) : (n position : Nat) → List UInt8
  | 0, _ => []
  | n + 1, i => UInt8.ofNat (bitsAt data 8 i).toNat :: bytesAt data n (i + 8)

/-- Takes the next `n` bytes, if so many are left. -/
def bytes? (c : Cursor) (n : Nat) : Option (List UInt8 × Cursor) :=
  if h : c.position + 8 * n ≤ 8 * c.data.size then
    some (bytesAt c.data n c.position, ⟨c.data, c.position + 8 * n, h⟩)
  else none

/-- Takes a single-precision number. -/
def float32? (c : Cursor) : Option (Binary64 × Cursor) :=
  (c.bytes? 4).map fun (bytes, c) => (Binary64.widen (Binary.ofNat _ (ofLittleEndian bytes)), c)

/-- Takes a double-precision number. -/
def float64? (c : Cursor) : Option (Binary64 × Cursor) :=
  (c.bytes? 8).map fun (bytes, c) => (Binary.ofNat _ (ofLittleEndian bytes), c)

/-- Takes bytes up to a zero byte, which is taken too but not returned; `fuel` bounds their
number. -/
def zeroTerminated? (c : Cursor) : (fuel : Nat) → Option (List UInt8 × Cursor)
  | 0 => none
  | fuel + 1 =>
      match c.take? 8 with
      | none => none
      | some (bs, c) =>
          let b := UInt8.ofNat bs.toNat
          if b = 0 then some ([], c)
          else (c.zeroTerminated? fuel).map fun (bytes, c) => (b :: bytes, c)

/-- Takes a text with the zero byte that ends it. The bytes left bound the search. -/
def text? (c : Cursor) (charset : Charset) : Option (List Char × Cursor) :=
  (c.zeroTerminated? (c.remaining / 8)).map fun (bytes, c) => (charset.decode bytes, c)

end Cursor

/-- One read. -/
inductive Read
  /-- An unsigned integer of at most 32 bits. -/
  | bits (width : Int)
  /-- An unsigned integer of at most 64 bits. -/
  | bits64 (width : Int)
  /-- An integer of at most 64 bits in two's complement. -/
  | int (width : Int)
  | bytes (count : Int)
  | float32
  | float64
  | text (charset : Charset)
  deriving DecidableEq, Repr

namespace Read

/-- What a read yields. -/
inductive Result
  | int (value : Int)
  | float (x : Binary64)
  | bytes (data : List UInt8)
  | text (chars : List Char)

end Read

namespace Cursor

/-- Carries out a read: what it yields, if the bits suffice, and the cursor after it. A negative
count of bytes is none. -/
def read (c : Cursor) : Read → Except WidthError (Option Read.Result × Cursor)
  | .bits w => do
      let w ← WidthError.check w narrowLimit
      return step (c.take? w) fun bs => .int bs.toNat
  | .bits64 w => do
      let w ← WidthError.check w wideLimit
      return step (c.take? w) fun bs => .int bs.toNat
  | .int w => do
      let w ← WidthError.check w wideLimit
      return step (c.take? w) fun bs => .int bs.toInt
  | .bytes n => .ok (step (c.bytes? n.toNat) .bytes)
  | .float32 => .ok (step c.float32? .float)
  | .float64 => .ok (step c.float64? .float)
  | .text charset =>
      match c.text? charset with
      | some (chars, c) => .ok (some (.text chars), c)
      | none => .ok (none, c.toEnd)
where
  /-- Yields nothing and stays put when nothing was taken. -/
  step {α : Type} (taken : Option (α × Cursor)) (result : α → Read.Result) :
      Option Read.Result × Cursor :=
    match taken with
    | some (a, c) => (some (result a), c)
    | none => (none, c)

end Cursor

end WireSchema
