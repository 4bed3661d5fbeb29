/-!
# Bits

Bit strings, most significant bit first. A message is a bit string; numbers and bytes are two views
of one. `ofNat w n` holds the low `w` bits of `n`, `toNat` reads a bit string as a number, and
`ofBytes` strings the bits of bytes together.
-/

namespace WireSchema

/-- A bit string, first bit first. -/
abbrev Bits := List Bool

namespace Bits

/-- The low `w` bits of `n`. -/
def ofNat : (w n : Nat) → Bits
  | 0, _ => []
  | w + 1, n => n.testBit w :: ofNat w n

/-- The low `w` bits of `v` in two's complement. -/
def ofInt (w : Nat) (v : Int) : Bits :=
  ofNat w (v % Nat.pow 2 w).toNat

/-- The number a bit string spells. -/
def toNat (bs : Bits) : Nat :=
  bs.foldl (fun n b => 2 * n + b.toNat) 0

/-- The number a bit string spells in two's complement: what its value leaves modulo
`2 ^ bs.length`, taken from `-2 ^ (bs.length - 1)` up, and `0` for the empty string. -/
def toInt (bs : Bits) : Int :=
  Int.bmod bs.toNat (Nat.pow 2 bs.length)

/-- Whether `v` can be written in `w` bits and read back, as `toInt` or as `toNat`. -/
def fits (signed : Bool) (w : Nat) (v : Int) : Bool :=
  if signed then decide (-(Nat.pow 2 (w - 1) : Int) ≤ v) && decide (v < Nat.pow 2 (w - 1))
  else decide (0 ≤ v) && decide (v < Nat.pow 2 w)

/-- The eight bits of a byte. -/
def ofByte (b : UInt8) : Bits := ofNat 8 b.toNat

/-- The bits of a sequence of bytes. -/
def ofBytes (bytes : List UInt8) : Bits := bytes.flatMap ofByte

/-- `bs` with zeros after it, up to a whole number of bytes. -/
def padded (bs : Bits) : Bits :=
  bs ++ List.replicate ((8 - bs.length % 8) % 8) false

@[simp] theorem length_ofNat (w n : Nat) : (ofNat w n).length = w := by
  induction w with
  | zero => rfl
  | succ w ih => simp [ofNat, ih]

@[simp] theorem length_ofInt (w : Nat) (v : Int) : (ofInt w v).length = w := by
  simp [ofInt]

@[simp] theorem length_ofByte (b : UInt8) : (ofByte b).length = 8 := by
  simp [ofByte]

/-- No bytes have no bits. -/
@[simp] theorem ofBytes_nil : ofBytes [] = [] := rfl

@[simp] theorem ofBytes_cons (b : UInt8) (bytes : List UInt8) :
    ofBytes (b :: bytes) = ofByte b ++ ofBytes bytes := rfl

@[simp] theorem ofBytes_append (xs ys : List UInt8) :
    ofBytes (xs ++ ys) = ofBytes xs ++ ofBytes ys := by
  simp [ofBytes]

/-- Every byte has eight bits. -/
theorem length_ofBytes (bytes : List UInt8) : (ofBytes bytes).length = 8 * bytes.length := by
  induction bytes with
  | nil => rfl
  | cons b bytes ih =>
      rw [ofBytes_cons, List.length_append, length_ofByte, List.length_cons, ih]
      omega

end Bits

end WireSchema
