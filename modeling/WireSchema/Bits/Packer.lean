import WireSchema.Bits.Write

/-!
# Bits — Packer

A growing byte buffer that takes bits one by one. The buffer doubles when it is full, so its
capacity never shows; `toBits` is what it holds. Bytes beyond the bits written are zero.
-/

namespace WireSchema

/-- The capacity a packer is asked to start with is not positive. -/
structure CapacityError where
  capacity : Int
  deriving DecidableEq, Repr

namespace CapacityError

def message (e : CapacityError) : Text :=
  Numeral.message do
    let capacity ← Numeral.ofInt e.capacity
    return "initial_bytes must be >= 1, got " ++ capacity

end CapacityError

/-- A byte buffer and the number of bits written to it. -/
structure Packer where
  buffer : Array UInt8
  length : Nat
  length_le : length ≤ 8 * buffer.size
  size_pos : 0 < buffer.size

namespace Packer

/-- From this number of bytes on there is no buffer: no index reaches its end. -/
def indexLimit : Nat := Nat.pow 2 63

/-- An empty packer with room for `capacity` bytes. -/
def withCapacity (capacity : Nat) (h : 0 < capacity := by decide) : Packer where
  buffer := Array.replicate capacity 0
  length := 0
  length_le := Nat.zero_le _
  size_pos := by
    rw [Array.size_replicate]
    exact h

/-- An empty packer with room for `capacity` bytes, which must be positive. -/
def withCapacity? (capacity : Int) : Except CapacityError Packer :=
  if h : 1 ≤ capacity then .ok (withCapacity capacity.toNat (by omega)) else .error ⟨capacity⟩

/-- Doubles a full buffer. -/
def reserve (p : Packer) : { q : Packer // q.length < 8 * q.buffer.size } :=
  if h : p.length < 8 * p.buffer.size then ⟨p, h⟩
  else
    ⟨{ buffer := p.buffer ++ Array.replicate p.buffer.size 0
       length := p.length
       length_le := by
         have := p.length_le
         simp only [Array.size_append, Array.size_replicate]
         omega
       size_pos := by
         have := p.size_pos
         simp only [Array.size_append, Array.size_replicate]
         omega },
      by
        have := p.length_le
        have := p.size_pos
        simp only [Array.size_append, Array.size_replicate]
        omega⟩

/-- Writes one bit behind the others. -/
def pushBit (p : Packer) (b : Bool) : Packer :=
  match p.reserve with
  | ⟨⟨buffer, length, _, size_pos⟩, room⟩ =>
      let mask : UInt8 := if b then 1 <<< UInt8.ofNat (7 - length % 8) else 0
      let i := length / 8
      have hi : i < buffer.size := by dsimp only [i] at *; omega
      let byte := if length % 8 = 0 then 0 else buffer[i]
      { buffer := buffer.set i (byte ||| mask)
        length := length + 1
        length_le := by simp only [Array.size_set]; dsimp only at room; omega
        size_pos := by simpa only [Array.size_set] using size_pos }

/-- Writes a bit string. -/
def push (p : Packer) (bs : Bits) : Packer := bs.foldl pushBit p

/-- Carries out a write; one that is refused leaves the packer as it was. -/
def write (p : Packer) (w : Write) : Except WidthError Packer :=
  p.push <$> w.toBits

/-- Carries out writes in order, up to the first that is refused. -/
def writeAll (p : Packer) : List Write → Except WidthError Packer
  | [] => .ok p
  | w :: ws => do writeAll (← p.write w) ws

/-- The bytes written; the last one is filled up with zero bits. -/
def toBytes (p : Packer) : Array UInt8 := p.buffer.extract 0 ((p.length + 7) / 8)

/-- The bits written. -/
def toBits (p : Packer) : Bits := (Bits.ofBytes p.buffer.toList).take p.length

end Packer

end WireSchema
