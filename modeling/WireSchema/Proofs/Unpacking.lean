import WireSchema.Proofs.Cursor
import WireSchema.Proofs.Number.Nearest
import WireSchema.Proofs.Text.Points

/-!
# Unpacking

**What is packed is unpacked** (`Item.unpack_pack`). Items of any kind, written one behind the
other wherever the one before ended, are read in their order: an integer as what its width leaves of
it (`Bits.wrapped`, if it is signed), bytes and doubles as they are, a text as its charset reads its
own bytes. Behind the last lie the zeros that fill up a byte, and nothing else.

One item is read where its bits lie ahead (`Item.exists_reads`); the rest is an induction over the
items with the bits of those to come ahead of the cursor (`Item.run_reads`).
-/

namespace WireSchema

/-- What `w` bits in two's complement leave of an integer: what differs from it by a multiple of
`2 ^ w`, from `-2 ^ (w - 1)` on and below `2 ^ (w - 1)`; nothing is left of no bits. -/
def Bits.wrapped : (w : Nat) → Int → Int
  | 0, _ => 0
  | w + 1, v => (v + 2 ^ w) % 2 ^ (w + 1) - 2 ^ w

theorem Bits.toInt_ofInt_eq_wrapped (w : Nat) (v : Int) : (ofInt w v).toInt = wrapped w v := by
  cases w with
  | zero => exact Bits.toInt_eq_signed []
  | succ w =>
      have hpos : (0 : Int) < 2 ^ (w + 1) := Int.pow_pos two_pos
      have hlow := Int.emod_nonneg (v + 2 ^ w) hpos.ne'
      have hhigh := Int.emod_lt_of_pos (v + 2 ^ w) hpos
      have hsplit : wrapped (w + 1) v =
          v - (2 ^ (w + 1) : Nat) * ((v + 2 ^ w) / 2 ^ (w + 1)) := by
        rw [wrapped, Int.emod_def]
        push_cast
        ring
      rw [toInt_ofInt, ← Int.sub_mul_bmod_self_left, ← hsplit, wrapped]
      refine Int.bmod_eq_of_le ?_ ?_ <;> rw [pow_succ] at * <;> push_cast <;> omega

/-! ### Items -/

/-- Something that is written, and read back by the read of its kind: an integer of at most 32 bits
or of at most 64, unsigned or in two's complement, bytes, a double, or a text without NUL. -/
inductive Item
  | bits (v : Int) (w : Nat) (le : w ≤ 32 := by decide)
  | unsigned (v : Int) (w : Nat) (le : w ≤ 64 := by decide)
  | signed (v : Int) (w : Nat) (le : w ≤ 64 := by decide)
  | bytes (data : List UInt8)
  | float64 (x : Binary64)
  | text (charset : Charset) (points : List CodePoint)
      (zeroFree : ∀ p ∈ points, p.val ≠ 0 := by decide)

namespace Item

def write : Item → Write
  | bits v w _ => .bits v w
  | unsigned v w _ | signed v w _ => .bits64 v w
  | bytes data => .bytes data
  | float64 x => .float64 x
  | text charset points _ => .text charset points

def read : Item → Read
  | bits _ w _ => .bits w
  | unsigned _ w _ => .bits64 w
  | signed _ w _ => .int w
  | bytes data => .bytes data.length
  | float64 _ => .float64
  | text charset _ _ => .text charset

/-- What an item is read as. -/
def result : Item → Read.Result
  | bits v w _ | unsigned v w _ => .int (v % 2 ^ w)
  | signed v w _ => .int (Bits.wrapped w v)
  | bytes data => .bytes data
  | float64 x => .float x
  | text charset points _ => .text (charset.decode (charset.encode points))

/-- The bits of an item. -/
def toBits : Item → Bits
  | bits v w _ | unsigned v w _ | signed v w _ => Bits.ofInt w v
  | bytes data => Bits.ofBytes data
  | float64 x => Bits.ofBytes (Write.float64Bytes x)
  | text charset points _ => Bits.ofBytes (Write.textBytes charset points)

theorem check_natCast {w limit : Nat} (h : w ≤ limit) : WidthError.check w limit = .ok w :=
  if_pos ⟨Int.natCast_nonneg w, Int.ofNat_le.mpr h⟩

/-- Every item is accepted. -/
theorem toBits_write (i : Item) : i.write.toBits = .ok i.toBits := by
  cases i with
  | bits v w le =>
      rw [write, Write.toBits, narrowLimit, check_natCast le]
      rfl
  | unsigned v w le | signed v w le =>
      rw [write, Write.toBits, wideLimit, check_natCast le]
      rfl
  | bytes | float64 | text => rfl

theorem allBits_write (items : List Item) :
    Write.allBits (items.map write) = .ok (items.flatMap toBits) := by
  induction items with
  | nil => rfl
  | cons i items ih => exact Write.allBits_cons_eq i.toBits_write ih

theorem read_integer {c d : Cursor} {v : Int} {w limit : Nat} (h : w ≤ limit)
    (hd : c.Takes (Bits.ofInt w v) d) (f : Bits → Read.Result) :
    (do
      let w ← WidthError.check w limit
      return Cursor.read.step c (c.take? w) f) = .ok (some (f (Bits.ofInt w v)), d) := by
  rw [check_natCast h]
  show Except.ok (Cursor.read.step c (c.take? w) f) = _
  rw [Cursor.take?_eq_some_iff.mpr ⟨Bits.length_ofInt w v, hd⟩]
  rfl

/-- An item is read where its bits lie ahead. -/
theorem read_of_takes {c d : Cursor} (i : Item) (h : c.Takes i.toBits d) :
    c.read i.read = .ok (some i.result, d) := by
  cases i with
  | bits v w le | unsigned v w le =>
      refine (read_integer le h fun bs => .int bs.toNat).trans ?_
      rw [Bits.toNat_ofInt, result]
      push_cast
      rfl
  | signed v w le =>
      refine (read_integer le h fun bs => .int bs.toInt).trans ?_
      rw [Bits.toInt_ofInt_eq_wrapped, result]
  | bytes data =>
      rw [read, Cursor.read, Int.toNat_natCast, Cursor.bytes?_eq_some_iff.mpr ⟨rfl, h⟩]
      rfl
  | float64 x =>
      rw [read, Cursor.read, Cursor.float64?,
        Cursor.bytes?_eq_some_iff.mpr ⟨length_littleEndian 8 x.pattern, h⟩, result]
      have hx : ofLittleEndian (littleEndian 8 x.pattern) = x.pattern :=
        ofLittleEndian_littleEndian x.lt
      show Except.ok (some (Read.Result.float (Binary.ofNat _ (ofLittleEndian _))), d) = _
      rw [hx, Binary.ofNat_pattern]
  | text charset points zeroFree =>
      rw [read, Cursor.read, Cursor.text?_eq_some_iff.mpr
        ⟨_, Charset.zero_not_mem_encode fun _ => zeroFree, rfl, h⟩]
      rfl

/-- Items are read one after the other where their bits lie ahead. -/
theorem run_reads (items : List Item) : ∀ {c : Cursor} {more : Bits},
    c.rest = items.flatMap toBits ++ more →
    ∃ d, Cursor.run Cursor.call c (items.map fun i => .read i.read) =
      (items.map fun i => .yields i.result, d) ∧ d.rest = more := by
  induction items with
  | nil => exact fun h => ⟨_, rfl, h⟩
  | cons i items ih =>
      intro c more h
      rw [List.flatMap_cons, List.append_assoc] at h
      obtain ⟨next, htakes, hrest⟩ := Cursor.Takes.of_rest h
      obtain ⟨d, hrun, hmore⟩ := ih hrest
      have hcall : c.call (.read i.read) = (.yields i.result, next) := by
        rw [Cursor.call, i.read_of_takes htakes]
      refine ⟨d, ?_, hmore⟩
      rw [List.map_cons, List.map_cons, Cursor.run_cons, hcall, hrun]

/-- **What is packed is unpacked.** Items are all accepted by a packer, with whatever room it
starts, and from its bytes the reads of their kinds yield what they left there; behind them are
fewer than eight bits, all of them zero. -/
theorem unpack_pack {capacity : Int} (hcapacity : 1 ≤ capacity) (items : List Item) :
    ∃ start p, Packer.withCapacity? capacity = .ok start ∧
      start.writeAll (items.map write) = .ok p ∧
      ∃ c, Cursor.run Cursor.call (.ofBytes p.toBytes) (items.map fun i => .read i.read) =
          (items.map fun i => .yields i.result, c) ∧
        ∃ k < 8, c.rest = List.replicate k false := by
  have htidy := Packer.tidy_withCapacity capacity.toNat (by omega)
  refine ⟨_, _, dif_pos hcapacity, Packer.writeAll_eq _ (allBits_write items), ?_⟩
  have hbytes := Packer.ofBytes_toBytes (htidy.push (items.flatMap toBits))
  rw [Packer.toBits_push htidy, Packer.toBits_withCapacity, List.nil_append] at hbytes
  obtain ⟨c, hrun, hrest⟩ := run_reads items ((Cursor.rest_ofBytes _).trans hbytes)
  exact ⟨c, hrun, _, Nat.mod_lt _ (by decide), hrest⟩

/-- A negative and an oversized integer, a text with a character outside its alphabet, and a double,
each across bytes. -/
theorem unpack_pack_mixed :
    (1 : Int) ≤ 1 ∧ ∃ start p, Packer.withCapacity? 1 = .ok start ∧
      start.writeAll [.bits (-2) 3, .bits64 1000 0, .bits64 200 8,
        .text .hebrew ([⟨0x5d0, by decide⟩, ⟨0x41, by decide⟩]), .float64 .one] = .ok p ∧
      ∃ c, Cursor.run Cursor.call (.ofBytes p.toBytes)
          [.read (.bits 3), .read (.int 0), .read (.int 8), .read (.text .hebrew),
            .read .float64] =
          ([.yields (.int 6), .yields (.int 0), .yields (.int (-56)),
            .yields (.text ['א', '?']), .yields (.float .one)], c) ∧
        ∃ k < 8, c.rest = List.replicate k false :=
  ⟨Int.le_refl 1, unpack_pack (Int.le_refl 1) [.bits (-2) 3, .signed 1000 0, .signed 200 8,
    .text .hebrew [⟨0x5d0, by decide⟩, ⟨0x41, by decide⟩], .float64 .one]⟩

end Item

end WireSchema
