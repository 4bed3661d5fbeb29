import WireSchema.Proofs.Bits.Packing

/-!
# Packers

**A packer is a list of bits** (`Packer.run_withCapacity`). Whatever room it starts with and
whatever it is called for, it answers as the list of the bits written would (`Bits.call`): its
length is the number of them, its bytes are they, filled up with zeros, and a write that is refused
leaves no trace.

What a write stands for is said here once more, without the packer (`Write.stands`): the low bits of
an integer, the highest first, and of all else the bits of its bytes. There are as many of them as
the write is wide (`Write.length_stands`).
-/

namespace WireSchema

/-! ### What a write stands for -/

namespace Bits

/-- The low `w` bits of an integer in two's complement, the highest first. -/
def low (w : Nat) (v : Int) : Bits :=
  (List.range w).reverse.map fun i => decide (v / 2 ^ i % 2 = 1)

theorem ofNat_eq_map (w n : Nat) : ofNat w n = (List.range w).reverse.map n.testBit := by
  induction w with
  | zero => rfl
  | succ w ih => rw [ofNat, ih, List.range_succ, List.reverse_concat, List.map_cons]

/-- What is left modulo a power of two has the same bits below it. -/
theorem emod_two_pow_ediv {i w : Nat} (h : i < w) (v : Int) :
    v % 2 ^ w / 2 ^ i % 2 = v / 2 ^ i % 2 := by
  obtain ⟨k, rfl⟩ := Nat.exists_eq_add_of_lt h
  have hsplit : v % 2 ^ (i + k + 1) = v + 2 ^ i * (2 * (-(2 ^ k * (v / 2 ^ (i + k + 1))))) := by
    rw [Int.emod_def]
    ring
  rw [hsplit, Int.add_mul_ediv_left _ _ (pow_ne_zero i two_ne_zero), Int.add_mul_emod_self_left]

theorem testBit_eq_decide (n i : Nat) : n.testBit i = decide ((n : Int) / 2 ^ i % 2 = 1) := by
  rw [Nat.testBit_eq_decide_div_mod_eq, decide_eq_decide]
  exact_mod_cast Iff.rfl

theorem ofInt_eq_low (w : Nat) (v : Int) : ofInt w v = low w v := by
  have hnonneg : 0 ≤ v % 2 ^ w := Int.emod_nonneg v (pow_ne_zero w two_ne_zero)
  rw [ofInt, ofNat_eq_map, low]
  refine List.map_congr_left fun i hi => ?_
  rw [List.mem_reverse, List.mem_range] at hi
  rw [testBit_eq_decide, Nat.pow_eq, Nat.cast_pow, Nat.cast_ofNat, Int.toNat_of_nonneg hnonneg,
    emod_two_pow_ediv hi]

theorem ofByte_eq_low (b : UInt8) : ofByte b = low 8 b.toNat := by
  rw [ofByte, ofNat_eq_map, low]
  exact List.map_congr_left fun i _ => testBit_eq_decide b.toNat i

/-- The bits of bytes, one byte behind the other. -/
def byByte (data : List UInt8) : Bits := data.flatMap fun b => low 8 b.toNat

theorem ofBytes_eq_byByte (data : List UInt8) : ofBytes data = byByte data :=
  congrArg data.flatMap (funext ofByte_eq_low)

end Bits

/-- The bits that a write stands for, or why it is refused. -/
def Write.stands : Write → Except WidthError Bits
  | bits v w => if 0 ≤ w ∧ w ≤ 32 then .ok (Bits.low w.toNat v) else .error ⟨w, 32⟩
  | bits64 v w => if 0 ≤ w ∧ w ≤ 64 then .ok (Bits.low w.toNat v) else .error ⟨w, 64⟩
  | bytes data => .ok (Bits.byByte data)
  | float32 x => .ok (Bits.byByte (littleEndian 4 x.narrow.pattern))
  | float64 x => .ok (Bits.byByte (littleEndian 8 x.pattern))
  | text charset points => .ok (Bits.byByte (charset.encode points ++ [0]))

/-- The bits that a write takes: as many as it says for an integer, and eight for every byte. -/
def Write.width : Write → Nat
  | bits _ w | bits64 _ w => w.toNat
  | bytes data => 8 * data.length
  | float32 _ => 32
  | float64 _ => 64
  | text charset points => 8 * (charset.encode points).length + 8

/-- The bits of a write are those it stands for. -/
theorem Write.toBits_eq_stands (w : Write) : w.toBits = w.stands := by
  have hinteger : ∀ (v width : Int) (limit : Nat),
      (Bits.ofInt · v) <$> WidthError.check width limit =
        if 0 ≤ width ∧ width ≤ limit then .ok (Bits.low width.toNat v)
        else .error ⟨width, limit⟩ := by
    intro v width limit
    rw [WidthError.check]
    split
    · exact congrArg Except.ok (Bits.ofInt_eq_low _ _)
    · rfl
  cases w with
  | bits v width => exact hinteger v width narrowLimit
  | bits64 v width => exact hinteger v width wideLimit
  | bytes | float32 | float64 | text => exact congrArg Except.ok (Bits.ofBytes_eq_byByte _)

/-! ### Calls -/

namespace Packer

/-- What a packer is called for. -/
inductive Call
  | write (w : Write)
  | length
  | bytes

/-- What a call is answered with; bytes are shown as their bits. -/
inductive Answer
  | accepted
  | refused (e : WidthError)
  | length (n : Nat)
  | bytes (bits : Bits)

/-- The bits that a call adds: those of a write that is accepted. -/
def Call.added : Call → Bits
  | write w =>
      match w.stands with
      | .ok bs => bs
      | .error _ => []
  | length | bytes => []

/-- The bits that a call takes: those that a write takes, if it is accepted. -/
def Call.width : Call → Nat
  | write w =>
      match w.stands with
      | .ok _ => w.width
      | .error _ => 0
  | length | bytes => 0

/-- The answer to a call, and the packer after it. -/
def call (p : Packer) : Call → Answer × Packer
  | .write w =>
      match p.write w with
      | .ok q => (.accepted, q)
      | .error e => (.refused e, p)
  | .length => (.length p.length, p)
  | .bytes => (.bytes (Bits.ofBytes p.toBytes.toList), p)

/-- The answers to calls, one after the other, and what they leave behind. -/
def run {σ : Type} (one : σ → Call → Answer × σ) : σ → List Call → List Answer × σ
  | state, [] => ([], state)
  | state, call :: calls =>
      let (answer, next) := one state call
      let (answers, last) := run one next calls
      (answer :: answers, last)

end Packer

namespace Bits

open Packer (Call Answer run)

/-- What a list of bits answers in place of a packer, and the bits after it. -/
def call (held : Bits) : Call → Answer × Bits
  | .write w =>
      match w.stands with
      | .ok bs => (.accepted, held ++ bs)
      | .error e => (.refused e, held)
  | .length => (.length held.length, held)
  | .bytes => (.bytes held.padded, held)

theorem call_snd (held : Bits) (c : Call) : (held.call c).2 = held ++ c.added := by
  cases c with
  | write w =>
      rw [call, Call.added]
      cases w.stands with
      | ok bs => rfl
      | error e => exact (List.append_nil held).symm
  | length | bytes => exact (List.append_nil held).symm

/-- What is held in the end is what all calls have added. -/
theorem run_snd (calls : List Call) :
    ∀ held : Bits, (run call held calls).2 = held ++ calls.flatMap Call.added := by
  induction calls with
  | nil => exact fun held => (List.append_nil held).symm
  | cons c calls ih =>
      intro held
      rw [List.flatMap_cons, ← List.append_assoc, ← call_snd]
      exact ih _

end Bits

namespace Packer

/-- A tidy packer answers a call as its bits do, and stays tidy. -/
theorem call_eq {p : Packer} (h : p.Tidy) (c : Call) :
    (p.call c).1 = (p.toBits.call c).1 ∧ (p.call c).2.Tidy ∧
      (p.call c).2.toBits = (p.toBits.call c).2 := by
  cases c with
  | write w =>
      rw [call, write, Bits.call, Write.toBits_eq_stands]
      cases w.stands with
      | ok bs => exact ⟨rfl, h.push bs, toBits_push h bs⟩
      | error e => exact ⟨rfl, h, rfl⟩
  | length => exact ⟨congrArg Answer.length (length_toBits p).symm, h, rfl⟩
  | bytes => exact ⟨congrArg Answer.bytes (ofBytes_toBytes h), h, rfl⟩

/-- A packer answers every sequence of calls as the list of its bits does, and stays tidy. -/
theorem run_eq (calls : List Call) : ∀ {p : Packer}, p.Tidy →
    (run call p calls).1 = (run Bits.call p.toBits calls).1 ∧ (run call p calls).2.Tidy ∧
      (run call p calls).2.toBits = (run Bits.call p.toBits calls).2 := by
  induction calls with
  | nil => exact fun h => ⟨rfl, h, rfl⟩
  | cons c calls ih =>
      intro p h
      obtain ⟨hanswer, htidy, hbits⟩ := call_eq h c
      obtain ⟨hanswers, hlast, hheld⟩ := ih htidy
      rw [hbits] at hanswers hheld
      exact ⟨congrArg₂ List.cons hanswer hanswers, hlast, hheld⟩

/-- A write is accepted if it stands for bits, and puts these behind those held. -/
theorem call_of_stands {p : Packer} (h : p.Tidy) {w : Write} {bs : Bits}
    (hw : w.stands = .ok bs) :
    ∃ q, p.call (.write w) = (.accepted, q) ∧ q.Tidy ∧ q.toBits = p.toBits ++ bs := by
  obtain ⟨hanswer, htidy, hbits⟩ := call_eq h (.write w)
  rw [Bits.call, hw] at hanswer hbits
  exact ⟨_, Prod.ext hanswer rfl, htidy, hbits⟩

/-- Calls leave a packer tidy and put bits behind those it holds. -/
theorem exists_run {p : Packer} (h : p.Tidy) (calls : List Call) :
    (run call p calls).2.Tidy ∧ ∃ more, (run call p calls).2.toBits = p.toBits ++ more := by
  obtain ⟨-, htidy, hbits⟩ := run_eq calls h
  exact ⟨htidy, _, hbits.trans (Bits.run_snd calls p.toBits)⟩

-- a negative number across the end of the first byte, behind one that is cut off and one refused
example : (run call (withCapacity 1)
    [.write (.bits 100 5), .write (.bits 0 33), .write (.bits64 (-2) 4), .length, .bytes]).1 =
      [.accepted, .refused ⟨33, 32⟩, .accepted, .length 9,
        .bytes [false, false, true, false, false, true, true, true,
          false, false, false, false, false, false, false, false]] := by
  rfl

end Packer

end WireSchema
