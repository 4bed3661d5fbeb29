import WireSchema.Proofs.Bits.Reading
import WireSchema.Proofs.Packer

/-!
# Cursors

**A cursor is a list of bits to come** (`Cursor.run_ofBytes`). Whatever it is called for, and in
whatever order, it answers as a `Tape` would: the bits of the byte string, divided where the cursor
stands. A read of fixed width takes so many bits off those ahead, or none if they do not suffice; a
read of a text takes whole bytes to the first zero byte, or all there is; a width out of range is
refused, and nothing moves. So the position only grows, up to the end.

What a read makes of the bits that it takes is said here once more, without the cursor
(`Read.value`): every bit of an integer weighs twice as much as the next, and the first of a signed
one weighs below zero (`Bits.unsigned`, `Bits.signed`).
-/

namespace WireSchema

/-! ### What bits are read as -/

namespace Bits

/-- The number that bits spell, every bit weighing twice as much as the next. -/
def unsigned : Bits → Nat
  | [] => 0
  | b :: bs => (if b then 2 ^ bs.length else 0) + unsigned bs

/-- The number that bits spell in two's complement: the first of them weighs below zero. -/
def signed : Bits → Int
  | [] => 0
  | b :: bs => (if b then -2 ^ bs.length else 0) + unsigned bs

/-- The first `n` bytes of a bit string. -/
def octets : (n : Nat) → Bits → List UInt8
  | 0, _ => []
  | n + 1, bs => UInt8.ofNat (unsigned (bs.take 8)) :: octets n (bs.drop 8)

theorem toNat_eq_unsigned (bs : Bits) : bs.toNat = bs.unsigned := by
  induction bs with
  | nil => rfl
  | cons b bs ih =>
      rw [toNat_cons, unsigned, ih]
      cases b with
      | false => rw [Bool.toNat_false, Nat.zero_mul, if_neg Bool.false_ne_true]
      | true => rw [Bool.toNat_true, Nat.one_mul, if_pos rfl]

theorem toInt_eq_signed (bs : Bits) : bs.toInt = bs.signed := by
  cases bs with
  | nil => rfl
  | cons b bs =>
      have hlt : (toNat bs : Int) < 2 ^ bs.length := by exact_mod_cast toNat_lt bs
      rw [toInt, toNat_cons, signed, ← toNat_eq_unsigned, List.length_cons, Nat.pow_eq]
      -- the remainder nearest to zero is below it when the first bit is set
      cases b with
      | false =>
          rw [Bool.toNat_false, Nat.zero_mul, Nat.zero_add, if_neg Bool.false_ne_true, zero_add]
          refine Int.bmod_eq_of_le ?_ ?_ <;> rw [pow_succ] <;> push_cast <;> omega
      | true =>
          have hsplit : ((2 ^ bs.length + toNat bs : Nat) : Int) =
              -2 ^ bs.length + toNat bs + (2 ^ (bs.length + 1) : Nat) := by
            push_cast
            ring
          rw [Bool.toNat_true, Nat.one_mul, if_pos rfl, hsplit, Int.add_bmod_right]
          refine Int.bmod_eq_of_le ?_ ?_ <;> rw [pow_succ] <;> push_cast <;> omega

theorem toNat_append (xs ys : Bits) :
    toNat (xs ++ ys) = xs.toNat * 2 ^ ys.length + ys.toNat := by
  rw [toNat, List.foldl_append, foldl_toNat]
  rfl

/-- Bytes are read off the bits that begin with them. -/
theorem octets_append (bytes : List UInt8) (more : Bits) (k : Nat) :
    octets (bytes.length + k) (ofBytes bytes ++ more) = bytes ++ octets k more := by
  induction bytes with
  | nil => rw [List.length_nil, Nat.zero_add]; rfl
  | cons b bytes ih =>
      rw [ofBytes_cons, List.append_assoc, List.length_cons, Nat.add_right_comm, octets,
        List.take_left' (length_ofByte b), List.drop_left' (length_ofByte b), ih,
        ← toNat_eq_unsigned, toNat_ofByte, UInt8.ofNat_toNat]
      rfl

theorem octets_ofBytes (bytes : List UInt8) : octets bytes.length (ofBytes bytes) = bytes := by
  have h := octets_append bytes [] 0
  rwa [List.append_nil, Nat.add_zero, octets, List.append_nil] at h

/-- All the bytes of a bit string, and no others. -/
theorem octets_whole (bytes : List UInt8) :
    octets ((ofBytes bytes).length / 8) (ofBytes bytes) = bytes := by
  rw [length_ofBytes, Nat.mul_div_cancel_left _ (by decide), octets_ofBytes]

theorem ofLittleEndian_eq (bytes : List UInt8) :
    ofLittleEndian bytes = (byByte bytes.reverse).unsigned := by
  rw [← toNat_eq_unsigned, ← ofBytes_eq_byByte]
  induction bytes with
  | nil => rfl
  | cons b bytes ih =>
      rw [ofLittleEndian, ih, List.reverse_cons, ofBytes_append, toNat_append, ofBytes_cons,
        ofBytes_nil, List.append_nil, toNat_ofByte, length_ofByte]
      ring

end Bits

/-! ### What a read does to the bits ahead -/

namespace Read

/-- Why a read is refused, if it is. -/
def refusal? : Read → Option WidthError
  | bits w => if 0 ≤ w ∧ w ≤ 32 then none else some ⟨w, 32⟩
  | bits64 w | int w => if 0 ≤ w ∧ w ≤ 64 then none else some ⟨w, 64⟩
  | bytes _ | float32 | float64 | text _ => none

/-- The bits that a read takes, if it is of fixed width; a negative count of bytes is none. -/
def width? : Read → Option Nat
  | bits w | bits64 w | int w => some w.toNat
  | bytes n => some (8 * n.toNat)
  | float32 => some 32
  | float64 => some 64
  | text _ => none

/-- How many of the bits ahead a read takes, if they suffice: as many as it is wide and, for a
text, whole bytes up to the first that is zero. -/
def extent? (r : Read) (ahead : Bits) : Option Nat :=
  match r.width? with
  | some w => if w ≤ ahead.length then some w else none
  | none => ((Bits.octets (ahead.length / 8) ahead).idxOf? 0).map fun n => 8 * (n + 1)

/-- What the bits that a read takes are read as. Floats lie with their last byte first. -/
def value (taken : Bits) : Read → Result
  | bits _ | bits64 _ => .int taken.unsigned
  | int _ => .int taken.signed
  | bytes _ => .bytes (Bits.octets (taken.length / 8) taken)
  | float32 =>
      .float (Binary64.widen (Binary.ofNat _ (Bits.byByte (Bits.octets 4 taken).reverse).unsigned))
  | float64 => .float (Binary.ofNat _ (Bits.byByte (Bits.octets 8 taken).reverse).unsigned)
  | text charset => .text (charset.decode (Bits.octets (taken.length / 8) taken).dropLast)

end Read

/-! ### Calls -/

namespace Cursor

/-- What a cursor is called for. -/
inductive Call
  | read (r : Read)
  | position
  | remaining
  | atEnd

/-- What a call is answered with. -/
inductive Answer
  | yields (result : Read.Result)
  /-- The bits do not suffice. -/
  | nothing
  | refused (e : WidthError)
  | position (n : Nat)
  | remaining (n : Nat)
  | atEnd (b : Bool)

/-- The answer to a call, and the cursor after it. -/
def call (c : Cursor) : Call → Answer × Cursor
  | .read r =>
      match c.read r with
      | .ok (some result, d) => (.yields result, d)
      | .ok (none, d) => (.nothing, d)
      | .error e => (.refused e, c)
  | .position => (.position c.position, c)
  | .remaining => (.remaining c.remaining, c)
  | .atEnd => (.atEnd c.atEnd, c)

/-- The answers to calls, one after the other, and what they leave behind. -/
def run {σ : Type} (one : σ → Call → Answer × σ) : σ → List Call → List Answer × σ
  | state, [] => ([], state)
  | state, call :: calls =>
      let (answer, next) := one state call
      let (answers, last) := run one next calls
      (answer :: answers, last)

theorem run_cons {σ : Type} (one : σ → Call → Answer × σ) (state : σ) (k : Call)
    (calls : List Call) :
    run one state (k :: calls) =
      ((one state k).1 :: (run one (one state k).2 calls).1, (run one (one state k).2 calls).2) :=
  rfl

end Cursor

/-- A list of bits, divided at a place. -/
structure Tape where
  behind : Bits
  ahead : Bits

namespace Tape

open Cursor (Call Answer)

/-- Moves on by `n` bits. -/
def advance (tape : Tape) (n : Nat) : Tape :=
  ⟨tape.behind ++ tape.ahead.take n, tape.ahead.drop n⟩

/-- What a divided list of bits answers in place of a cursor, and where it is divided after it.
Where the bits do not suffice, a text uses them all up and any other read none. -/
def call (tape : Tape) : Call → Answer × Tape
  | .read r =>
      match r.refusal?, r.extent? tape.ahead with
      | some e, _ => (.refused e, tape)
      | none, some n => (.yields (r.value (tape.ahead.take n)), tape.advance n)
      | none, none =>
          (.nothing, if r.width?.isNone then tape.advance tape.ahead.length else tape)
  | .position => (.position tape.behind.length, tape)
  | .remaining => (.remaining tape.ahead.length, tape)
  | .atEnd => (.atEnd tape.ahead.isEmpty, tape)

end Tape

namespace Cursor

/-! ### One call -/

/-- The bits of a byte string, divided where the cursor stands. -/
def tape (c : Cursor) : Tape := ⟨(Bits.ofBytes c.data.toList).take c.position, c.rest⟩

theorem length_behind (c : Cursor) : c.tape.behind.length = c.position := by
  have hle := c.position_le
  rw [tape, List.length_take, Bits.length_ofBytes, Array.length_toList, Nat.min_eq_left hle]

theorem isEmpty_rest (c : Cursor) : c.rest.isEmpty = c.atEnd := by
  rw [Bool.eq_iff_iff, List.isEmpty_iff_length_eq_zero, length_rest, remaining, atEnd,
    decide_eq_true_iff]
  omega

/-- Taking bits advances the tape by as many. -/
theorem Takes.tape_eq {c d : Cursor} {bs : Bits} (h : c.Takes bs d) :
    d.tape = c.tape.advance bs.length := by
  have hbehind : (Bits.ofBytes d.data.toList).take d.position =
      (Bits.ofBytes c.data.toList).take c.position ++ c.rest.take bs.length := by
    rw [h.data_eq, h.position_eq, List.take_add]
    rfl
  have hahead : d.rest = c.rest.drop bs.length := by rw [h.rest_eq, List.drop_left]
  rw [tape, tape, Tape.advance, hbehind, hahead]

theorem takes_toEnd (c : Cursor) : c.Takes c.rest c.toEnd := by
  have hle := c.position_le
  refine ⟨rfl, ?_, ?_⟩
  · rw [length_rest, remaining]
    show 8 * c.data.size = _
    omega
  · have hempty : c.toEnd.rest = [] := by
      rw [rest]
      refine List.drop_eq_nil_of_le ?_
      rw [Bits.length_ofBytes, Array.length_toList]
      exact Nat.le_refl _
    rw [hempty, List.append_nil]

theorem length_le_of_takes {c d : Cursor} {bs : Bits} (h : c.Takes bs d) :
    bs.length ≤ c.rest.length := by
  rw [h.rest_eq, List.length_append]
  exact Nat.le_add_right _ _

/-- A call is answered as by the divided bits, and moves on over some of those ahead. -/
def Follows (c : Cursor) (k : Call) : Prop :=
  ∃ bs, c.Takes bs (c.call k).2 ∧ c.tape.call k = ((c.call k).1, (c.call k).2.tape)

theorem Follows.of_refusal {c : Cursor} {r : Read} {e : WidthError} (hread : c.read r = .error e)
    (hrefusal : r.refusal? = some e) : c.Follows (.read r) := by
  have hcall : c.call (.read r) = (.refused e, c) := by rw [call, hread]
  refine ⟨[], ?_, ?_⟩
  · rw [hcall]
    exact .refl c
  · rw [hcall, Tape.call, hrefusal]

/-- A read follows if it takes the right bits and yields what they are read as. -/
theorem Follows.of_yields {c d : Cursor} {r : Read} {bs : Bits} (hd : c.Takes bs d)
    (hread : c.read r = .ok (some (r.value bs), d)) (hrefusal : r.refusal? = none)
    (hextent : r.extent? c.rest = some bs.length) : c.Follows (.read r) := by
  have hcall : c.call (.read r) = (.yields (r.value bs), d) := by rw [call, hread]
  have htake : c.rest.take bs.length = bs := by rw [hd.rest_eq, List.take_left]
  have htape : c.tape.call (.read r) =
      (.yields (r.value (c.rest.take bs.length)), c.tape.advance bs.length) := by
    rw [Tape.call, hrefusal, show r.extent? c.tape.ahead = some bs.length from hextent]
    rfl
  refine ⟨bs, by rw [hcall]; exact hd, ?_⟩
  rw [htape, htake, hcall, hd.tape_eq]

/-- A read that yields nothing follows if the bits do not suffice, and it leaves them, or uses them
up, as reads of its kind do. -/
theorem Follows.of_nothing {c d : Cursor} {r : Read} {bs : Bits} (hd : c.Takes bs d)
    (hread : c.read r = .ok (none, d)) (hrefusal : r.refusal? = none)
    (hextent : r.extent? c.rest = none)
    (htape : (if r.width?.isNone then c.tape.advance c.rest.length else c.tape) = d.tape) :
    c.Follows (.read r) := by
  have hcall : c.call (.read r) = (.nothing, d) := by rw [call, hread]
  refine ⟨bs, by rw [hcall]; exact hd, ?_⟩
  rw [hcall, Tape.call, hrefusal, show r.extent? c.tape.ahead = none from hextent, ← htape]
  rfl

/-- A read of fixed width follows if what it takes are so many bits, and it reads them right. -/
theorem Follows.of_width {c : Cursor} {r : Read} {w : Nat} {α : Type}
    {taken : Option (α × Cursor)} {result : α → Read.Result}
    (hread : c.read r = .ok (read.step c taken result)) (hrefusal : r.refusal? = none)
    (hwidth : r.width? = some w)
    (htakes : ∀ bs d, bs.length = w → c.Takes bs d →
      ∃ a, taken = some (a, d) ∧ result a = r.value bs)
    (htaken : ∀ a d, taken = some (a, d) → ∃ bs, bs.length = w ∧ c.Takes bs d) :
    c.Follows (.read r) := by
  have hextent : r.extent? c.rest = if w ≤ c.rest.length then some w else none := by
    rw [Read.extent?, hwidth]
  by_cases h : w ≤ c.rest.length
  · obtain ⟨d, hd, -⟩ := Takes.of_rest (List.take_append_drop w c.rest).symm
    have hl : (c.rest.take w).length = w := List.length_take_of_le h
    obtain ⟨a, ha, hvalue⟩ := htakes _ d hl hd
    refine .of_yields hd ?_ hrefusal ?_
    · rw [hread, ha, ← hvalue]
      rfl
    · rw [hextent, if_pos h, hl]
  · have hnone : taken = none := by
      cases taken with
      | none => rfl
      | some p =>
          obtain ⟨bs, hl, hbs⟩ := htaken p.1 p.2 rfl
          exact absurd (hl ▸ length_le_of_takes hbs) h
    refine .of_nothing (.refl c) ?_ hrefusal ?_ ?_
    · rw [hread, hnone]
      rfl
    · rw [hextent, if_neg h]
    · rw [hwidth]
      rfl

/-- An integer is read as the bits that it takes are, if its width is within the limit. -/
theorem follows_integer {c : Cursor} {r : Read} {w : Int} {limit : Nat} {f : Bits → Int}
    (hread : c.read r = do
      let w ← WidthError.check w limit
      return read.step c (c.take? w) fun bs => .int (f bs))
    (hrefusal : r.refusal? = if 0 ≤ w ∧ w ≤ limit then none else some ⟨w, limit⟩)
    (hwidth : r.width? = some w.toNat) (hvalue : ∀ bs, r.value bs = .int (f bs)) :
    c.Follows (.read r) := by
  rw [WidthError.check] at hread
  by_cases h : 0 ≤ w ∧ w ≤ limit
  · rw [if_pos h] at hread hrefusal
    refine .of_width hread hrefusal hwidth (fun bs d hl hd => ?_) (fun bs d hd => ?_)
    · exact ⟨bs, take?_eq_some_iff.mpr ⟨hl, hd⟩, (hvalue bs).symm⟩
    · exact ⟨bs, take?_eq_some_iff.mp hd⟩
  · rw [if_neg h] at hread hrefusal
    exact .of_refusal hread hrefusal

theorem step_map {c : Cursor} {α β : Type} (taken : Option (α × Cursor)) (f : α → β)
    (result : β → Read.Result) :
    read.step c (taken.map fun (a, d) => (f a, d)) result =
      read.step c taken fun a => result (f a) := by
  cases taken <;> rfl

/-- Bytes are read as the bits that they take are. -/
theorem follows_bytes {c : Cursor} {r : Read} {n : Nat} {f : List UInt8 → Read.Result}
    (hread : c.read r = .ok (read.step c (c.bytes? n) f)) (hrefusal : r.refusal? = none)
    (hwidth : r.width? = some (8 * n))
    (hvalue : ∀ bytes, bytes.length = n → r.value (Bits.ofBytes bytes) = f bytes) :
    c.Follows (.read r) := by
  refine .of_width hread hrefusal hwidth (fun bs d hl hd => ?_) (fun bytes d hd => ?_)
  · obtain ⟨bytes, hn, rfl⟩ := Bits.exists_ofBytes hl
    exact ⟨bytes, bytes?_eq_some_iff.mpr ⟨hn, hd⟩, (hvalue bytes hn).symm⟩
  · obtain ⟨hn, hd⟩ := bytes?_eq_some_iff.mp hd
    exact ⟨_, by rw [Bits.length_ofBytes, hn], hd⟩

/-- A place where a zero byte is the first of its kind. -/
theorem idxOf?_zero {bytes : List UInt8} (h : 0 ∉ bytes) (more : List UInt8) :
    (bytes ++ 0 :: more).idxOf? 0 = some bytes.length := by
  induction bytes with
  | nil => rfl
  | cons b bytes ih =>
      obtain ⟨hb, hbytes⟩ := not_or.mp (mt List.mem_cons.mpr h)
      rw [List.cons_append, List.idxOf?_cons, if_neg (by rwa [beq_iff_eq, eq_comm]), ih hbytes]
      rfl

/-- The whole bytes ahead, and the bits behind the last of them. -/
theorem rest_eq_octets (c : Cursor) : ∃ more, c.rest =
    Bits.ofBytes (Bits.octets (c.rest.length / 8) c.rest) ++ more := by
  have hl : (c.rest.take (8 * (c.rest.length / 8))).length = 8 * (c.rest.length / 8) := by
    rw [List.length_take]
    omega
  obtain ⟨bytes, hn, hbytes⟩ := Bits.exists_ofBytes hl
  have hsplit := (List.take_append_drop (8 * (c.rest.length / 8)) c.rest).symm
  rw [hbytes] at hsplit
  refine ⟨_, hsplit.trans (congrArg (Bits.ofBytes · ++ _) ?_)⟩
  have h := Bits.octets_append bytes (c.rest.drop (8 * (c.rest.length / 8))) 0
  rw [← hsplit, hn] at h
  exact (h.trans (List.append_nil bytes)).symm

/-- The bytes of a text with the first zero byte ahead are taken. -/
theorem exists_text? {c : Cursor} {bytes others : List UInt8} {more : Bits}
    (hrest : c.rest = Bits.ofBytes (bytes ++ 0 :: others) ++ more) (hzero : 0 ∉ bytes)
    (charset : Charset) :
    ∃ d, c.Takes (Bits.ofBytes (bytes ++ [0])) d ∧
      c.text? charset = some (charset.decode bytes, d) := by
  rw [List.append_cons, Bits.ofBytes_append, List.append_assoc] at hrest
  obtain ⟨d, hd, -⟩ := Takes.of_rest hrest
  exact ⟨d, hd, text?_eq_some_iff.mpr ⟨bytes, hzero, rfl, hd⟩⟩

/-- Without a zero byte ahead there is no text. -/
theorem text?_eq_none {c : Cursor} (h : 0 ∉ Bits.octets (c.rest.length / 8) c.rest)
    (charset : Charset) : c.text? charset = none := by
  by_contra hsome
  obtain ⟨⟨chars, d⟩, htaken⟩ := Option.ne_none_iff_exists'.mp hsome
  obtain ⟨bytes, -, -, hd⟩ := text?_eq_some_iff.mp htaken
  have hl := length_le_of_takes hd
  rw [Bits.length_ofBytes] at hl
  obtain ⟨k, hk⟩ := Nat.exists_eq_add_of_le
    (show (bytes ++ [0]).length ≤ c.rest.length / 8 by omega)
  rw [hk, hd.rest_eq, Bits.octets_append] at h
  exact h (List.mem_append_left _ (List.mem_append_right _ List.mem_cons_self))

theorem follows_text (c : Cursor) (charset : Charset) : c.Follows (.read (.text charset)) := by
  obtain ⟨more, hrest⟩ := c.rest_eq_octets
  by_cases hmem : 0 ∈ Bits.octets (c.rest.length / 8) c.rest
  · obtain ⟨bytes, others, hsplit, hzero⟩ := List.eq_append_cons_of_mem hmem
    have hindex : (Bits.octets (c.rest.length / 8) c.rest).idxOf? 0 = some bytes.length := by
      rw [hsplit, idxOf?_zero hzero]
    rw [hsplit] at hrest
    obtain ⟨d, hd, htext⟩ := exists_text? hrest hzero charset
    refine .of_yields hd ?_ rfl ?_
    · rw [read, htext, Read.value, Bits.octets_whole, List.dropLast_concat]
    · rw [Read.extent?, Read.width?, Bits.length_ofBytes, List.length_append]
      exact congrArg (Option.map fun n => 8 * (n + 1)) hindex
  · refine .of_nothing (takes_toEnd c) ?_ rfl ?_ (takes_toEnd c).tape_eq.symm
    · rw [read, text?_eq_none hmem]
    · exact congrArg (Option.map fun n => 8 * (n + 1)) (List.idxOf?_eq_none_iff.mpr hmem)

/-! ### All calls -/

/-- Every call is answered as on the tape of the bits, and moves both alike. -/
theorem follows (c : Cursor) (k : Call) : c.Follows k := by
  cases k with
  | read r =>
      cases r with
      | bits w =>
          exact follows_integer rfl rfl rfl fun bs =>
            congrArg (fun n : Nat => Read.Result.int n) (Bits.toNat_eq_unsigned bs).symm
      | bits64 w =>
          exact follows_integer rfl rfl rfl fun bs =>
            congrArg (fun n : Nat => Read.Result.int n) (Bits.toNat_eq_unsigned bs).symm
      | int w =>
          exact follows_integer rfl rfl rfl fun bs =>
            congrArg Read.Result.int (Bits.toInt_eq_signed bs).symm
      | bytes n =>
          exact follows_bytes rfl rfl rfl fun bytes _ =>
            congrArg Read.Result.bytes (Bits.octets_whole bytes)
      | float32 =>
          refine follows_bytes (congrArg Except.ok (step_map (c.bytes? 4)
            (fun bytes => Binary64.widen (Binary.ofNat _ (ofLittleEndian bytes))) .float)) rfl rfl
            fun bytes hl => ?_
          rw [Read.value, ← hl, Bits.octets_ofBytes, ← Bits.ofLittleEndian_eq]
      | float64 =>
          refine follows_bytes (congrArg Except.ok (step_map (c.bytes? 8)
            (fun bytes => Binary.ofNat _ (ofLittleEndian bytes)) .float)) rfl rfl fun bytes hl => ?_
          rw [Read.value, ← hl, Bits.octets_ofBytes, ← Bits.ofLittleEndian_eq]
      | text charset => exact c.follows_text charset
  | position =>
      exact ⟨[], .refl c, congrArg (fun n => (Answer.position n, c.tape)) c.length_behind⟩
  | remaining =>
      exact ⟨[], .refl c, congrArg (fun n => (Answer.remaining n, c.tape)) c.length_rest⟩
  | atEnd =>
      exact ⟨[], .refl c, congrArg (fun b => (Answer.atEnd b, c.tape)) c.isEmpty_rest⟩

/-- Every sequence of calls is answered as on the tape, and takes the bits it passes. -/
theorem run_follows (calls : List Call) : ∀ c : Cursor, ∃ bs, c.Takes bs (run call c calls).2 ∧
    run Tape.call c.tape calls = ((run call c calls).1, (run call c calls).2.tape) := by
  induction calls with
  | nil => exact fun c => ⟨[], .refl c, rfl⟩
  | cons k calls ih =>
      intro c
      obtain ⟨bs, hbs, hcall⟩ := c.follows k
      obtain ⟨cs, hcs, hrun⟩ := ih (c.call k).2
      refine ⟨bs ++ cs, hbs.trans hcs, ?_⟩
      rw [run_cons, run_cons, hcall, hrun]

/-- **A cursor is a list of bits to come.** Over a byte string it answers all calls as the bits of
it do, divided at the start and then wherever the calls have moved on to. It stands between the
first bit and the end, before as many bits as it says are left, at the end if it says so, and no
call takes it back. -/
theorem run_ofBytes (data : Array UInt8) (calls : List Call) :
    ∃ answers c, run call (ofBytes data) calls = (answers, c) ∧
      run Tape.call ⟨[], Bits.byByte data.toList⟩ calls =
        (answers, ⟨(Bits.byByte data.toList).take c.position,
          (Bits.byByte data.toList).drop c.position⟩) ∧
      c.position ≤ 8 * data.size ∧ c.position + c.remaining = 8 * data.size ∧
      (c.atEnd = true ↔ c.position = 8 * data.size) ∧
      ∀ more, c.position ≤ (run call c more).2.position := by
  obtain ⟨bs, htakes, hrun⟩ := run_follows calls (ofBytes data)
  have hstart : (ofBytes data).tape = ⟨[], Bits.byByte data.toList⟩ := by
    rw [← Bits.ofBytes_eq_byByte]
    rfl
  obtain ⟨c, hc⟩ : ∃ c, (run call (ofBytes data) calls).2 = c := ⟨_, rfl⟩
  rw [hc] at htakes hrun
  have hdata : c.data = data := htakes.data_eq
  have hle := c.position_le
  rw [hdata] at hle
  have htape : c.tape = ⟨(Bits.byByte data.toList).take c.position,
      (Bits.byByte data.toList).drop c.position⟩ := by
    rw [tape, rest, hdata, Bits.ofBytes_eq_byByte]
  refine ⟨_, c, Prod.ext rfl hc, by rw [← hstart, hrun, htape], hle, ?_, ?_, fun more => ?_⟩
  · rw [remaining, hdata, Nat.add_sub_cancel' hle]
  · rw [atEnd, hdata, decide_eq_true_iff]
    exact ⟨Nat.le_antisymm hle, fun h => h.ge⟩
  · obtain ⟨cs, hcs, -⟩ := run_follows more c
    rw [hcs.position_eq]
    exact Nat.le_add_right _ _

-- a negative integer, a width out of range, a text across bytes, and one that is cut short
example : (run call (ofBytes #[0x94, 0x10, 0x08])
    [.read (.int 4), .read (.bits64 65), .read (.text .utf8), .position, .read (.text .utf8),
      .read (.bytes (-1)), .position]).1 =
      [.yields (.int (-7)), .refused ⟨65, 64⟩, .yields (.text ['A']), .position 20, .nothing,
        .yields (.bytes []), .position 24] := by
  rfl

end Cursor

/-! ### The bytes of a packer -/

namespace Packer

/-- In the bytes of a packer lie its bits, from any of them on. -/
theorem exists_cursor {r : Packer} (h : r.Tidy) {held more : Bits}
    (hbits : r.toBits = held ++ more) :
    ∃ c : Cursor, c.data = r.toBytes ∧ c.position = held.length ∧
      ∃ zeros, c.rest = more ++ zeros := by
  have hbytes := ofBytes_toBytes h
  rw [hbits, Bits.padded, List.append_assoc] at hbytes
  have hle : held.length ≤ 8 * r.toBytes.size := by
    rw [← Array.length_toList, ← Bits.length_ofBytes, hbytes, List.length_append]
    exact Nat.le_add_right _ _
  refine ⟨⟨r.toBytes, held.length, hle⟩, rfl, rfl,
    List.replicate ((8 - (held ++ more).length % 8) % 8) false, ?_⟩
  rw [Cursor.rest, hbytes, List.drop_left]

/-- Where a write is accepted, its bits lie ahead of a cursor over the bytes of the packer, whatever
was written before it and is written after it. -/
theorem exists_ahead {capacity : Int} (hcapacity : 1 ≤ capacity) {w : Write} {bs : Bits}
    (hw : w.stands = .ok bs) (before after : List Call) :
    ∃ start p q r, withCapacity? capacity = .ok start ∧ (run call start before).2 = p ∧
      p.call (.write w) = (.accepted, q) ∧ (run call q after).2 = r ∧
      q.length = p.length + bs.length ∧
      ∃ c : Cursor, c.data = r.toBytes ∧ c.position = p.length ∧ ∃ more, c.rest = bs ++ more := by
  have hstart := tidy_withCapacity capacity.toNat (by omega)
  obtain ⟨hp, -⟩ := exists_run hstart before
  obtain ⟨q, hcall, hq, hqbits⟩ := call_of_stands hp hw
  obtain ⟨hr, more, hrbits⟩ := exists_run hq after
  rw [hqbits, List.append_assoc] at hrbits
  obtain ⟨c, hdata, hposition, zeros, hrest⟩ := exists_cursor hr hrbits
  refine ⟨_, _, q, _, dif_pos hcapacity, rfl, hcall, rfl, ?_, c, hdata, ?_, more ++ zeros, ?_⟩
  · rw [← length_toBits, hqbits, List.length_append, length_toBits]
  · rw [hposition, length_toBits]
  · rw [hrest, List.append_assoc]

end Packer

end WireSchema
