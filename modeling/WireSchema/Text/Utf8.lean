import WireSchema.Text.CodePoint

/-!
# Text — UTF-8

The one- to four-byte forms. Encoding writes `?` for a surrogate, which has no form. Decoding reads
byte by byte: a `Pending` is a form that has begun, with the range that its next byte must lie in.
A byte outside that range ends the form, and the bytes read so far count as one U+FFFD; the byte
itself then begins anew. The range of the second byte is what keeps out overlong forms, surrogates
and numbers above U+10FFFF, so no valid byte is ever swallowed.
-/

namespace WireSchema

namespace Utf8

/-- The substitute for a code point that has no form. -/
def substitute : UInt8 := 0x3f

/-- What a form that is cut short or out of range is read as. -/
def replacement : Char := '\ufffd'

/-- A continuation byte with six bits of payload. -/
def continuation (n : Nat) : UInt8 := UInt8.ofNat (0x80 + n % 64)

/-- The form of one code point. -/
def encodePoint (p : CodePoint) : List UInt8 :=
  let n := p.val
  if n < 0x80 then [UInt8.ofNat n]
  else if n < 0x800 then [UInt8.ofNat (0xc0 + n / 64), continuation n]
  else if p.isSurrogate then [substitute]
  else if n < 0x10000 then
    [UInt8.ofNat (0xe0 + n / 4096), continuation (n / 64), continuation n]
  else
    [UInt8.ofNat (0xf0 + n / 262144), continuation (n / 4096), continuation (n / 64),
      continuation n]

def encode (text : Text) : List UInt8 := text.flatMap encodePoint

/-- A form that has begun: the payload so far, the number of bytes still missing, and the range
of the next one. -/
structure Pending where
  payload : Nat
  missing : Nat
  low : UInt8 := 0x80
  high : UInt8 := 0xbf

/-- What the first byte of a form says. -/
inductive Lead
  | complete (c : Char)
  | incomplete (p : Pending)
  | invalid

def lead (b : UInt8) : Lead :=
  let n := b.toNat
  if n < 0x80 then .complete (Char.ofNat n)
  else if n < 0xc2 then .invalid
  else if n < 0xe0 then .incomplete ⟨n - 0xc0, 1, 0x80, 0xbf⟩
  else if n == 0xe0 then .incomplete ⟨0, 2, 0xa0, 0xbf⟩
  else if n == 0xed then .incomplete ⟨0xd, 2, 0x80, 0x9f⟩
  else if n < 0xf0 then .incomplete ⟨n - 0xe0, 2, 0x80, 0xbf⟩
  else if n == 0xf0 then .incomplete ⟨0, 3, 0x90, 0xbf⟩
  else if n < 0xf4 then .incomplete ⟨n - 0xf0, 3, 0x80, 0xbf⟩
  else if n == 0xf4 then .incomplete ⟨4, 3, 0x80, 0x8f⟩
  else .invalid

/-- Reads a byte that begins a form: the characters it completes, and the form it leaves open. -/
def begin (b : UInt8) : List Char × Option Pending :=
  match lead b with
  | .complete c => ([c], none)
  | .incomplete p => ([], some p)
  | .invalid => ([replacement], none)

/-- Reads one byte. -/
def step : Option Pending → UInt8 → List Char × Option Pending
  | none, b => begin b
  | some p, b =>
      if p.low ≤ b ∧ b ≤ p.high then
        let payload := p.payload * 64 + b.toNat % 64
        if p.missing ≤ 1 then ([Char.ofNat payload], none)
        else ([], some ⟨payload, p.missing - 1, 0x80, 0xbf⟩)
      else
        let (chars, next) := begin b
        (replacement :: chars, next)

/-- The characters read from the state `open?` on. -/
def decodeFrom : Option Pending → List UInt8 → List Char
  | none, [] => []
  | some _, [] => [replacement]
  | state, b :: bytes =>
      let (chars, next) := step state b
      chars ++ decodeFrom next bytes

def decode (bytes : List UInt8) : List Char := decodeFrom none bytes

/-- Whether a byte occurs in some form of a character other than NUL. -/
def isTextByte (b : Int) : Bool :=
  (decide (0 < b) && decide (b < 0xc0)) || (decide (0xc2 ≤ b) && decide (b ≤ 0xf4))

/-- Whether a code point comes back unchanged from a zero-terminated field. -/
def isTextPoint (p : CodePoint) : Bool := p.val != 0 && !p.isSurrogate

end Utf8

end WireSchema
