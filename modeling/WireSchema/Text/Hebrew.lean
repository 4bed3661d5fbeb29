import WireSchema.Text.CodePoint

/-!
# Text — Hebrew alphabet

A single-byte alphabet: the letters and final letters in order, from `0xd0` on, and six marks of
punctuation from `0xf0` on. All else is written as `?`, and a byte outside the table is read as
`?`.
-/

namespace WireSchema

namespace Hebrew

/-- The byte of a character outside the alphabet. -/
def unknownByte : UInt8 := 0x3f

/-- The character of a byte outside the alphabet. -/
def unknownChar : Char := '?'

/-- The alphabet with its bytes. -/
def table : List (Char × UInt8) :=
  [('א', 0xd0), ('ב', 0xd1), ('ג', 0xd2), ('ד', 0xd3), ('ה', 0xd4), ('ו', 0xd5), ('ז', 0xd6),
    ('ח', 0xd7), ('ט', 0xd8), ('י', 0xd9), ('ך', 0xda), ('כ', 0xdb), ('ל', 0xdc), ('ם', 0xdd),
    ('מ', 0xde), ('ן', 0xdf), ('נ', 0xe0), ('ס', 0xe1), ('ע', 0xe2), ('ף', 0xe3), ('פ', 0xe4),
    ('ץ', 0xe5), ('צ', 0xe6), ('ק', 0xe7), ('ר', 0xe8), ('ש', 0xe9), ('ת', 0xea), (' ', 0xf0),
    ('(', 0xf1), (')', 0xf2), ('\'', 0xf3), ('-', 0xf4), ('"', 0xf5)]

/-- The byte of a code point of the alphabet. -/
def byte? (p : CodePoint) : Option UInt8 :=
  (table.find? fun entry => entry.1.toNat == p.val).map (·.2)

/-- The character of a byte of the alphabet. -/
def char? (b : UInt8) : Option Char :=
  (table.find? fun entry => entry.2 == b).map (·.1)

def encode (text : Text) : List UInt8 :=
  text.map fun p => (byte? p).getD unknownByte

def decode (bytes : List UInt8) : List Char :=
  bytes.map fun b => (char? b).getD unknownChar

/-- Whether a byte stands for a character of the alphabet. -/
def isTextByte (b : Int) : Bool :=
  table.any fun entry => (entry.2.toNat : Int) == b

/-- Whether a code point is a character of the alphabet. -/
def isTextPoint (p : CodePoint) : Bool := (byte? p).isSome

end Hebrew

end WireSchema
