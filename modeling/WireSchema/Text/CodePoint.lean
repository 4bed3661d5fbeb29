/-!
# Text — Code points

Texts as sequences of Unicode code points. A surrogate is a code point that no character has. A
text that came from outside may hold one; such a text is no string, and the charsets replace the
surrogate.
-/

namespace WireSchema

/-- A Unicode code point, surrogates included. -/
structure CodePoint where
  val : Nat
  lt : val < 0x110000
  deriving DecidableEq, Repr

namespace CodePoint

def ofNat? (n : Nat) : Option CodePoint :=
  if h : n < 0x110000 then some ⟨n, h⟩ else none

def ofChar (c : Char) : CodePoint :=
  ⟨c.toNat, by
    have h := c.valid
    simp only [UInt32.isValidChar, Nat.isValidChar] at h
    show c.val.toNat < 0x110000
    omega⟩

/-- Surrogates stand for halves of characters and have no text of their own. -/
def isSurrogate (p : CodePoint) : Bool :=
  decide (0xd800 ≤ p.val) && decide (p.val ≤ 0xdfff)

/-- The code point of a number; past the last one, that of the replacement character. -/
def ofNat (n : Nat) : CodePoint :=
  if h : n < 0x110000 then ⟨n, h⟩ else ⟨0xfffd, by decide⟩

/-- The character of a code point, if it has one. -/
def toChar? (p : CodePoint) : Option Char :=
  if p.isSurrogate then none else some (Char.ofNat p.val)

end CodePoint

/-- A text: code points, surrogates included. -/
abbrev Text := List CodePoint

instance : LawfulBEq Text := inferInstance

namespace Text

/-- The text of characters; there is no surrogate in it. -/
def ofChars (cs : List Char) : Text := cs.map CodePoint.ofChar

/-- The text of a string. -/
def ofString (s : String) : Text := ofChars s.toList

instance : Coe String Text := ⟨ofString⟩

/-- The order of texts, by their first code points that differ. -/
def precedes (t u : Text) : Bool := t.lex u fun p q => p.val < q.val

/-- The string of a text, if there is no surrogate in it. -/
def string? (t : Text) : Option String := String.ofList <$> t.mapM CodePoint.toChar?

end Text

end WireSchema
