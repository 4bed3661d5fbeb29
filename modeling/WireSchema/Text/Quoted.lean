import WireSchema.Text.CodePoint
import WireSchema.Text.Hex
import WireSchema.Text.Printable

/-!
# Text — Quoted text

A text between quotes, so that it reads unambiguously within a message: single quotes, or double
ones if the text holds a single quote and no double one. The quote itself, the backslash and all
that is not printable are escaped. A text that is shown without quotes needs an escape only for its
surrogates.
-/

namespace WireSchema

namespace Quoted

/-- A code point by its number, in as few digits as it takes. -/
def escapeCode (p : CodePoint) : List Char :=
  if p.val < 0x100 then '\\' :: 'x' :: Hex.digits 2 p.val
  else if p.val < 0x10000 then '\\' :: 'u' :: Hex.digits 4 p.val
  else '\\' :: 'U' :: Hex.digits 8 p.val

/-- A character within quotes. -/
def escapeChar (quote c : Char) : List Char :=
  if c = quote ∨ c = '\\' then ['\\', c]
  else if c = '\n' then ['\\', 'n']
  else if c = '\r' then ['\\', 'r']
  else if c = '\t' then ['\\', 't']
  else if Printable.isPrintable (.ofChar c) then [c]
  else escapeCode (.ofChar c)

/-- A code point within quotes. -/
def escape (quote : Char) (p : CodePoint) : List Char :=
  match p.toChar? with
  | some c => escapeChar quote c
  | none => escapeCode p

/-- The quote for a text. -/
def quoteOf (t : Text) : Char :=
  if t.contains (.ofChar '\'') && !t.contains (.ofChar '"') then '"' else '\''

/-- A text between quotes. -/
def quoted (t : Text) : Text :=
  let quote := quoteOf t
  Text.ofChars (quote :: t.flatMap (escape quote) ++ [quote])

end Quoted

/-- A text where only characters can be shown: surrogates stand as escapes. -/
def Text.shown (t : Text) : String :=
  String.ofList (t.flatMap fun p => p.toChar?.elim (Quoted.escapeCode p) ([·]))

end WireSchema
