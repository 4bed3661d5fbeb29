import WireSchema.Json.Reader
import WireSchema.Number.Numeral
import WireSchema.Schema.Problem
import WireSchema.Text.Blank

/-!
# Schema — Spellings

Integers, floats and truth values as texts spell them. Each may be spelled more loosely than a
payload writes it.
-/

namespace WireSchema

namespace Spelling

/-- The letters of ASCII in lower case. -/
def lowercase (cs : List Char) : List Char := cs.map Char.toLower

/-- Takes a sign; true for a minus. -/
def takeSign : List Char → Bool × List Char
  | '-' :: cs => (true, cs)
  | '+' :: cs => (false, cs)
  | cs => (false, cs)

/-- Takes out the underscores of a number, if each stands alone between digits. -/
def dropUnderscores (cs : List Char) : List Char :=
  let alone := !(cs.zip (cs.drop 1)).any fun (a, b) => a == '_' && b == '_'
  if alone && cs.head? != some '_' && cs.getLast? != some '_' then cs.filter (· ≠ '_') else cs

/-- A minus that may be missing, and digits that do not begin with an idle zero. -/
def strictInteger (cs : List Char) : Except ProblemKind Int :=
  let (negative, digits) :=
    match cs with
    | '-' :: cs => (true, cs)
    | cs => (false, cs)
  match Json.whole? digits with
  | none => .error .intParsing
  | some (whole, left) =>
      if Numeral.mostDigits < whole.length then .error .intParsingSize
      else if left.isEmpty then
        let n : Int := Decimal.ofDigits whole
        .ok (if negative then -n else n)
      else .error .intParsing

/-- Whether a character begins an integer that has no zeros before it. -/
def beginsInteger (c : Char) : Bool := (Json.isDigit c && c != '0') || c == '-'

/-- What follows zeros and underscores, with one of them kept if no integer begins there but a point
stands there, or nothing; `last` is the one just before. -/
def skipZeros (last : Char) : List Char → Option (List Char)
  | [] => some [last]
  | c :: cs =>
      if c = '0' ∨ c = '_' then skipZeros c cs
      else if beginsInteger c then some (c :: cs)
      else if c = '.' then some (last :: c :: cs)
      else none

/-- An integer without the zeros before it. -/
def dropZeros : List Char → Option (List Char)
  | [] => none
  | c :: cs =>
      if c = '0' then skipZeros c cs else if beginsInteger c then some (c :: cs) else none

/-- An integer without a point that has nothing but zeros behind it, and at least one. -/
def dropFraction (cs : List Char) : List Char :=
  match cs.dropWhile (· ≠ '.') with
  | _ :: zeros =>
      if !zeros.isEmpty && zeros.all (· = '0') then cs.takeWhile (· ≠ '.') else cs
  | [] => cs

/-- The strict spelling that a loose one amounts to, if it is one: blanks around it, a plus, zeros
before it, a point with zeros behind it and single underscores make no difference. The minus may
stand before the zeros or behind them. -/
def tidyInteger (cs : List Char) : Option (List Char) :=
  let plain (cs : List Char) : Option (List Char) :=
    (dropZeros cs).map fun cs => dropUnderscores (dropFraction cs)
  match Blank.trim cs with
  | '+' :: '-' :: _ | '-' :: '+' :: _ => none
  | '+' :: cs => plain cs
  | '-' :: cs => (plain cs).map ('-' :: ·)
  | cs => plain cs

/-- A text that spells an integer, strictly or loosely. -/
def integer (s : String) : Except ProblemKind Int :=
  match strictInteger s.toList with
  | .error .intParsing =>
      match tidyInteger s.toList with
      | some cs => strictInteger cs
      | none => .error .intParsing
  | outcome => outcome

/-- A number of digits, perhaps a point among them, and perhaps an exponent. -/
def decimalOfText? (cs : List Char) : Option Decimal :=
  let whole := cs.takeWhile Json.isDigit
  let cs := cs.dropWhile Json.isDigit
  let (fraction, cs) :=
    match cs with
    | '.' :: cs => (cs.takeWhile Json.isDigit, cs.dropWhile Json.isDigit)
    | cs => ([], cs)
  if whole.isEmpty && fraction.isEmpty then none
  else
    let d (e : Int) : Decimal := ⟨Decimal.ofDigits (whole ++ fraction), e - fraction.length⟩
    match cs with
    | [] => some (d 0)
    | cs =>
        match Json.exponent? cs with
        | some (e, []) => some (d e)
        | _ => none

/-- A text that spells a float; the words for infinity and "not a number" in either case. -/
def floatOfChars? (cs : List Char) : Option Binary64 :=
  let (negative, cs) := takeSign cs
  let word := String.ofList (lowercase cs)
  if word = "inf" ∨ word = "infinity" then some (Binary64.infinity negative)
  else if word = "nan" then some (Binary.quietNaN _ negative)
  else (decimalOfText? cs).map (·.toBinary64 negative)

/-- A text that spells a float; blanks around it make no difference, nor do single underscores. -/
def float? (s : String) : Option Binary64 :=
  let cs := s.toList
  match floatOfChars? (Blank.trim cs) with
  | some x => some x
  | none => floatOfChars? (dropUnderscores cs)

/-- A word for a truth value, in either case. -/
def bool? (s : String) : Option Bool :=
  let word := String.ofList (lowercase s.toList)
  if word ∈ ["0", "off", "f", "false", "n", "no"] then some false
  else if word ∈ ["1", "on", "t", "true", "y", "yes"] then some true
  else none

end Spelling

end WireSchema
