import WireSchema.Number.Format

/-!
# Number — Decimals

Decimals and the doubles they stand for. `Decimal.toBinary64` reads a decimal as the nearest
double. `Decimal.shortest` goes back: the decimal with the fewest digits that reads back as a
given double, and the nearest of those. `FloatStyle.render` writes it out.
-/

namespace WireSchema

/-- The number `digits * 10 ^ exponent`. -/
structure Decimal where
  digits : Nat
  exponent : Int
  deriving DecidableEq, Repr

namespace Decimal

/-- The number of decimal digits of `n`. -/
def length (n : Nat) : Nat := (Nat.toDigits 10 n).length

/-- The number that a list of digits spells. -/
def ofDigits (cs : List Char) : Nat :=
  cs.foldl (fun n c => 10 * n + (c.toNat - 48)) 0

/-- The numerator and denominator of a decimal. -/
def ratio (d : Decimal) : Nat × Nat :=
  if 0 ≤ d.exponent then (d.digits * Nat.pow 10 d.exponent.toNat, 1)
  else (d.digits, Nat.pow 10 (-d.exponent).toNat)

/-- The double nearest to a decimal, with a sign. What is at least `10 ^ 309` is an infinity and
what is below `10 ^ (-324)` a zero; the power of ten is worked out only in between. -/
def toBinary64 (negative : Bool) (d : Decimal) : Binary64 :=
  let top := d.exponent + length d.digits
  if d.digits = 0 ∨ top ≤ -324 then Binary.ofMagnitude _ negative 0
  else if 310 ≤ top then Binary64.infinity negative
  else Binary64.ofRatio negative d.ratio.1 d.ratio.2

/-- The exponent of the leading digit of `num / den`, which is positive. -/
def leadingExponent (num den : Nat) : Int :=
  if den ≤ num then (length (num / den) : Int) - 1
  else -(length ((den - 1) / num) : Int)

/-- The decimal of the most precise digit `10 ^ exponent` that is next to `num / den` and reads
back as `x`: of the two neighbours the nearer, if both do, and the even one of two that are as
near. -/
def neighbour? (x : Binary64) (num den : Nat) (exponent : Int) : Option Decimal :=
  let (n, d) :=
    if 0 ≤ exponent then (num, den * Nat.pow 10 exponent.toNat)
    else (num * Nat.pow 10 (-exponent).toNat, den)
  let below : Decimal := ⟨n / d, exponent⟩
  let above : Decimal := ⟨n / d + 1, exponent⟩
  let reads (c : Decimal) : Bool := decide (c.toBinary64 x.negative = x)
  let nearer := roundHalfEven n d
  let first := if nearer = below.digits then below else above
  let second := if nearer = below.digits then above else below
  if reads first then some first
  else if reads second then some second
  else none

/-- Takes away the zeros a decimal ends in. -/
def trim (d : Decimal) : Decimal :=
  go (length d.digits) d
where
  go : Nat → Decimal → Decimal
    | 0, d => d
    | fuel + 1, d =>
        if d.digits % 10 = 0 ∧ d.digits ≠ 0 then go fuel ⟨d.digits / 10, d.exponent + 1⟩ else d

/-- The size of a finite double as a decimal, digit for digit: the powers of two in the
denominator become powers of ten. -/
def exact (x : Binary64) : Decimal :=
  ⟨x.units * Nat.pow 5 Format.double.scale, -(Format.double.scale : Int)⟩

/-- The size of a finite double in the fewest digits that read back, seventeen at most. -/
def shortest (x : Binary64) : Decimal :=
  if x.magnitude = 0 then ⟨0, 0⟩
  else
    let num := x.units
    let den := Nat.pow 2 Format.double.scale
    let top := leadingExponent num den
    let found := (List.range 17).findSome? fun (k : Nat) => neighbour? x num den (top - k)
    trim (found.getD (exact x))

end Decimal

/-- The words of a float style for what is no finite number. -/
structure FloatStyle where
  infinity : String
  nan : String

namespace FloatStyle

/-- Digits with the point behind the first `point` of them: positional for leading exponents from
-4 to 15, always with a digit behind the point, and with an exponent of at least two digits
otherwise. -/
def place (digits : List Char) (point : Int) : List Char :=
  if -4 < point ∧ point ≤ 16 then
    if point ≤ 0 then ['0', '.'] ++ List.replicate (-point).toNat '0' ++ digits
    else
      let n := point.toNat
      if digits.length ≤ n then
        digits ++ List.replicate (n - digits.length) '0' ++ ['.', '0']
      else digits.take n ++ '.' :: digits.drop n
  else
    let e := point - 1
    let tail := if digits.length ≤ 1 then [] else '.' :: digits.drop 1
    let power := Nat.toDigits 10 e.natAbs
    digits.take 1 ++ tail ++ 'e' :: (if e < 0 then '-' else '+') ::
      List.replicate (2 - power.length) '0' ++ power

/-- A double in the fewest digits that read back. -/
def render (style : FloatStyle) (x : Binary64) : String :=
  let sign := if x.negative then "-" else ""
  if x.isNaN then style.nan
  else if x.isInfinite then sign ++ style.infinity
  else
    let d := Decimal.shortest x
    let digits := Nat.toDigits 10 d.digits
    sign ++ String.ofList (place digits (d.exponent + digits.length))

end FloatStyle

end WireSchema
