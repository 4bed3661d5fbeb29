/-!
# Number — Format

Binary floating-point numbers as bit patterns, after IEEE 754, with exact arithmetic on natural
numbers. `Format` gives the shape (`Format.single`, `Format.double`), `Binary f` a pattern of it.

Every finite number of a format is a whole multiple of its smallest positive one; `units` is that
multiple. So `x` stands for `x.units / 2 ^ f.scale`, and the patterns of the non-negative numbers
run in the order of their values. `Format.nearest` is the one place where a value is rounded:
narrowing, widening, and the conversion of integers and of decimals all go through it.
-/

namespace WireSchema

/-- The shape of a binary floating-point format. -/
structure Format where
  /-- Bits of the significand, the leading one included. -/
  precision : Nat
  /-- Bits of the exponent field. -/
  exponentBits : Nat
  deriving DecidableEq, Repr

namespace Format

def single : Format := ⟨24, 8⟩

def double : Format := ⟨53, 11⟩

/-- Bits of a pattern: the sign, the exponent field and the significand without its leading one. -/
def width (f : Format) : Nat := f.precision + f.exponentBits

/-- `2 ^ scale` of the smallest positive number make one. -/
def scale (f : Format) : Nat := Nat.pow 2 (f.exponentBits - 1) + f.precision - 3

/-- Patterns of one exponent. -/
def binade (f : Format) : Nat := Nat.pow 2 (f.precision - 1)

/-- The pattern of positive infinity; the larger patterns below the sign bit are not numbers. -/
def infinity (f : Format) : Nat := (Nat.pow 2 f.exponentBits - 1) * f.binade

/-- The sign bit of a pattern. -/
def signBit (f : Format) : Nat := Nat.pow 2 (f.width - 1)

/-- The multiple of the smallest positive number that a pattern without sign stands for. -/
def units (f : Format) (magnitude : Nat) : Nat :=
  if magnitude < f.binade then magnitude
  else (f.binade + magnitude % f.binade) * Nat.pow 2 (magnitude / f.binade - 1)

end Format

/-- `num / den` rounded to a whole number, a half going to the even neighbour. -/
def roundHalfEven (num den : Nat) : Nat :=
  let q := num / den
  let r := 2 * (num % den)
  if r < den then q
  else if den < r then q + 1
  else q + q % 2

namespace Format

/-- The pattern of the number nearest to `num / den`, a tie going to the even pattern; from half
a step above the largest finite number on, that of infinity.

In units of the smallest positive number the value is `n = num * 2 ^ scale / den`. The numbers
around it are `2 ^ k` units apart, where `k` is how far `n` outgrows the precision; rounding to a
multiple of that and counting binades gives the pattern, and a carry into the next binade needs
no case of its own. -/
def nearest (f : Format) (num den : Nat) : Nat :=
  let n := num * Nat.pow 2 f.scale
  let k := (n / den).log2 + 1 - f.precision
  min (k * f.binade + roundHalfEven n (den * Nat.pow 2 k)) f.infinity

end Format

/-- A bit pattern of a format. -/
structure Binary (f : Format) where
  pattern : Nat
  lt : pattern < Nat.pow 2 f.width
  deriving DecidableEq

/-- Double-precision numbers, the only ones that values hold. -/
abbrev Binary64 := Binary Format.double

/-- Single-precision numbers, which stand on the wire only. -/
abbrev Binary32 := Binary Format.single

namespace Binary

variable {f g : Format}

/-- The pattern a natural number ends in. -/
def ofNat (f : Format) (n : Nat) : Binary f :=
  ⟨n % Nat.pow 2 f.width, Nat.mod_lt _ (Nat.two_pow_pos _)⟩

/-- Whether the sign bit is set. -/
def negative (x : Binary f) : Bool := decide (f.signBit ≤ x.pattern)

/-- The pattern without the sign bit. -/
def magnitude (x : Binary f) : Nat := x.pattern % f.signBit

/-- The number of this magnitude pattern and sign. -/
def ofMagnitude (f : Format) (negative : Bool) (magnitude : Nat) : Binary f :=
  ofNat f (magnitude + if negative then f.signBit else 0)

def isNaN (x : Binary f) : Bool := decide (f.infinity < x.magnitude)

def isInfinite (x : Binary f) : Bool := decide (x.magnitude = f.infinity)

def isFinite (x : Binary f) : Bool := decide (x.magnitude < f.infinity)

/-- The size of a finite number in units of the smallest positive one. -/
def units (x : Binary f) : Nat := f.units x.magnitude

/-- The pattern of "not a number" that no operation has put a payload into. -/
def quietNaN (f : Format) (negative : Bool := false) : Binary f :=
  ofMagnitude f negative (f.infinity + f.binade / 2)

/-- The number of format `g` nearest to `x`. An infinity stays one and keeps its sign, as a zero
does. "Not a number" becomes quiet and keeps the leading bits of its payload. -/
def convert (g : Format) (x : Binary f) : Binary g :=
  if x.isNaN then
    let payload := (x.magnitude - f.infinity) * g.binade / f.binade
    ofMagnitude g x.negative (g.infinity + (payload ||| g.binade / 2))
  else if x.isInfinite then ofMagnitude g x.negative g.infinity
  else ofMagnitude g x.negative (g.nearest x.units (Nat.pow 2 f.scale))

end Binary

namespace Binary64

/-- The single-precision number nearest to a double. -/
def narrow (x : Binary64) : Binary32 := x.convert Format.single

/-- The double equal to a single-precision number. -/
def widen (x : Binary32) : Binary64 := x.convert Format.double

def zero : Binary64 := Binary.ofNat _ 0

def one : Binary64 := Binary.ofNat _ 0x3ff0000000000000

def infinity (negative : Bool := false) : Binary64 :=
  Binary.ofMagnitude _ negative Format.double.infinity

/-- The double nearest to `num / den`, with a sign. -/
def ofRatio (negative : Bool) (num den : Nat) : Binary64 :=
  Binary.ofMagnitude _ negative (Format.double.nearest num den)

/-- The double nearest to an integer; an infinity beyond the finite range. -/
def ofInt (i : Int) : Binary64 := ofRatio (decide (i < 0)) i.natAbs 1

/-- The integer a finite double is equal to, if it is one. -/
def toInt? (x : Binary64) : Option Int :=
  let one := Nat.pow 2 Format.double.scale
  if x.isFinite && x.units % one == 0 then
    let n : Int := (x.units / one : Nat)
    some (if x.negative then -n else n)
  else none

/-- Whether two doubles are equal as numbers: zeros are whatever their signs, and "not a number"
is equal to nothing. -/
def sameNumber (x y : Binary64) : Bool :=
  !x.isNaN && !y.isNaN && (x.pattern == y.pattern || (x.magnitude == 0 && y.magnitude == 0))

end Binary64

end WireSchema
