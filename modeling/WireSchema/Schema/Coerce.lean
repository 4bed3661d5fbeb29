import WireSchema.Bits
import WireSchema.Schema.Problem
import WireSchema.Schema.Spelling
import WireSchema.Value

/-!
# Schema — Loose scalars

The scalars of a payload may be spelled loosely: an integer as a text, a truth value as a word or
a number, and so on. Each function reads one kind of scalar from a value, or says why it cannot.
-/

namespace WireSchema

namespace Coerce

/-- The integer equal to a double of a size that 64 bits hold. -/
def integerOfFloat (x : Binary64) : Except ProblemKind Int :=
  if !x.isFinite then .error .finiteNumber
  else
    match x.toInt? with
    | none => .error .intFromFloat
    | some i => if i.natAbs < Nat.pow 2 63 then .ok i else .error .intParsingSize

/-- What a text spells; one with a surrogate in it spells nothing. -/
def spelled {α : Type} (spelling : String → Except ProblemKind α) (t : Text) :
    Except ProblemKind α :=
  t.string?.elim (.error .stringUnicode) spelling

def integer : Value → Except ProblemKind Int
  | .int i => .ok i
  | .bool b => .ok (if b then 1 else 0)
  | .float x => integerOfFloat x
  | .text t => spelled Spelling.integer t
  | _ => .error .intType

/-- The truth value of zero and one. -/
def boolOfInteger (i : Int) : Except ProblemKind Bool :=
  if i = 0 then .ok false else if i = 1 then .ok true else .error .boolParsing

def bool : Value → Except ProblemKind Bool
  | .bool b => .ok b
  | .int i => if Bits.fits true 64 i then boolOfInteger i else .error .boolType
  | .float x =>
      match integerOfFloat x with
      | .ok i => boolOfInteger i
      | .error _ => .error .boolType
  | .text t => spelled (fun s => (Spelling.bool? s).elim (.error .boolParsing) .ok) t
  | _ => .error .boolType

/-- An integer beyond the range of doubles is infinity in a text, and no float in a tree. -/
def float (source : PayloadSource) : Value → Except ProblemKind Binary64
  | .float x => .ok x
  | .int i =>
      let x := Binary64.ofInt i
      if x.isFinite || source == .text then .ok x else .error .floatType
  | .bool b => .ok (if b then Binary64.one else Binary64.zero)
  | .text t => spelled (fun s => (Spelling.float? s).elim (.error .floatParsing) .ok) t
  | _ => .error .floatType

def text : Value → Except ProblemKind Text
  | .text t => .ok t
  | _ => .error .stringType

end Coerce

end WireSchema
