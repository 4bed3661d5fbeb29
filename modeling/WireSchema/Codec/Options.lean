import WireSchema.Number.Numeral

/-!
# Codec — Options

How strictly a value is encoded, and what a decoder reports.
-/

namespace WireSchema

/-- Options of one encode or decode call. -/
structure Options where
  /-- Bytes that the writer's buffer starts with. -/
  capacity : Nat := 8
  /-- Refuse an array whose length is not the resolved one. -/
  strictArrays : Bool := false
  /-- Refuse a value that does not conform to its type before anything is written. -/
  validateValues : Bool := false
  /-- Refuse an encoding of more bytes than this. -/
  maxBytes : Option Nat := none
  /-- Report whole bytes left unread. -/
  warnTrailingBytes : Bool := true
  capacity_pos : 0 < capacity := by decide

/-- Why options are refused. -/
inductive OptionsError
  | capacity (given : Int)
  | maxBytes (given : Int)
  deriving DecidableEq, Repr

namespace OptionsError

def message (e : OptionsError) : Text :=
  Numeral.message do
    match e with
    | capacity given =>
        let given ← Numeral.ofInt given
        return "initial_buffer_bytes must be > 0, got " ++ given
    | maxBytes given =>
        let given ← Numeral.ofInt given
        return "max_bytes must be >= 0, got " ++ given

end OptionsError

namespace Options

/-- The options with these numbers, if they are in range. -/
def make (capacity : Int) (strictArrays validateValues : Bool) (maxBytes : Option Int)
    (warnTrailingBytes : Bool) : Except OptionsError Options :=
  if h : capacity ≤ 0 then .error (.capacity capacity)
  else
    match maxBytes with
    | some limit =>
        if limit < 0 then .error (.maxBytes limit)
        else .ok ⟨capacity.toNat, strictArrays, validateValues, some limit.toNat,
          warnTrailingBytes, by omega⟩
    | none =>
        .ok ⟨capacity.toNat, strictArrays, validateValues, none, warnTrailingBytes, by omega⟩

end Options

end WireSchema
