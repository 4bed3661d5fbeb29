import WireSchema.Bits.Write
import WireSchema.Codec.Path
import WireSchema.Value.Display

/-!
# Codec — Failures

All that can go wrong between a value, a schema and a message, as causes. `Fault.message` words
them, `Fault.kind` says which of the sides is to blame. A failure carries the path of the position
at which it arose, where there is one. `Failure.raised` is what a caller is given for a failure: for
a fault, if it can be worded, an error of the codec.
-/

namespace WireSchema

/-- Who is to blame for a fault. -/
inductive FaultKind
  | schema
  | resolution
  | encode
  | decode
  deriving DecidableEq, Repr

namespace FaultKind

def name : FaultKind → String
  | schema => "SchemaError"
  | resolution => "ResolutionError"
  | encode => "EncodeError"
  | decode => "DecodeError"

end FaultKind

/-- A cause of failure. -/
inductive Fault
  | unknownStruct (name : Text)
  | unknownEnum (name : Text)
  /-- A string field's kind that no charset has. -/
  | unknownCharset (kind : Text)
  /-- An enum from which no default can be taken. -/
  | emptyEnum (name : Text)
  /-- A struct whose default would contain itself. -/
  | endlessDefault (name : Text)
  /-- No case for the label that a default selects; no label if the enum has none. -/
  | noDefaultCase (discriminant : Text) (label? : Option Text)
  | noMeasuredCase (label : Text)
  /-- A value of the wrong shape, with the word for its type. -/
  | expectedInt (got : String)
  | expectedFloat (got : String)
  | expectedText (charset : Charset) (got : String)
  | expectedMap (struct : Text) (got : String)
  | expectedList (got : String)
  | unknownLabel (value : Value) (enumName : Text)
  | unwrittenDiscriminant (field : Text)
  | unwrittenLength (field : Text)
  | noWrittenCase (label enumName : Text)
  | lengthMismatch (expected got : Nat)
  | mismatch (struct : Text)
  | tooLarge (size limit : Nat)
  | unreadDiscriminant (field : Text)
  | unreadLength (field : Text)
  | noReadCase (label : Text)
  | unknownCode (code : Int) (enumName : Text)

namespace Fault

def kind : Fault → FaultKind
  | unknownStruct _ | unknownEnum _ | unknownCharset _ | emptyEnum _ | endlessDefault _
  | noDefaultCase .. | noMeasuredCase _ | unknownLabel .. | noWrittenCase .. | noReadCase _ =>
      .schema
  | unwrittenDiscriminant _ | unwrittenLength _ | unreadDiscriminant _ | unreadLength _ =>
      .resolution
  | expectedInt _ | expectedFloat _ | expectedText .. | expectedMap .. | expectedList _
  | lengthMismatch .. | mismatch _ | tooLarge .. => .encode
  | unknownCode .. => .decode

/-- The message for a cause; `display` is how it shows a value. There is no message about an
integer without a numeral. -/
def messageWith (display : Value → Except Numeral.TooLong Text) :
    Fault → Except Numeral.TooLong Text
  | unknownStruct name => return "Unknown struct '" ++ name ++ "'"
  | unknownEnum name => return "Unknown enum '" ++ name ++ "'"
  | unknownCharset kind => return "No character codec for field kind '" ++ kind ++ "'"
  | emptyEnum name => return "Enum '" ++ name ++ "' has no entries"
  | endlessDefault name => return "Struct '" ++ name ++ "' has no finite default value"
  | noDefaultCase discriminant label? =>
      let label := label?.getD "None"
      return "No variant in match '" ++ discriminant ++ "' for enum value '" ++ label ++ "'"
  | noMeasuredCase label => return "No case in match for enum value '" ++ label ++ "'"
  | expectedInt got => return "expected int, got " ++ got
  | expectedFloat got => return "expected float, got " ++ got
  | expectedText charset got => return "expected string for " ++ charset.kind ++ ", got " ++ got
  | expectedMap struct got => return "expected mapping for struct '" ++ struct ++ "', got " ++ got
  | expectedList got => return "expected array, got " ++ got
  | unknownLabel value enumName => do
      let value ← display value
      return "Enum variant '" ++ value ++ "' not found in enum '" ++ enumName ++ "'"
  | unwrittenDiscriminant field =>
      return "Discriminant '" ++ field ++ "' is not resolved before this field"
  | unwrittenLength field =>
      return "Dynamic array length field '" ++ field ++ "' missing or not an integer"
  | noWrittenCase label enumName =>
      return "Variant '" ++ label ++ "' not found in cases for enum '" ++ enumName ++ "'"
  | lengthMismatch expected got => do
      let expected ← Numeral.ofInt expected
      let got ← Numeral.ofInt got
      return "Array length mismatch: expected " ++ expected ++ ", got " ++ got
  | mismatch struct => return "Value does not match struct '" ++ struct ++ "'"
  | tooLarge size limit => do
      let size ← Numeral.ofInt size
      let limit ← Numeral.ofInt limit
      return "Encoded message size (" ++ size ++ " bytes) exceeds max_bytes=" ++ limit
  | unreadDiscriminant field => return "Discriminant '" ++ field ++ "' not available or not a label"
  | unreadLength field => return "Dynamic array length field '" ++ field ++ "' missing or invalid"
  | noReadCase label => return "No match case for '" ++ label ++ "'"
  | unknownCode code enumName => do
      let code ← Numeral.ofInt code
      return "Unknown enum value '" ++ code ++ "' for enum '" ++ enumName ++ "'"

def message : Fault → Except Numeral.TooLong Text := messageWith Value.display

end Fault

/-- Why a computation over a schema has no result. -/
inductive Failure
  | fault (cause : Fault) (path? : Option Path)
  /-- The bit layer was asked for a width that it does not know. -/
  | badWidth (e : WidthError)
  /-- What is asked for as a size is none of the modes there are. -/
  | badMode (given : Value)
  /-- A number beyond the range of doubles met an infinity. -/
  | overflow
  /-- There is no buffer of so many bytes. -/
  | noBuffer (capacity : Nat)
  /-- Structs were opened inside one another beyond the bound on their nesting. -/
  | tooDeep

/-- What a caller is given in place of a result. -/
inductive Raised
  /-- An error of the codec. -/
  | error (kind : FaultKind) (message : Text) (path? : Option Path)
  /-- An argument is out of range, or a message fails for an integer without a numeral. -/
  | valueError (message : Text)
  | overflowError (message : Text)
  /-- Calls lie too deep inside one another. -/
  | recursionError

namespace Raised

/-- A message with the path before it, where there is a path to show. -/
def text (path message : Text) : Text :=
  if path.isEmpty then message else path ++ ": " ++ message

/-- What is raised on one line. -/
def render : Raised → Text
  | error _ message path? => text ((path?.map (·.render)).getD "") message
  | valueError message | overflowError message => message
  | recursionError => "maximum recursion depth exceeded"

end Raised

/-- What is raised for a fault, given its message. -/
def Fault.raised (cause : Fault) (message : Except Numeral.TooLong Text) (path? : Option Path) :
    Raised :=
  match message with
  | .ok message => .error cause.kind message path?
  | .error e => .valueError e.message

namespace Failure

/-- Gives a fault a position, if it has none. -/
def locate (path : Path) : Failure → Failure
  | fault cause none => fault cause (some path)
  | failure => failure

/-- The message for what is no mode. -/
def badModeMessage (given : Value) : Text :=
  Numeral.message do return (← given.nested) ++ " is not a valid SizeMode"

/-- The message for an overflow. -/
def overflowMessage : Text := "int too large to convert to float"

/-- The message where there is no buffer. -/
def noBufferMessage : Text := "cannot fit 'int' into an index-sized integer"

/-- What a caller is given for a failure. -/
def raised : Failure → Raised
  | fault cause path? => cause.raised cause.message path?
  | badWidth e => .valueError e.message
  | badMode given => .valueError (badModeMessage given)
  | overflow => .overflowError overflowMessage
  | noBuffer _ => .overflowError noBufferMessage
  | tooDeep => .recursionError

end Failure

/-- The outcome of a computation over a schema. -/
abbrev Outcome := Except Failure

namespace Outcome

/-- Fails at no particular position. -/
def fail {α : Type} (cause : Fault) : Outcome α := .error (.fault cause none)

end Outcome

end WireSchema
