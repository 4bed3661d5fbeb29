import WireSchema.Codec.Decode
import WireSchema.CommandLine.Arguments
import WireSchema.CommandLine.PathName
import WireSchema.CommandLine.Report
import WireSchema.Json.Printer
import WireSchema.Json.Reader
import WireSchema.Schema.Payload

/-!
# Command line

What the program prints and the code it exits with, from its words and the text of the schema's
file. Lines for standard output and standard error are kept apart; each is in order. A run that
meets a condition for which the program has no message is broken off.
-/

namespace WireSchema

namespace CommandLine

/-- What a run prints and how it ends. -/
structure Output where
  exit : Nat
  stdout : List Text := []
  stderr : List Text := []

/-- Why a run is broken off. -/
inductive Abort
  /-- A flag is given nothing where a word is needed. -/
  | nothingGiven (f : Flag)
  /-- A file's name is longer than names can be. -/
  | longName (path : String)
  /-- A directory is given as the schema's file. -/
  | directory (path : String)
  /-- A size is beyond the range of doubles. -/
  | overflow (message : Text)
  /-- Calls lie too deep inside one another. -/
  | recursion
  /-- JSON is nested too deeply. -/
  | nesting (cause : Json.Cause)

def Abort.message : Abort → Text
  | nothingGiven .encode => "the JSON object must be str, bytes or bytearray, not list"
  | nothingGiven .decode => "'list' object has no attribute 'replace'"
  | nothingGiven _ => "unhashable type: 'list'"
  | longName path => "[Errno 36] File name too long: " ++ Quoted.quoted (path : Text)
  | directory path => "[Errno 21] Is a directory: " ++ Quoted.quoted (path : Text)
  | overflow message => message
  | recursion => Raised.recursionError.render
  | nesting cause => cause.message

/-- How a run ends. -/
abbrev Ending := Except Abort Output

namespace Output

/-- Lines printed before. -/
def after (stderr : List Text) (o : Output) : Output := { o with stderr := stderr ++ o.stderr }

/-- A run that ends with an error. -/
def failed (message : Text) (stdout : List Text := []) : Output :=
  { exit := 1, stdout, stderr := ["Error: " ++ message] }

end Output

/-- How a run ends in which this is raised, with these lines printed before. The errors of the codec
and arguments out of range are caught. -/
def Ending.ofRaised (raised : Raised) (stdout : List Text := []) : Ending :=
  match raised with
  | .error .. | .valueError _ => .ok (.failed raised.render stdout)
  | .overflowError message => .error (.overflow message)
  | .recursionError => .error .recursion

/-- The line of a notice: all of them with their origin when verbose, else the message of a
warning. -/
def noticeLine? (verbose : Bool) (n : Notice) : Option Text := do
  let message ← n.message.toOption
  if verbose then return n.level.name ++ " - " ++ n.source ++ " - " ++ message
  else
    match n.level with
    | .warning => return message
    | .debug => none

/-- The bytes of pairs of digits, with blanks allowed between pairs; else the position of the
first character out of place. -/
def bytesOfHex (text : List Char) : Except Nat (List UInt8) :=
  match text.findIdx? fun c => decide (128 ≤ c.toNat) with
  | some i => .error i
  | none => pairs text.length text []
where
  isBlank (c : Char) : Bool := c = ' ' || (decide (9 ≤ c.toNat) && decide (c.toNat ≤ 13))
  pairs (size : Nat) : List Char → (read : List UInt8) → Except Nat (List UInt8)
    | [], read => .ok read.reverse
    | [c], read => if isBlank c then .ok read.reverse else
        match Hex.value? c with
        | none => .error (size - 1)
        | some _ => .error size
    | c :: d :: cs, read =>
        if isBlank c then pairs size (d :: cs) read
        else
          match Hex.value? c, Hex.value? d with
          | none, _ => .error (size - (cs.length + 2))
          | some _, none => .error (size - (cs.length + 1))
          | some a, some b => pairs size cs (UInt8.ofNat (16 * a + b) :: read)

/-- What is to be done with a schema. -/
inductive Action
  | analyze (root? : Option FlagValue)
  | check
  | encode (json : FlagValue) (root : String)
  | decode (hex : FlagValue) (root : String)

/-- What is refused in a value given as JSON although it is JSON. -/
def valueRules : Json.Rules :=
  { surrogates := true, nesting? := some 988, digits? := some ⟨Numeral.mostDigits, false⟩ }

/-- Encodes a value given as JSON and prints its bytes. -/
def runEncode (schema : Schema) (verbose : Bool) (json root : String) : Ending :=
  match Json.read json valueRules with
  | .error e =>
      match e.cause with
      | .deepList | .deepMap => .error (.nesting e.cause)
      | _ => .ok (.failed (e.message json))
  | .ok v =>
      let report := schema.encode v.settle root
      let notices := report.notices.filterMap (noticeLine? verbose)
      match report.outcome with
      | .error e => (Output.after notices) <$> Ending.ofRaised e.raised
      | .ok bytes => .ok { exit := 0, stdout := [Hex.ofBytes bytes.toList], stderr := notices }

/-- Decodes bytes given as digits and prints the value as JSON. -/
def runDecode (schema : Schema) (verbose : Bool) (hex root : String) : Ending :=
  match bytesOfHex (hex.toList.filter (· ≠ ' ')) with
  | .error i =>
      .ok (.failed s!"non-hexadecimal number found in fromhex() arg at position {i}")
  | .ok bytes =>
      let report := schema.decode bytes.toArray root
      let notices := report.notices.filterMap (noticeLine? verbose)
      match report.outcome with
      | .error e => (Output.after notices) <$> Ending.ofRaised e.raised
      | .ok v? =>
          match Json.print (v?.getD .null) with
          | .error e => .ok ((Output.failed e.message).after notices)
          | .ok json => .ok { exit := 0, stdout := [json], stderr := notices }

/-- Prints the sizes of a schema's structs. -/
def runAnalyze (schema : Schema) (root? : Option Text) : Ending :=
  let lines := Report.sizes schema root?
  match lines.failure? with
  | some e => Ending.ofRaised e.raised lines.lines
  | none => .ok { exit := 0, stdout := lines.lines }

/-- Carries out an action on a schema. -/
def Action.run (schema : Schema) (verbose : Bool) : Action → Ending
  | analyze (some .nothing) => .error (.nothingGiven .root)
  | analyze (some (.word root)) => runAnalyze schema (some root)
  | analyze none => runAnalyze schema none
  | check =>
      let found := schema.inconsistencies
      match Report.problems found with
      | .error e => .ok (.failed e.message)
      | .ok lines => .ok { exit := if found.isEmpty then 0 else 1, stdout := lines }
  | encode .nothing _ => .error (.nothingGiven .encode)
  | encode (.word json) root => runEncode schema verbose json root
  | decode .nothing _ => .error (.nothingGiven .decode)
  | decode (.word hex) root => runDecode schema verbose hex root

/-- The first line about a malformed payload; the report follows it. -/
def malformedLine : Text := "Error: Invalid schema payload"

/-- Loads the schema and carries out an action on it. -/
def runText (verbose : Bool) (text : String) (action : Action) : Ending :=
  match Schema.ofText .lax text with
  | .error e =>
      match e.report with
      | some lines => .ok { exit := 1, stderr := malformedLine :: lines.map ("  " ++ ·) }
      | none => .ok (.failed e.message)
  | .ok schema => do
      let loaded : Notice := .loaded schema.structs.length schema.enums.length
      let output ← action.run schema verbose
      return output.after ((noticeLine? verbose loaded).toList)

/-- The action that a command line asks for; encoding and decoding need a root. -/
def Arguments.action (a : Arguments) : Except String Action :=
  let root := (a.root?.map (·.text)).getD ""
  let needsRoot (action : Action) : Except String Action :=
    if root.isEmpty then .error "--encode and --decode require --root" else .ok action
  match a.encode?, a.decode? with
  | some json, _ => needsRoot (.encode json root)
  | none, some hex => needsRoot (.decode hex root)
  | none, none => .ok (if Flag.check ∈ a.actions then .check else .analyze a.root?)

def versionLine : Text := "bitexpr 0.1.0"

def usage : List Text :=
  ["usage: bitexpr [-h] [--root NAME] [--analyze | --check | --encode JSON | --decode HEX] " ++
      "[-v] [--version] SCHEMA",
    "",
    "bitexpr: bit-packed schema codec"]

/-- Carries out a request on the schema's file; `text?` is its text, if there is such a file. -/
def runFile (a : Arguments) (path : String) (text? : Option String) : Ending :=
  if PathName.isTooLong path then .error (.longName path)
  else if text?.isNone && !PathName.isDirectory path then
    .ok (.failed s!"File not found: {path}")
  else
    match a.action, text? with
    | .error message, _ => .ok { exit := 2, stderr := ["Error: " ++ message] }
    | .ok _, none => .error (.directory path)
    | .ok action, some text => runText a.verbose text action

/-- Runs a command line. `file` gives the text of a file, if there is one of that name. -/
def run (words : List String) (file : String → Option String) : Ending :=
  match Arguments.read words with
  | .error (.usage message) => .ok { exit := 2, stderr := ["bitexpr: error: " ++ message] }
  | .error .help => .ok { exit := 0, stdout := usage }
  | .error .version => .ok { exit := 0, stdout := [versionLine] }
  | .ok a =>
      let path := PathName.normal (a.schema?.getD "")
      runFile a path (file path)

end CommandLine

end WireSchema
