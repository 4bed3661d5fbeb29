import WireSchema.Text.Digit
import WireSchema.Text.Quoted

/-!
# Command line — Arguments

The words of a command line as a request. Flags may be cut short as long as they stay unambiguous,
take their value as the next word or behind an equals sign, and of the flags that say what to do
only one may be given. Flags of one letter may share a dash. A word that begins with a dash is a
flag unless it spells a negative number or holds a blank; behind `--` there are no flags.
-/

namespace WireSchema

namespace CommandLine

/-- A flag. -/
inductive Flag
  | help
  | root
  | analyze
  | check
  | encode
  | decode
  | verbose
  | version
  deriving DecidableEq, Repr

namespace Flag

/-- The spellings of a flag, the short one first. -/
def spellings : Flag → List String
  | help => ["-h", "--help"]
  | root => ["--root"]
  | analyze => ["--analyze"]
  | check => ["--check"]
  | encode => ["--encode"]
  | decode => ["--decode"]
  | verbose => ["-v", "--verbose"]
  | version => ["--version"]

def all : List Flag := [help, root, analyze, check, encode, decode, verbose, version]

/-- Every spelling with its flag. -/
def table : List (String × Flag) := all.flatMap fun f => f.spellings.map (·, f)

/-- How messages name a flag. -/
def name (f : Flag) : String := "/".intercalate f.spellings

def takesValue : Flag → Bool
  | root | encode | decode => true
  | help | analyze | check | verbose | version => false

/-- The flags that say what to do. -/
def actions : List Flag := [analyze, check, encode, decode]

end Flag

/-- A word by its role. -/
inductive Token
  | word (s : String)
  /-- The word behind which there are no flags. -/
  | separator
  /-- A flag, with what is attached to it; `short` if it has one dash. -/
  | flag (f : Flag) (attached? : Option String) (short : Bool)
  | unknown (s : String)

namespace Token

/-- A word without a line break at its end. -/
def dropLineBreak (cs : List Char) : List Char :=
  if cs.getLast? = some '\n' then cs.dropLast else cs

/-- Whether a word spells a negative number, in digits of any script; a line break may end it. -/
def isNegativeNumber (cs : List Char) : Bool :=
  match dropLineBreak cs with
  | '-' :: cs =>
      let whole := cs.takeWhile Digit.isDigit
      match cs.dropWhile Digit.isDigit with
      | [] => !whole.isEmpty
      | '.' :: fraction => !fraction.isEmpty && fraction.all Digit.isDigit
      | _ => false
  | _ => false

/-- A word cut at its first equals sign. -/
def splitValue (s : String) : String × Option String :=
  let cs := s.toList
  let name := cs.takeWhile (· ≠ '=')
  match cs.dropWhile (· ≠ '=') with
  | [] => (s, none)
  | _ :: value => (String.ofList name, some (String.ofList value))

/-- The flags a word may stand for when it is no full spelling, each with the spelling meant. -/
def candidates (s : String) : List (String × Token) :=
  if "--".isPrefixOf s then
    let (cut, value?) := splitValue s
    Flag.table.filterMap fun (spelling, f) =>
      if cut.isPrefixOf spelling then some (spelling, .flag f value? false) else none
  else
    let short := String.ofList (s.toList.take 2)
    let attached := String.ofList (s.toList.drop 2)
    Flag.table.filterMap fun (spelling, f) =>
      if spelling = short then some (spelling, .flag f (some attached) true)
      else if s.isPrefixOf spelling then some (spelling, .flag f none false)
      else none

/-- A word that may be a flag. -/
def ofWord (s : String) : Except String Token :=
  let cs := s.toList
  if cs.head? ≠ some '-' then .ok (.word s)
  else
    match Flag.table.lookup s with
    | some f => .ok (.flag f none false)
    | none =>
        if cs.length = 1 then .ok (.word s)
        else
          let (name, value?) := splitValue s
          match value?, Flag.table.lookup name with
          | some value, some f => .ok (.flag f (some value) (!"--".isPrefixOf name))
          | _, _ =>
              match candidates s with
              | [(_, token)] => .ok token
              | [] =>
                  if isNegativeNumber cs || cs.contains ' ' then .ok (.word s)
                  else .ok (.unknown s)
              | several =>
                  let list := ", ".intercalate (several.map (·.1))
                  .error s!"ambiguous option: {s} could match {list}"

/-- The roles of all words. -/
def ofWords : List String → Except String (List Token)
  | [] => .ok []
  | "--" :: words => .ok (separator :: words.map word)
  | s :: words => do return (← ofWord s) :: (← ofWords words)

end Token

/-- What is given to a flag. -/
inductive FlagValue
  | word (s : String)
  /-- The word `--` attached to a flag counts as no word at all. -/
  | nothing
  deriving DecidableEq, Repr

namespace FlagValue

def ofWord (s : String) : FlagValue := if s = "--" then nothing else word s

/-- The word given; nothing counts as an empty one. -/
def text : FlagValue → String
  | word s => s
  | nothing => ""

end FlagValue

/-- What the words read so far say. -/
structure Arguments where
  schema? : Option String := none
  root? : Option FlagValue := none
  encode? : Option FlagValue := none
  decode? : Option FlagValue := none
  verbose : Bool := false
  /-- The flags given that say what to do. -/
  actions : List Flag := []
  /-- Words that have no place. -/
  extra : List String := []

/-- Why words are no request; asking for help or the version ends the reading too. -/
inductive Refusal
  | usage (message : String)
  | help
  | version

namespace Arguments

/-- A fault of the words of one flag. -/
def fault {α : Type} (f : Flag) (what : String) : Except Refusal α :=
  .error (.usage s!"argument {f.name}: {what}")

/-- Takes note of a flag that says what to do; only one may be given. -/
def act (a : Arguments) (f : Flag) : Except Refusal Arguments :=
  match Flag.actions.find? fun g => g ≠ f ∧ g ∈ a.actions with
  | some g => fault f s!"not allowed with argument {g.name}"
  | none => .ok { a with actions := f :: a.actions }

/-- Carries out a flag that takes no value. -/
def set (a : Arguments) (f : Flag) : Except Refusal Arguments :=
  match f with
  | .help => .error .help
  | .version => .error .version
  | .verbose => .ok { a with verbose := true }
  | f => a.act f

/-- Carries out a flag with its value. -/
def setValue (a : Arguments) (f : Flag) (value : String) : Except Refusal Arguments :=
  let given := some (FlagValue.ofWord value)
  match f with
  | .root => .ok { a with root? := given }
  | .encode => (a.act f).map fun a => { a with encode? := given }
  | .decode => (a.act f).map fun a => { a with decode? := given }
  | f => a.set f

/-- A flag that takes no value was given one. -/
def superfluous {α : Type} (f : Flag) (value : List Char) : Except Refusal α :=
  fault f s!"ignored explicit argument {(Quoted.quoted (.ofChars value)).shown}"

/-- One-letter flags behind one dash: the flag `f`, and those of the letters attached to it. From a
letter on that is no flag, the letters are a value of the flag before. -/
def cluster (f : Flag) : List Char → Except Refusal (List Flag)
  | [] => .ok [f]
  | c :: cs =>
      match Flag.table.lookup (String.ofList ['-', c]) with
      | some g => do return f :: (← cluster g cs)
      | none => superfluous f (c :: cs)

/-- Carries out flags in order. -/
def setAll (a : Arguments) : List Flag → Except Refusal Arguments
  | [] => .ok a
  | f :: flags => do setAll (← a.set f) flags

/-- Reads the words in order. -/
def readTokens (a : Arguments) : List Token → Except Refusal Arguments
  | [] => .ok a
  | .unknown s :: rest => readTokens { a with extra := a.extra ++ [s] } rest
  | .separator :: .word s :: rest =>
      if a.schema?.isNone then readTokens { a with schema? := some s } rest
      else readTokens { a with extra := a.extra ++ ["--", s] } rest
  | .separator :: rest => readTokens { a with extra := a.extra ++ ["--"] } rest
  | .word s :: .separator :: rest =>
      if a.schema?.isNone then readTokens { a with schema? := some s } rest
      else readTokens { a with extra := a.extra ++ [s, "--"] } rest
  | .word s :: rest =>
      if a.schema?.isNone then readTokens { a with schema? := some s } rest
      else readTokens { a with extra := a.extra ++ [s] } rest
  | .flag f (some value) short :: rest =>
      if f.takesValue then do readTokens (← a.setValue f value) rest
      else if short && !value.isEmpty then do
        readTokens (← a.setAll (← cluster f value.toList)) rest
      else superfluous f value.toList
  | .flag f none _ :: rest =>
      if f.takesValue then
        match rest with
        | .word s :: rest => do readTokens (← a.setValue f s) rest
        | _ => fault f "expected one argument"
      else do readTokens (← a.set f) rest

/-- Reads a command line. -/
def read (words : List String) : Except Refusal Arguments :=
  match Token.ofWords words with
  | .error message => .error (.usage message)
  | .ok tokens =>
      match readTokens {} tokens with
      | .error e => .error e
      | .ok a =>
          if a.schema?.isNone then
            .error (.usage "the following arguments are required: SCHEMA")
          else if a.extra.isEmpty then .ok a
          else
            let list := " ".intercalate a.extra
            .error (.usage s!"unrecognized arguments: {list}")

end Arguments

end CommandLine

end WireSchema
