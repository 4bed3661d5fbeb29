import WireSchema.Number.Decimal
import WireSchema.Text.Hex
import WireSchema.Value

/-!
# JSON — Reader

Reads one value from a string, with all members of a name that repeats. Integers are read exactly,
numbers with a fraction or an exponent as the nearest double; `NaN`, `Infinity` and `-Infinity` are
numbers too. Escapes may spell surrogates, the halves of characters, one by one. `Rules` say what is
refused although it is JSON.

A failure names its cause and the place in the text where it shows. Every step takes the
characters that are left and returns those it leaves; a bound on the number of steps, derived from
the length of the text, stands in for the nesting.
-/

namespace WireSchema

namespace Json

/-- Why a text is not read. -/
inductive Cause
  | expectedValue
  | expectedName
  | expectedColon
  | expectedComma
  | trailingText
  | controlCharacter
  | openString
  | unknownEscape
  | badCodeEscape
  | loneSurrogate
  | byteOrderMark
  | longInteger (limit digits : Nat)
  | deepList
  | deepMap
  deriving DecidableEq, Repr

def Cause.message : Cause → String
  | expectedValue => "Expecting value"
  | expectedName => "Expecting property name enclosed in double quotes"
  | expectedColon => "Expecting ':' delimiter"
  | expectedComma => "Expecting ',' delimiter"
  | trailingText => "Extra data"
  | controlCharacter => "Invalid control character at"
  | openString => "Unterminated string starting at"
  | unknownEscape => "Invalid \\escape"
  | badCodeEscape => "Invalid \\uXXXX escape"
  | loneSurrogate => "Invalid surrogate"
  | byteOrderMark => "Unexpected UTF-8 BOM (decode using utf-8-sig)"
  | longInteger limit digits =>
      s!"Exceeds the limit ({limit} digits) for integer string conversion: " ++
        s!"value has {digits} digits; use sys.set_int_max_str_digits() to increase the limit"
  | deepList => "maximum recursion depth exceeded while decoding a JSON array from a unicode string"
  | deepMap => "maximum recursion depth exceeded while decoding a JSON object from a unicode string"

/-- Whether a message tells the place; only what is no JSON has one. -/
def Cause.hasPlace : Cause → Bool
  | longInteger .. | deepList | deepMap => false
  | _ => true

/-- A bound on the digits before the point of a number. -/
structure DigitLimit where
  most : Nat
  /-- Whether numbers with a fraction or an exponent are bounded too. -/
  boundsFloats : Bool

/-- What is refused although it is JSON. -/
structure Rules where
  /-- Whether surrogates may stand alone in strings. -/
  surrogates : Bool := false
  /-- How many lists and maps may lie inside one another; empty ones do not count. -/
  nesting? : Option Nat := none
  digits? : Option DigitLimit := none

namespace Rules

/-- Whether a list or map that is not empty may lie inside so many others. -/
def allowsInside (rules : Rules) (depth : Nat) : Bool :=
  match rules.nesting? with
  | some most => decide (depth < most)
  | none => true

/-- Why a number with so many digits before its point is refused, if it is. -/
def refusal? (rules : Rules) (isFloat : Bool) (digits : Nat) : Option Cause :=
  match rules.digits? with
  | none => none
  | some limit =>
      if (isFloat && !limit.boundsFloats) || digits ≤ limit.most then none
      else some (.longInteger limit.most digits)

end Rules

/-- A cause and the characters left where it shows. -/
structure Failure where
  cause : Cause
  left : List Char

/-- A cause and the number of characters before the place where it shows. -/
structure Error where
  cause : Cause
  position : Nat
  deriving DecidableEq, Repr

/-- The cause, with its place where it has one: line and column count from one, characters from
zero. -/
def Error.message (e : Error) (text : String) : String :=
  if !e.cause.hasPlace then e.cause.message else
  let before := text.toList.take e.position
  let line := before.count '\n' + 1
  let column := (before.reverse.takeWhile (· ≠ '\n')).length + 1
  s!"{e.cause.message}: line {line} column {column} (char {e.position})"

/-- What a step reads and the characters it leaves. -/
abbrev Step (α : Type) := Except Failure (α × List Char)

def isBlank (c : Char) : Bool := c = ' ' || c = '\t' || c = '\n' || c = '\r'

def isDigit (c : Char) : Bool := decide ('0' ≤ c) && decide (c ≤ '9')

def skipBlanks (cs : List Char) : List Char := cs.dropWhile isBlank

/-- The characters behind a word, if the text begins with it. -/
def strip? (word : String) (cs : List Char) : Option (List Char) :=
  let w := word.toList
  if w.isPrefixOf cs then some (cs.drop w.length) else none

/-- The fraction of a number: a point and at least one digit, or nothing. -/
def fraction : List Char → List Char × List Char
  | '.' :: cs =>
      match cs.takeWhile isDigit with
      | [] => ([], '.' :: cs)
      | digits => (digits, cs.dropWhile isDigit)
  | cs => ([], cs)

/-- The exponent of a number, if there is one: a mark, an optional sign and at least one digit. -/
def exponent? (cs : List Char) : Option (Int × List Char) :=
  match cs with
  | [] => none
  | mark :: cs =>
      if mark = 'e' ∨ mark = 'E' then
        let (negative, cs) :=
          match cs with
          | '-' :: cs => (true, cs)
          | '+' :: cs => (false, cs)
          | cs => (false, cs)
        match cs.takeWhile isDigit with
        | [] => none
        | digits =>
            let e : Int := Decimal.ofDigits digits
            some (if negative then -e else e, cs.dropWhile isDigit)
      else none

/-- The whole part of a number: a zero alone, or digits that do not begin with one. -/
def whole? : List Char → Option (List Char × List Char)
  | '0' :: cs => some (['0'], cs)
  | cs =>
      match cs.takeWhile isDigit with
      | [] => none
      | digits => some (digits, cs.dropWhile isDigit)

/-- A number, `cs` being what follows its sign, if it has one; `opening` is the text from its
sign or first digit on. -/
def number (rules : Rules) (negative : Bool) (opening cs : List Char) : Step Value :=
  match whole? cs with
  | none => .error ⟨.expectedValue, opening⟩
  | some (whole, cs) =>
      let (fraction, afterFraction) := fraction cs
      let power? := exponent? afterFraction
      let isFloat := !fraction.isEmpty || power?.isSome
      match rules.refusal? isFloat whole.length with
      | some cause => .error ⟨cause, opening⟩
      | none =>
          if isFloat then
            let (e, left) := power?.getD (0, afterFraction)
            let d : Decimal := ⟨Decimal.ofDigits (whole ++ fraction), e - fraction.length⟩
            .ok (.float (d.toBinary64 negative), left)
          else
            let n : Int := Decimal.ofDigits whole
            .ok (.int (if negative then -n else n), afterFraction)

/-- A word with what it says. -/
def word (v : Value) (spelling : String) (cs : List Char) : Step Value :=
  match strip? spelling cs with
  | some left => .ok (v, left)
  | none => .error ⟨.expectedValue, cs⟩

/-- A word or a number. -/
def scalar (rules : Rules) (cs : List Char) : Step Value :=
  match cs with
  | 'n' :: _ => word .null "null" cs
  | 't' :: _ => word (.bool true) "true" cs
  | 'f' :: _ => word (.bool false) "false" cs
  | 'N' :: _ => word (.float (Binary.quietNaN _)) "NaN" cs
  | 'I' :: _ => word (.float (Binary64.infinity false)) "Infinity" cs
  | '-' :: 'I' :: _ => word (.float (Binary64.infinity true)) "-Infinity" cs
  | '-' :: left => number rules true cs left
  | _ => number rules false cs cs

/-- The four digits behind `\u`, with at least one character after them. -/
def code? (cs : List Char) : Option (Nat × List Char) :=
  match cs with
  | a :: b :: c :: d :: e :: cs => (Hex.toNat? [a, b, c, d]).map (·, e :: cs)
  | _ => none

/-- The character that a letter behind a backslash stands for. -/
def escaped? : Char → Option Char
  | '"' => some '"'
  | '\\' => some '\\'
  | '/' => some '/'
  | 'b' => some (Char.ofNat 8)
  | 'f' => some (Char.ofNat 12)
  | 'n' => some '\n'
  | 'r' => some '\r'
  | 't' => some '\t'
  | _ => none

/-- The code point of a `\u` escape, `cs` being what follows the `u`. Two escapes that are the two
halves of one character stand for it. -/
def codeEscape (rules : Rules) (cs : List Char) : Step CodePoint :=
  match code? cs with
  | none => .error ⟨.badCodeEscape, 'u' :: cs⟩
  | some (n, left) =>
      if n < 0xd800 ∨ 0xdfff < n then .ok (CodePoint.ofNat n, left)
      else
        let half : Step CodePoint :=
          if rules.surrogates then .ok (CodePoint.ofNat n, left)
          else .error ⟨.loneSurrogate, 'u' :: cs⟩
        match left with
        | '\\' :: 'u' :: left' =>
            if n < 0xdc00 ∧ 5 ≤ left'.length then
              match code? left' with
              | none => .error ⟨.badCodeEscape, 'u' :: left'⟩
              | some (m, left'') =>
                  if 0xdc00 ≤ m ∧ m ≤ 0xdfff then
                    .ok (CodePoint.ofNat (0x10000 + (n - 0xd800) * 0x400 + (m - 0xdc00)), left'')
                  else half
            else half
        | _ => half

/-- The code points of a string up to its closing quote; `opening` is the text from its opening
quote on. -/
def stringPoints (rules : Rules) (opening : List Char) :
    (fuel : Nat) → (read : Text) → List Char → Step Text
  | 0, _, _ => .error ⟨.openString, opening⟩
  | _, _, [] => .error ⟨.openString, opening⟩
  | fuel + 1, read, c :: cs =>
      if c = '"' then .ok (read.reverse, cs)
      else if c = '\\' then
        match cs with
        | [] => .error ⟨.openString, opening⟩
        | 'u' :: cs =>
            match codeEscape rules cs with
            | .error e => .error e
            | .ok (p, left) => stringPoints rules opening fuel (p :: read) left
        | d :: left =>
            match escaped? d with
            | none => .error ⟨.unknownEscape, c :: cs⟩
            | some d => stringPoints rules opening fuel (CodePoint.ofChar d :: read) left
      else if c.toNat < 0x20 then .error ⟨.controlCharacter, c :: cs⟩
      else stringPoints rules opening fuel (CodePoint.ofChar c :: read) cs

/-- A string, `cs` being what follows its opening quote. -/
def string (rules : Rules) (cs : List Char) : Step Text :=
  stringPoints rules ('"' :: cs) (cs.length + 1) [] cs

mutual

/-- A value inside `depth` lists and maps; no blank precedes it. -/
def value (rules : Rules) : (fuel depth : Nat) → List Char → Step Value
  | 0, _, cs => .error ⟨.expectedValue, cs⟩
  | fuel + 1, depth, cs =>
      match cs with
      | '"' :: cs =>
          match string rules cs with
          | .error e => .error e
          | .ok (t, left) => .ok (.text t, left)
      | '[' :: left =>
          match skipBlanks left with
          | ']' :: left => .ok (.list [], left)
          | left =>
              if rules.allowsInside depth then items rules fuel (depth + 1) [] left
              else .error ⟨.deepList, cs⟩
      | '\x7b' :: left =>
          match skipBlanks left with
          | '\x7d' :: left => .ok (.map [], left)
          | left =>
              if rules.allowsInside depth then members rules fuel (depth + 1) [] left
              else .error ⟨.deepMap, cs⟩
      | cs => scalar rules cs

/-- The items of a list from one on, up to its end; `read` holds those before, the last first. -/
def items (rules : Rules) :
    (fuel depth : Nat) → (read : List Value) → List Char → Step Value
  | 0, _, _, cs => .error ⟨.expectedValue, cs⟩
  | fuel + 1, depth, read, cs =>
      match value rules fuel depth cs with
      | .error e => .error e
      | .ok (v, left) =>
          match skipBlanks left with
          | ']' :: left => .ok (.list (v :: read).reverse, left)
          | ',' :: left => items rules fuel depth (v :: read) (skipBlanks left)
          | left => .error ⟨.expectedComma, left⟩

/-- The members of a map from one on, up to its end; `read` holds those before, the last first. -/
def members (rules : Rules) :
    (fuel depth : Nat) → (read : Fields) → List Char → Step Value
  | 0, _, _, cs => .error ⟨.expectedName, cs⟩
  | fuel + 1, depth, read, cs =>
      match cs with
      | '"' :: cs =>
          match string rules cs with
          | .error e => .error e
          | .ok (name, left) =>
              match skipBlanks left with
              | ':' :: left =>
                  match value rules fuel depth (skipBlanks left) with
                  | .error e => .error e
                  | .ok (v, left) =>
                      match skipBlanks left with
                      | '\x7d' :: left => .ok (.map ((name, v) :: read).reverse, left)
                      | ',' :: left =>
                          members rules fuel depth ((name, v) :: read) (skipBlanks left)
                      | left => .error ⟨.expectedComma, left⟩
              | left => .error ⟨.expectedColon, left⟩
      | cs => .error ⟨.expectedName, cs⟩

end

/-- A value with blanks around it and nothing else. -/
def document (rules : Rules) (cs : List Char) : Except Failure Value :=
  match cs with
  | '\ufeff' :: _ => .error ⟨.byteOrderMark, cs⟩
  | cs =>
      match value rules (2 * cs.length + 2) 0 (skipBlanks cs) with
      | .error e => .error e
      | .ok (v, left) =>
          match skipBlanks left with
          | [] => .ok v
          | left => .error ⟨.trailingText, left⟩

/-- Reads a string. -/
def read (s : String) (rules : Rules := {}) : Except Error Value :=
  let cs := s.toList
  match document rules cs with
  | .ok v => .ok v
  | .error e => .error ⟨e.cause, cs.length - e.left.length⟩

end Json

end WireSchema
