import WireSchema.Text.CodePoint

/-!
# Schema — Problems

What is wrong with a payload, and where. `Checked` collects: reading the parts of a payload one
beside the other reports the problems of all of them.
-/

namespace WireSchema

/-- What is wrong at a place of a payload. -/
inductive ProblemKind
  | missing
  | extraForbidden
  | tooLong
  | intType
  | intParsing
  | intFromFloat
  | intParsingSize
  | finiteNumber
  | greaterThanEqual
  | lessThanEqual
  | boolType
  | boolParsing
  | floatType
  | floatParsing
  | stringType
  | stringUnicode
  | tupleType
  | dictType
  | listType
  | unionTagNotFound
  | unionTagInvalid
  | modelAttributesType
  | jsonInvalid
  deriving DecidableEq, Repr

def ProblemKind.name : ProblemKind → String
  | missing => "missing"
  | extraForbidden => "extra_forbidden"
  | tooLong => "too_long"
  | intType => "int_type"
  | intParsing => "int_parsing"
  | intFromFloat => "int_from_float"
  | intParsingSize => "int_parsing_size"
  | finiteNumber => "finite_number"
  | greaterThanEqual => "greater_than_equal"
  | lessThanEqual => "less_than_equal"
  | boolType => "bool_type"
  | boolParsing => "bool_parsing"
  | floatType => "float_type"
  | floatParsing => "float_parsing"
  | stringType => "string_type"
  | stringUnicode => "string_unicode"
  | tupleType => "tuple_type"
  | dictType => "dict_type"
  | listType => "list_type"
  | unionTagNotFound => "union_tag_not_found"
  | unionTagInvalid => "union_tag_invalid"
  | modelAttributesType => "model_attributes_type"
  | jsonInvalid => "json_invalid"

/-- Where a payload comes from. -/
inductive PayloadSource
  | tree
  /-- JSON text. -/
  | text
  deriving DecidableEq, Repr

/-- The problem of a value that should be a map with a tag. -/
def PayloadSource.notAMap : PayloadSource → ProblemKind
  | tree => .modelAttributesType
  | text => .dictType

/-- A problem with its place: member names, list positions and the tags passed on the way. -/
structure Problem where
  location : List Text
  kind : ProblemKind
  deriving DecidableEq, Repr

namespace Problem

def render (p : Problem) : Text := ("." : Text).intercalate p.location ++ ": " ++ p.kind.name

/-- The lines of a report, sorted by code point. -/
def report (problems : List Problem) : List Text :=
  (problems.map render).mergeSort fun a b => !b.precedes a

end Problem

/-- What a part of a payload says, or all that is wrong with it. -/
inductive Checked (α : Type)
  | ok (a : α)
  | bad (problems : List Problem)

namespace Checked

variable {α β : Type}

/-- A problem right here. -/
def fail (kind : ProblemKind) : Checked α := bad [⟨[], kind⟩]

/-- Applies what one part says to what another says. -/
def seq (f : Checked (α → β)) (x : Checked α) : Checked β :=
  match f, x with
  | ok f, ok a => ok (f a)
  | ok _, bad problems => bad problems
  | bad problems, ok _ => bad problems
  | bad problems, bad others => bad (problems ++ others)

instance : Applicative Checked where
  pure := ok
  seq f x := seq f (x ())

/-- What lies under the place `key`. -/
def under (key : Text) : Checked α → Checked α
  | ok a => ok a
  | bad problems => bad (problems.map fun p => { p with location := key :: p.location })

/-- All of a list of parts. -/
def all : List (Checked α) → Checked (List α)
  | [] => ok []
  | x :: xs => List.cons <$> x <*> all xs

def ofExcept : Except ProblemKind α → Checked α
  | .ok a => ok a
  | .error kind => fail kind

end Checked

end WireSchema
