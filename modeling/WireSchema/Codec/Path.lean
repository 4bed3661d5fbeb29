import WireSchema.Text.CodePoint

/-!
# Codec — Paths

Where in a message something happened: the root struct, then field names and element numbers.
-/

namespace WireSchema

/-- A step into a value. -/
inductive PathStep
  | field (name : Text)
  | index (i : Nat)
  deriving DecidableEq, Repr

/-- A position below a root struct. -/
structure Path where
  root : Text
  steps : List PathStep
  deriving DecidableEq, Repr

namespace PathStep

/-- A path's text with a name behind it; nothing precedes the first name. -/
def extendName (text name : Text) : Text :=
  if text.isEmpty then name else text ++ "." ++ name

/-- A path's text with a number behind it. -/
def extendIndex (text : Text) (i : Int) : Text := text ++ "[" ++ toString i ++ "]"

/-- A path's text with one more step. -/
def extend (text : Text) : PathStep → Text
  | field name => extendName text name
  | index i => extendIndex text i

end PathStep

namespace Path

def ofRoot (root : Text) : Path := ⟨root, []⟩

def child (path : Path) (name : Text) : Path := { path with steps := path.steps ++ [.field name] }

def element (path : Path) (i : Nat) : Path := { path with steps := path.steps ++ [.index i] }

def render (path : Path) : Text := path.steps.foldl PathStep.extend path.root

end Path

end WireSchema
