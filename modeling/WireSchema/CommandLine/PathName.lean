/-!
# Command line — Path names

Names of files as a command line gives them. Their parts lie between slashes.
-/

namespace WireSchema

namespace PathName

/-- The slashes before the first part: two are kept, and more count as one. -/
def opening (path : String) : String :=
  match (path.toList.takeWhile (· = '/')).length with
  | 0 => ""
  | 2 => "//"
  | _ => "/"

/-- The parts that are not empty and do not merely stay in place. -/
def parts (path : String) : List String :=
  (path.splitOn "/").filter fun part => !part.isEmpty && part != "."

/-- A name without empty and idle parts. -/
def normal (path : String) : String :=
  let name := opening path ++ "/".intercalate (parts path)
  if name.isEmpty then "." else name

/-- The parts behind those that only go up. -/
def below (path : String) : List String := (parts path).dropWhile (· = "..")

/-- Whether a name leads to a directory wherever it is looked up: it goes nowhere but up. -/
def isDirectory (path : String) : Bool := (below path).isEmpty

/-- The longest part that a file can have, in bytes. -/
def longestPart : Nat := 255

/-- The longest name that can be looked up, in bytes. -/
def longestName : Nat := 4095

/-- Whether a name cannot be looked up because it is too long, or the first part of it that may be
no directory is. -/
def isTooLong (path : String) : Bool :=
  let first := (below path).headD ""
  !path.toList.contains (Char.ofNat 0) &&
    (decide (longestName < path.utf8ByteSize) || decide (longestPart < first.utf8ByteSize))

end PathName

end WireSchema
