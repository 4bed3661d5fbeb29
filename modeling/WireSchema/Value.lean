import WireSchema.Number.Format
import WireSchema.Text.CodePoint

/-!
# Values

The trees that messages and schema payloads are made of: scalars, lists, and maps that keep the
order in which their members came. `Fields` is the content of a map; its names do not repeat, save
in what a text says (`Value.settle`) and in a payload that is yet to be read.
-/

namespace WireSchema

/-- A value tree. -/
inductive Value
  | null
  | bool (b : Bool)
  | int (i : Int)
  | float (x : Binary64)
  | text (t : Text)
  | list (items : List Value)
  | map (members : List (Text × Value))
  deriving Inhabited

/-- Named values in order. -/
abbrev Fields := List (Text × Value)

namespace Fields

/-- The value of a name. -/
def get? {α : Type} (fields : List (Text × α)) (name : Text) : Option α := fields.lookup name

/-- Gives a name a value: in its place if it is there, at the end if not. -/
def put {κ α : Type} [DecidableEq κ] (fields : List (κ × α)) (name : κ) (a : α) : List (κ × α) :=
  match fields with
  | [] => [(name, a)]
  | (n, b) :: rest => if n = name then (n, a) :: rest else (n, b) :: put rest name a

/-- The fields of a sequence of pairs, the last value of a repeated name winning. -/
def ofPairs {κ α : Type} [DecidableEq κ] (pairs : List (κ × α)) : List (κ × α) :=
  pairs.foldl (fun fields (name, a) => put fields name a) []

end Fields

namespace Value

/-- The word for the type of a value in messages. -/
def typeName : Value → String
  | null => "NoneType"
  | bool _ => "bool"
  | int _ => "int"
  | float _ => "float"
  | text _ => "str"
  | list _ => "list"
  | map _ => "dict"

def isNull : Value → Bool
  | null => true
  | _ => false

/-- The members of a map, and none of anything else. -/
def members : Value → Fields
  | map members => members
  | _ => []

/-- The member of a map with this name; null if it has none or is no map. -/
def member (v : Value) (name : Text) : Value := (Fields.get? v.members name).getD null

/-- The items of a list, and none of anything else. -/
def items : Value → List Value
  | list items => items
  | _ => []

mutual

/-- The number of lists and maps that can lie inside one another. -/
def depth : Value → Nat
  | list items => depthOfItems items + 1
  | map members => depthOfMembers members + 1
  | _ => 0

/-- The greatest depth among items. -/
def depthOfItems : List Value → Nat
  | [] => 0
  | v :: items => max (depth v) (depthOfItems items)

/-- The greatest depth among members. -/
def depthOfMembers : Fields → Nat
  | [] => 0
  | (_, v) :: members => max (depth v) (depthOfMembers members)

end

mutual

/-- Leaves one member of every name: in the place of the first, with the value of the last. -/
def settle : Value → Value
  | list items => list (settleItems items)
  | map members => map (Fields.ofPairs (settleMembers members))
  | v => v

def settleItems : List Value → List Value
  | [] => []
  | v :: items => settle v :: settleItems items

def settleMembers : Fields → Fields
  | [] => []
  | (name, v) :: members => (name, settle v) :: settleMembers members

end

mutual

/-- All integers in a value. -/
def integers : Value → List Int
  | int i => [i]
  | list items => integersOfItems items
  | map members => integersOfMembers members
  | _ => []

def integersOfItems : List Value → List Int
  | [] => []
  | v :: items => integers v ++ integersOfItems items

def integersOfMembers : Fields → List Int
  | [] => []
  | (_, v) :: members => integers v ++ integersOfMembers members

end

end Value

end WireSchema
