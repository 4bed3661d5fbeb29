import WireSchema.Schema.Basic

/-!
# Consistency — Recursion

A struct embeds the structs that its fields hold directly or through arrays of a fixed length above
zero. What lies in a case of a union or in an array of dynamic length may be absent, so it does not
count. A schema whose embedding has a cycle has no finite value on it.

The search goes depth first and enters every name once; a name that it meets again on the way down
closes a cycle.
-/

namespace WireSchema

namespace FieldType

/-- The structs that a type embeds in every value. -/
def embedded : FieldType → List Text
  | struct name => [name]
  | array element (.static count) => if 0 < count then embedded element else []
  | int .. | float .. | text .. | enum .. | array _ (.dynamic _) | union .. => []

end FieldType

namespace StructDef

/-- The structs that a struct embeds, in the order of its fields. -/
def embedded (s : StructDef) : List Text := s.fields.flatMap fun (_, t) => t.embedded

end StructDef

namespace Recursion

/-- The names entered so far and the cycles found, each in order and closed by its first name. -/
structure Search where
  visited : List Text
  cycles : List (List Text)

/-- Searches each of a list of names. -/
def searchAll (visit : Text → Search → Search) : List Text → Search → Search
  | [], state => state
  | name :: names, state => searchAll visit names (visit name state)

/-- Searches from a name; `stack` is the way to it. Every step down enters a name, so the bound
is the number of names there are. -/
def search (schema : Schema) : (depth : Nat) → (stack : List Text) → Text → Search → Search
  | depth, stack, name, state =>
      if name ∈ stack then
        { state with cycles := state.cycles ++ [stack.dropWhile (· ≠ name) ++ [name]] }
      else if name ∈ state.visited then state
      else
        let state := { state with visited := state.visited ++ [name] }
        match schema.struct? name, depth with
        | some s, depth + 1 => searchAll (search schema depth (stack ++ [name])) s.embedded state
        | _, _ => state

/-- The cycles that a search from every struct in turn finds. -/
def cycles (schema : Schema) : List (List Text) :=
  (searchAll (search schema (schema.structs.length + 1) [])
    (schema.structs.map (·.name)) ⟨[], []⟩).cycles

end Recursion

end WireSchema
