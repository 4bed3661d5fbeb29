import WireSchema.Codec.Failure
import WireSchema.Codec.Siblings
import WireSchema.Schema.Basic

/-!
# Codec — Conformance

Whether a value can be encoded as it is: every struct has exactly its fields, every array its
resolved length, and every union the shape of the case its discriminant selects. A discriminant or
a length that is not among the siblings makes a value unfit.

Types are walked structurally. A struct is opened through a parameter, `struct`, and the nesting of
structs is bounded by the depth of the value, which every struct goes down.
-/

namespace WireSchema

namespace Conform

/-- Whether all of a list pass, looked at in order up to the first that does not. -/
def allPass {α : Type} (test : α → Outcome Bool) : List α → Outcome Bool
  | [] => .ok true
  | a :: rest =>
      match test a with
      | .ok true => allPass test rest
      | .ok false => .ok false
      | .error e => .error e

section

variable (schema : Schema) (struct : Text → Value → Outcome Bool) (siblings : Fields)

mutual

/-- Whether a value has the shape of a type, with `siblings` around it. -/
def ofType : FieldType → Value → Outcome Bool
  | .int .., .int _ => .ok true
  | .int .., _ => .ok false
  | .float .., .int _ => .ok true
  | .float .., .float _ => .ok true
  | .float .., _ => .ok false
  | .text .., .text _ => .ok true
  | .text .., _ => .ok false
  | .enum name .., v =>
      match schema.enum? name, v with
      | none, _ => .fail (.unknownEnum name)
      | some e, .text label => .ok (e.codeOf? label).isSome
      | some _, _ => .ok false
  | .struct name, v => struct name v
  | .array element length, v =>
      match v with
      | .list items =>
          match length.resolve siblings with
          | .ok count =>
              if items.length = count then allPass (ofType element) items else .ok false
          | .error _ => .ok false
      | _ => .ok false
  | .union discriminant _ cases, v =>
      match siblings.label? discriminant with
      | none => .ok false
      | some label => ofCase label cases v

/-- Whether a value has the shape of the case of a label. -/
def ofCase (label : Text) : List (Text × FieldType) → Value → Outcome Bool
  | [], _ => .ok false
  | (l, t) :: cases, v => if l = label then ofType t v else ofCase label cases v

end

end

/-- Whether two lists hold the same names. -/
def sameNames (xs ys : List Text) : Bool := xs.all (ys.contains ·) && ys.all (xs.contains ·)

/-- Whether a value has the shape of a declared struct. -/
def ofStruct (schema : Schema) : (depth : Nat) → Text → Value → Outcome Bool
  | depth, name, v =>
      match schema.struct? name with
      | none => .fail (.unknownStruct name)
      | some s =>
          match v with
          | .map members =>
              if sameNames (members.map (·.1)) s.fieldNames then
                match depth with
                | 0 => .error .tooDeep
                | depth + 1 =>
                    allPass
                      (fun (field, t) =>
                        ofType schema (ofStruct schema depth) members t (v.member field))
                      s.fields
              else .ok false
          | _ => .ok false

end Conform

namespace Schema

/-- Whether a value has the shape of a type among these siblings. -/
def conforms (schema : Schema) (t : FieldType) (v : Value) (siblings : Fields := []) :
    Outcome Bool :=
  Conform.ofType schema (Conform.ofStruct schema v.depth) siblings t v

end Schema

end WireSchema
