import WireSchema.Codec.Failure

/-!
# Messages that can be worded

A message is there unless it would show an integer without a numeral (`Numeral.Worded`). So a fault
is raised as an error of the codec, with its own kind, message and path, unless there is such an
integer among those that its message shows (`Fault.integers`); then what is raised is the failure to
write the integer (`Failure.raised_fault`).
-/

namespace WireSchema

namespace Numeral

/-- How a message ends that shows these integers: it is there if all of them are short, and else one
that is not is to blame. -/
inductive Worded (integers : List Int) : Except TooLong Text → Prop
  | ok {text : Text} (short : ∀ i ∈ integers, Short i) : Worded integers (.ok text)
  | error {i : Int} (shown : i ∈ integers) (long : ¬ Short i) : Worded integers (.error ⟨i⟩)

namespace Worded

variable {is js : List Int} {message : Except TooLong Text}

theorem pure (text : Text) : Worded [] (.ok text) := .ok (List.forall_mem_nil _)

/-- An integer shows itself. -/
theorem ofInt (i : Int) : Worded [i] (Numeral.ofInt i) := by
  rw [Numeral.ofInt]
  split
  · next short => exact .ok (List.forall_mem_singleton.mpr short)
  · next long => exact .error (List.mem_singleton_self i) long

/-- A message that goes on where another ends shows what both show. -/
theorem bind (h : Worded is message) {next : Text → Except TooLong Text}
    (hnext : ∀ text, Worded js (next text)) : Worded (is ++ js) (message >>= next) := by
  cases h with
  | error shown long => exact .error (List.mem_append_left _ shown) long
  | @ok text short =>
      show Worded (is ++ js) (next text)
      have h := hnext text
      generalize next text = message at h
      cases h with
      | ok short' => exact .ok (List.forall_mem_append.mpr ⟨short, short'⟩)
      | error shown long => exact .error (List.mem_append_right _ shown) long

/-- A text around a message shows no more. -/
theorem map (h : Worded is message) (around : Text → Text) :
    Worded is (message >>= fun text => .ok (around text)) := by
  have h := h.bind fun text => pure (around text)
  rwa [List.append_nil] at h

end Worded

end Numeral

open Numeral (Worded)

/-! ### Values -/

namespace Value

mutual

/-- A value within another shows all its integers, members in their order. -/
theorem worded_nested : ∀ v : Value, Worded v.integers v.nested
  | null | bool _ | float _ | text _ => .pure _
  | int i => .ofInt i
  | list items => (worded_nestedItems "" items).map fun text => "[" ++ text ++ "]"
  | map members => (worded_nestedMembers "" members).map fun text => "\x7b" ++ text ++ "\x7d"

theorem worded_nestedItems (before : Text) :
    ∀ items : List Value, Worded (integersOfItems items) (nestedItems before items)
  | [] => .pure ""
  | v :: items => (worded_nested v).bind fun one =>
      (worded_nestedItems ", " items).map fun rest => before ++ one ++ rest

theorem worded_nestedMembers (before : Text) :
    ∀ members : Fields, Worded (integersOfMembers members) (nestedMembers before members)
  | [] => .pure ""
  | (name, v) :: members => (worded_nested v).bind fun one =>
      (worded_nestedMembers ", " members).map fun rest =>
        before ++ Quoted.quoted name ++ ": " ++ one ++ rest

end

/-- A value is shown unless it holds an integer without a numeral. -/
theorem worded_display (v : Value) : Worded v.integers v.display := by
  cases v with
  | text s => exact .pure s
  | null | bool | int | float | list | map => exact worded_nested _

end Value

/-! ### Faults -/

namespace Fault

/-- The integers that the message about a fault shows. -/
def integers : Fault → List Int
  | unknownLabel value _ => value.integers
  | lengthMismatch expected got => [expected, got]
  | tooLarge size limit => [size, limit]
  | unknownCode code _ => [code]
  | _ => []

/-- A message shows the integers of its fault. -/
theorem worded_message (cause : Fault) : Worded cause.integers cause.message := by
  cases cause with
  | unknownLabel value enumName => exact (Value.worded_display value).map _
  | unknownCode code enumName => exact (Worded.ofInt code).map _
  | lengthMismatch expected got | tooLarge expected got =>
      exact (Worded.ofInt _).bind fun _ => (Worded.ofInt _).map _
  | _ => exact .pure _

end Fault

/-- A fault is raised as an error of the codec if its message shows short integers only; if not, as
the failure to write one. -/
theorem Failure.raised_fault (cause : Fault) (path? : Option Path) :
    ((∃ message, cause.message = .ok message ∧
        raised (.fault cause path?) = .error cause.kind message path?) ∧
      ∀ i ∈ cause.integers, Numeral.Short i) ∨
    ∃ i ∈ cause.integers, ¬ Numeral.Short i ∧
      raised (.fault cause path?) = .valueError (Numeral.TooLong.message ⟨i⟩) := by
  have h := cause.worded_message
  rw [raised, Fault.raised.eq_def]
  generalize cause.message = message at h ⊢
  cases h with
  | ok short => exact .inl ⟨⟨_, rfl, rfl⟩, short⟩
  | error shown long => exact .inr ⟨_, shown, long, rfl⟩

end WireSchema
