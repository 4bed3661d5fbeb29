import Mathlib.Data.List.Basic
import WireSchema.Number.Numeral
import WireSchema.Proofs.Text.Plain
import WireSchema.Value

/-!
# Values — Vocabularies

A vocabulary says which integers and which texts may stand in a value (`Value.Within`). The names of
members are among the texts.

In a JSON text stand short integers and plain texts (`Vocabulary.json`); what a value says is in the
vocabulary of the value, which is at least that (`Vocabulary.ofValue`).
-/

namespace WireSchema

namespace Value

mutual

/-- All texts in a value, the names of members among them. -/
def texts : Value → List Text
  | text t => [t]
  | list items => textsOfItems items
  | map members => textsOfMembers members
  | _ => []

def textsOfItems : List Value → List Text
  | [] => []
  | v :: items => texts v ++ textsOfItems items

def textsOfMembers : Fields → List Text
  | [] => []
  | (name, v) :: members => name :: (texts v ++ textsOfMembers members)

end

theorem mem_integersOfItems {items : List Value} {i : Int} :
    i ∈ integersOfItems items ↔ ∃ v ∈ items, i ∈ v.integers := by
  induction items with
  | nil => exact ⟨(nomatch ·), fun ⟨_, h, _⟩ => nomatch h⟩
  | cons w items ih => rw [integersOfItems, List.mem_append, ih, List.exists_mem_cons_iff]

theorem mem_integersOfMembers {members : Fields} {i : Int} :
    i ∈ integersOfMembers members ↔ ∃ m ∈ members, i ∈ m.2.integers := by
  induction members with
  | nil => exact ⟨(nomatch ·), fun ⟨_, h, _⟩ => nomatch h⟩
  | cons m members ih => rw [integersOfMembers, List.mem_append, ih, List.exists_mem_cons_iff]

theorem mem_textsOfItems {items : List Value} {t : Text} :
    t ∈ textsOfItems items ↔ ∃ v ∈ items, t ∈ v.texts := by
  induction items with
  | nil => exact ⟨(nomatch ·), fun ⟨_, h, _⟩ => nomatch h⟩
  | cons w items ih => rw [textsOfItems, List.mem_append, ih, List.exists_mem_cons_iff]

theorem mem_textsOfMembers {members : Fields} {t : Text} :
    t ∈ textsOfMembers members ↔ ∃ m ∈ members, t = m.1 ∨ t ∈ m.2.texts := by
  induction members with
  | nil => exact ⟨(nomatch ·), fun ⟨_, h, _⟩ => nomatch h⟩
  | cons m members ih =>
      rw [textsOfMembers, List.mem_cons, List.mem_append, ih, List.exists_mem_cons_iff, or_assoc]

end Value

/-- Which integers and which texts there are. -/
structure Vocabulary where
  integer : Int → Prop
  text : Text → Prop

namespace Vocabulary

/-- What a JSON text can say. -/
def json : Vocabulary := ⟨Numeral.Short, Text.Plain⟩

/-- What a value says, and what a JSON text can say. -/
def ofValue (v : Value) : Vocabulary where
  integer i := i ∈ v.integers ∨ Numeral.Short i
  text t := t ∈ v.texts ∨ t.Plain

/-- All that a JSON text can say is in the vocabulary. -/
structure Wide (P : Vocabulary) : Prop where
  integer {i : Int} (h : Numeral.Short i) : P.integer i
  text {t : Text} (h : t.Plain) : P.text t

/-- The vocabulary of a value has room for all that a text can say. -/
theorem Wide.ofValue (v : Value) : (ofValue v).Wide := ⟨.inr, .inr⟩

/-- What the library itself writes is in every wide vocabulary. -/
theorem Wide.literal {P : Vocabulary} (hP : P.Wide) (s : String) : P.text s :=
  hP.text (Text.plain_ofString s)

end Vocabulary

namespace Value

variable {P Q : Vocabulary} {v : Value} {items : List Value} {members : Fields}

/-- The integers and the texts in a value are of the vocabulary. -/
structure Within (P : Vocabulary) (v : Value) : Prop where
  integers : ∀ i ∈ v.integers, P.integer i
  texts : ∀ t ∈ v.texts, P.text t

/-- A value is within its own vocabulary. -/
theorem within_ofValue (v : Value) : v.Within (.ofValue v) := ⟨fun _ => .inl, fun _ => .inl⟩

theorem within_bool (b : Bool) : (bool b).Within P :=
  ⟨List.forall_mem_nil _, List.forall_mem_nil _⟩

theorem within_float (x : Binary64) : (float x).Within P :=
  ⟨List.forall_mem_nil _, List.forall_mem_nil _⟩

/-- An integer keeps to a vocabulary that has it. -/
theorem within_int_iff {i : Int} : (int i).Within P ↔ P.integer i :=
  ⟨fun h => h.integers i List.mem_cons_self,
    fun h => ⟨List.forall_mem_singleton.mpr h, List.forall_mem_nil _⟩⟩

/-- A text keeps to a vocabulary that has it. -/
theorem within_text_iff {t : Text} : (text t).Within P ↔ P.text t :=
  ⟨fun h => h.texts t List.mem_cons_self,
    fun h => ⟨List.forall_mem_nil _, List.forall_mem_singleton.mpr h⟩⟩

/-- A list is within a vocabulary if its items are. -/
theorem within_list_iff : (list items).Within P ↔ ∀ v ∈ items, v.Within P := by
  constructor
  · intro h v hv
    exact ⟨fun i hi => h.integers i (mem_integersOfItems.mpr ⟨v, hv, hi⟩),
      fun t ht => h.texts t (mem_textsOfItems.mpr ⟨v, hv, ht⟩)⟩
  · refine fun h => ⟨fun i hi => ?_, fun t ht => ?_⟩
    · obtain ⟨v, hv, hi⟩ := mem_integersOfItems.mp hi
      exact (h v hv).integers i hi
    · obtain ⟨v, hv, ht⟩ := mem_textsOfItems.mp ht
      exact (h v hv).texts t ht

/-- A map is within a vocabulary if its names and its values are. -/
theorem within_map_iff :
    (map members).Within P ↔ ∀ m ∈ members, P.text m.1 ∧ m.2.Within P := by
  constructor
  · intro h m hm
    exact ⟨h.texts m.1 (mem_textsOfMembers.mpr ⟨m, hm, .inl rfl⟩),
      fun i hi => h.integers i (mem_integersOfMembers.mpr ⟨m, hm, hi⟩),
      fun t ht => h.texts t (mem_textsOfMembers.mpr ⟨m, hm, .inr ht⟩)⟩
  · refine fun h => ⟨fun i hi => ?_, fun t ht => ?_⟩
    · obtain ⟨m, hm, hi⟩ := mem_integersOfMembers.mp hi
      exact (h m hm).2.integers i hi
    · obtain ⟨m, hm, rfl | ht⟩ := mem_textsOfMembers.mp ht
      · exact (h m hm).1
      · exact (h m hm).2.texts t ht

end Value

end WireSchema
