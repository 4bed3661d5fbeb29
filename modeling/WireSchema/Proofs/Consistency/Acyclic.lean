import Mathlib.Data.List.Perm.Subperm
import Mathlib.Order.RelClasses
import WireSchema.Consistency.Recursion
import WireSchema.Proofs.Consistency.Sound
import WireSchema.Schema.Summary

/-!
# Consistency — Embedding ends

A search that finds no cycle has shown the embedding of structs to be well-founded: a name that it
has entered and left embeds only names that it has left before, and a name on the way is never
entered again (`Recursion.acc_of_search`). Embedding is then measured by `Schema.rank`, the number
of structs below a struct, which falls with every step and stays below the number of all.
-/

namespace WireSchema

namespace Schema

/-- Every value of the struct `outer` holds one of the struct `inner`. -/
def Embeds (schema : Schema) (inner outer : Text) : Prop :=
  ∃ s, schema.struct? outer = some s ∧ inner ∈ s.embedded

variable {schema : Schema}

theorem mem_structNames {name : Text} {s : StructDef} (h : schema.struct? name = some s) :
    name ∈ schema.structNames :=
  List.mem_map.mpr ⟨s, struct?_mem h, struct?_name h⟩

theorem length_structNames (schema : Schema) :
    schema.structNames.length = schema.structs.length :=
  List.length_map _

/-- Names of structs that do not repeat are no more than there are structs. -/
theorem length_le_of_nodup {names : List Text} (hn : names.Nodup)
    (hs : ∀ name ∈ names, name ∈ schema.structNames) : names.length ≤ schema.structs.length :=
  length_structNames schema ▸ (List.subperm_of_subset hn hs).length_le

/-- The number of structs that are not among these. -/
def unentered (schema : Schema) (names : List Text) : Nat :=
  (schema.structNames.filter (· ∉ names)).length

/-- No more structs can be entered than there are. -/
theorem unentered_le (schema : Schema) (names : List Text) :
    schema.unentered names ≤ schema.structs.length :=
  length_structNames schema ▸ List.length_filter_le _ _

/-- The more names are entered, the fewer structs are left. -/
theorem unentered_anti {names others : List Text} (h : names ⊆ others) :
    schema.unentered others ≤ schema.unentered names := by
  refine (List.monotone_filter_right _ fun name hn => ?_).length_le
  rw [decide_eq_true_eq] at hn ⊢
  exact fun hm => hn (h hm)

/-- A struct that is entered is one less that is left. -/
theorem unentered_lt {name : Text} {s : StructDef} (hs : schema.struct? name = some s)
    {names others : List Text} (hn : name ∉ names) (hm : name ∈ others) (h : names ⊆ others) :
    schema.unentered others < schema.unentered names := by
  have hsub : schema.structNames.filter (· ∉ others) =
      (schema.structNames.filter (· ∉ names)).filter (· ∉ others) := by
    rw [List.filter_filter]
    refine List.filter_congr fun other _ => ?_
    rw [Bool.eq_iff_iff, Bool.and_eq_true, decide_eq_true_eq, decide_eq_true_eq]
    exact ⟨fun ho => ⟨ho, fun hin => ho (h hin)⟩, fun ho => ho.1⟩
  rw [unentered, unentered, hsub]
  refine List.length_filter_lt_length_iff_exists.mpr ⟨name, ?_, ?_⟩
  · exact List.mem_filter.mpr ⟨mem_structNames hs, decide_eq_true hn⟩
  · exact fun ho => of_decide_eq_true ho hm

/-- Another struct that is entered is one less that is left. -/
theorem unentered_cons_lt {name : Text} {s : StructDef} (hs : schema.struct? name = some s)
    {names : List Text} (hn : name ∉ names) :
    schema.unentered (name :: names) < schema.unentered names :=
  unentered_lt hs hn List.mem_cons_self (List.subset_cons_self _ _)

end Schema

namespace Recursion

variable {schema : Schema}

/-! ### The search -/

section

variable {depth : Nat} {stack : List Text} {name : Text} {state : Search}

/-- A name on the way to itself closes a cycle. -/
theorem search_of_mem_stack (h : name ∈ stack) :
    (search schema depth stack name state).cycles ≠ [] := by
  cases depth <;> rw [search, if_pos h] <;>
    exact List.append_ne_nil_of_right_ne_nil _ (List.cons_ne_nil _ _)

/-- A name that was visited is not searched again. -/
theorem search_of_visited (hs : name ∉ stack) (h : name ∈ state.visited) :
    search schema depth stack name state = state := by
  cases depth <;> rw [search, if_neg hs, if_pos h]

/-- A name of no struct is visited, and leads nowhere. -/
theorem search_of_undeclared (hs : name ∉ stack) (hv : name ∉ state.visited)
    (h : schema.struct? name = none) :
    search schema depth stack name state =
      { state with visited := state.visited ++ [name] } := by
  cases depth <;> rw [search, if_neg hs, if_neg hv, h]

/-- Beyond its bound the search visits a name and goes no further. -/
theorem search_zero (hs : name ∉ stack) (hv : name ∉ state.visited) :
    search schema 0 stack name state = { state with visited := state.visited ++ [name] } := by
  rw [search, if_neg hs, if_neg hv]
  cases schema.struct? name <;> rfl

/-- A struct is searched by way of the structs that it embeds. -/
theorem search_succ (hs : name ∉ stack) (hv : name ∉ state.visited) {s : StructDef}
    (h : schema.struct? name = some s) :
    search schema (depth + 1) stack name state =
      searchAll (search schema depth (stack ++ [name])) s.embedded
        { state with visited := state.visited ++ [name] } := by
  rw [search, if_neg hs, if_neg hv, h]

end

/-- Cycles that have been found stay. -/
theorem cycles_of_searchAll {visit : Text → Search → Search}
    (hv : ∀ name state, (visit name state).cycles = [] → state.cycles = []) (names : List Text) :
    ∀ state, (searchAll visit names state).cycles = [] → state.cycles = [] := by
  induction names with
  | nil => exact fun _ h => h
  | cons name names ih => exact fun state h => hv name state (ih _ h)

/-- Cycles that were found are not lost. -/
theorem cycles_of_search {depth : Nat} : ∀ {stack : List Text} (name : Text) (state : Search),
    (search schema depth stack name state).cycles = [] → state.cycles = [] := by
  induction depth with
  | zero =>
      intro stack name state h
      by_cases hs : name ∈ stack
      · exact absurd h (search_of_mem_stack hs)
      · by_cases hv : name ∈ state.visited
        · rwa [search_of_visited hs hv] at h
        · rwa [search_zero hs hv] at h
  | succ depth ih =>
      intro stack name state h
      by_cases hs : name ∈ stack
      · exact absurd h (search_of_mem_stack hs)
      · by_cases hv : name ∈ state.visited
        · rwa [search_of_visited hs hv] at h
        · cases hd : schema.struct? name with
          | none => rwa [search_of_undeclared hs hv hd] at h
          | some s =>
              rw [search_succ hs hv hd] at h
              have hmono : ∀ other state,
                  (search schema depth (stack ++ [name]) other state).cycles = [] →
                    state.cycles = [] := fun other state => ih other state
              have hcycles := cycles_of_searchAll hmono s.embedded _ h
              exact hcycles

/-- What a search keeps: whatever was entered and is not on the way embeds nothing without end. -/
def Settled (schema : Schema) (stack : List Text) (state : Search) : Prop :=
  ∀ name ∈ state.visited, name ∈ stack ∨ Acc schema.Embeds name

/-- Searching names one after the other settles all of them, if no cycle is found. -/
theorem settled_searchAll {visit : Text → Search → Search} {stack : List Text}
    (hmono : ∀ name state, (visit name state).cycles = [] → state.cycles = [])
    (hvisit : ∀ name state, Settled schema stack state → (visit name state).cycles = [] →
      Settled schema stack (visit name state) ∧ Acc schema.Embeds name) (names : List Text) :
    ∀ state, Settled schema stack state → (searchAll visit names state).cycles = [] →
      Settled schema stack (searchAll visit names state) ∧
        ∀ name ∈ names, Acc schema.Embeds name := by
  induction names with
  | nil => exact fun state hs _ => ⟨hs, fun _ h => nomatch h⟩
  | cons name names ih =>
      intro state hs h
      obtain ⟨hs', hacc⟩ := hvisit name state hs (cycles_of_searchAll hmono names _ h)
      obtain ⟨hall, haccs⟩ := ih _ hs' h
      refine ⟨hall, fun other hm => ?_⟩
      rcases List.mem_cons.mp hm with rfl | hm
      · exact hacc
      · exact haccs other hm

/-- A name of no struct embeds nothing. -/
theorem acc_of_undeclared {name : Text} (h : schema.struct? name = none) :
    Acc schema.Embeds name :=
  ⟨name, fun _ ⟨_, hs, _⟩ => nomatch h ▸ hs⟩

/-- A search without a cycle has found that its name embeds nothing without end. -/
theorem acc_of_search {depth : Nat} : ∀ {stack : List Text},
    depth + stack.length = schema.structs.length + 1 → stack.Nodup →
    (∀ name ∈ stack, name ∈ schema.structNames) → ∀ (name : Text) (state : Search),
    Settled schema stack state → (search schema depth stack name state).cycles = [] →
      Settled schema stack (search schema depth stack name state) ∧ Acc schema.Embeds name := by
  induction depth with
  | zero =>
      -- the way would have to hold more structs than there are
      intro stack hl hn hm
      have := Schema.length_le_of_nodup hn hm
      omega
  | succ depth ih =>
      intro stack hl hn hm name state hset h
      by_cases hs : name ∈ stack
      · exact absurd h (search_of_mem_stack hs)
      by_cases hv : name ∈ state.visited
      · -- it was left without a cycle
        rw [search_of_visited hs hv]
        exact ⟨hset, (hset name hv).resolve_left hs⟩
      cases hd : schema.struct? name with
      | none =>
          rw [search_of_undeclared hs hv hd]
          refine ⟨fun other ho => ?_, acc_of_undeclared hd⟩
          rcases List.mem_append.mp ho with ho | ho
          · exact hset other ho
          · exact Or.inr (List.mem_singleton.mp ho ▸ acc_of_undeclared hd)
      | some s =>
          rw [search_succ hs hv hd] at h ⊢
          have hset' : Settled schema (stack ++ [name])
              { state with visited := state.visited ++ [name] } := by
            intro other ho
            rcases List.mem_append.mp ho with ho | ho
            · exact (hset other ho).imp_left (List.mem_append_left _)
            · exact Or.inl (List.mem_append_right _ ho)
          have hn' : (stack ++ [name]).Nodup :=
            List.nodup_append.mpr ⟨hn, List.nodup_singleton _,
              fun a ha b hb e => hs (List.mem_singleton.mp hb ▸ e ▸ ha)⟩
          have hm' : ∀ other ∈ stack ++ [name], other ∈ schema.structNames := by
            intro other ho
            rcases List.mem_append.mp ho with ho | ho
            · exact hm other ho
            · exact List.mem_singleton.mp ho ▸ Schema.mem_structNames hd
          have hl' : depth + (stack ++ [name]).length = schema.structs.length + 1 := by
            rw [List.length_append, List.length_singleton]
            omega
          obtain ⟨hdone, hacc⟩ := settled_searchAll (fun name state => cycles_of_search name state)
            (ih hl' hn' hm') s.embedded _ hset' h
          have hname : Acc schema.Embeds name := by
            refine ⟨name, fun inner ⟨s', hs', hi⟩ => ?_⟩
            cases hd.symm.trans hs'
            exact hacc inner hi
          refine ⟨fun other ho => ?_, hname⟩
          rcases hdone other ho with ho | ho
          · rcases List.mem_append.mp ho with ho | ho
            · exact Or.inl ho
            · exact Or.inr (List.mem_singleton.mp ho ▸ hname)
          · exact Or.inr ho

end Recursion

namespace Schema

variable {schema : Schema}

/-- A schema in which the search finds no cycle. -/
def Acyclic (schema : Schema) : Prop := Recursion.cycles schema = []

theorem Consistent.acyclic (h : schema.Consistent) : schema.Acyclic := h.no_cycles

/-- A schema in which the check finds no recursion has none. -/
theorem acyclic_of_inconsistencies (h : ∀ cycle, .recursion cycle ∉ schema.inconsistencies) :
    schema.Acyclic :=
  List.eq_nil_iff_forall_not_mem.mpr fun cycle hm =>
    h cycle (List.mem_append_right _ (List.mem_map_of_mem hm))

/-- **Embedding ends.** In a schema without cycles no struct lies in itself, however deep. -/
theorem Acyclic.wellFounded_embeds (h : schema.Acyclic) : WellFounded schema.Embeds := by
  refine ⟨fun name => ?_⟩
  cases hd : schema.struct? name with
  | none => exact Recursion.acc_of_undeclared hd
  | some s =>
      have hstart : Recursion.Settled schema [] ⟨[], []⟩ := fun _ hm => nomatch hm
      obtain ⟨-, hacc⟩ := Recursion.settled_searchAll
        (fun name state => Recursion.cycles_of_search name state)
        (Recursion.acc_of_search rfl List.nodup_nil fun _ hm => nomatch hm)
        schema.structNames _ hstart h
      exact hacc name (mem_structNames hd)

/-! ### Rank -/

open Classical in
/-- The number of structs that lie in a struct, however deep. -/
noncomputable def rank (schema : Schema) (name : Text) : Nat :=
  (schema.structNames.filter fun inner => Relation.TransGen schema.Embeds inner name).length

/-- In a schema without recursion no struct comes back to itself. -/
theorem Acyclic.not_transGen_self (h : schema.Acyclic) (name : Text) :
    ¬ Relation.TransGen schema.Embeds name name :=
  fun hn => (WellFounded.transGen h.wellFounded_embeds).asymmetric name name hn hn

/-- Whatever lies in an embedded struct lies in the embedding one, and the embedded struct itself
does so too. -/
theorem Acyclic.rank_lt_of_embeds (h : schema.Acyclic) {inner outer : Text}
    {s : StructDef} (hd : schema.struct? inner = some s) (he : schema.Embeds inner outer) :
    schema.rank inner < schema.rank outer := by
  classical
  have hsub : (schema.structNames.filter fun name => Relation.TransGen schema.Embeds name inner) =
      (schema.structNames.filter fun name => Relation.TransGen schema.Embeds name outer).filter
        fun name => Relation.TransGen schema.Embeds name inner := by
    rw [List.filter_filter]
    refine List.filter_congr fun name _ => ?_
    rw [Bool.eq_iff_iff, Bool.and_eq_true, decide_eq_true_eq, decide_eq_true_eq]
    exact ⟨fun hi => ⟨hi, hi.tail he⟩, fun hi => hi.1⟩
  rw [rank, rank, hsub]
  refine List.length_filter_lt_length_iff_exists.mpr ⟨inner, ?_, ?_⟩
  · exact List.mem_filter.mpr ⟨mem_structNames hd, decide_eq_true (.single he)⟩
  · exact fun hi => h.not_transGen_self inner (of_decide_eq_true hi)

/-- A struct does not lie in itself, so fewer structs lie in it than there are. -/
theorem Acyclic.rank_lt (h : schema.Acyclic) {name : Text} {s : StructDef}
    (hd : schema.struct? name = some s) : schema.rank name < schema.structs.length := by
  classical
  rw [rank, ← length_structNames]
  exact List.length_filter_lt_length_iff_exists.mpr
    ⟨name, mem_structNames hd, fun hi => h.not_transGen_self name (of_decide_eq_true hi)⟩

end Schema

end WireSchema
