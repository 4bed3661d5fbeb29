import Mathlib.Data.List.Chain
import WireSchema.Proofs.Consistency.Acyclic

/-!
# Consistency — Cycles of the embedding

The structs of a schema are a graph: an edge leads from a struct to each declared struct that a
field of it embeds (`Schema.Edge`). **The search for cycles is exact** (`Schema.cycles_exact`): it
finds a cycle if there is one, and nothing but cycles.

That it misses none is what `Recursion.acc_of_search` shows. What it reports is a cycle because the
way down to a name is one along the embedding, and its end from that name on leads back to the name
(`Recursion.isCycle_of_way`).

The search ends whatever the graph is like, since every step down enters a struct that has not been
entered. The bound on the steps therefore cuts nothing: the equation that searching a name is
searching the names it embeds has one solution (`Recursion.Unbounded.eq_search`).
-/

namespace WireSchema

/-- Every value of a type holds one of a struct: the type is the struct, or an array of a fixed
length above zero of such a type. -/
inductive FieldType.Embeds (name : Text) : FieldType → Prop
  | struct : Embeds name (.struct name)
  | array {element : FieldType} {count : Nat} (pos : 0 < count) (inner : Embeds name element) :
      Embeds name (.array element (.static count))

theorem FieldType.mem_embedded_iff {name : Text} {t : FieldType} :
    name ∈ t.embedded ↔ t.Embeds name := by
  induction t with
  | int | float | text | enum | union =>
      exact iff_of_false (fun h => nomatch h) (fun h => nomatch h)
  | struct other =>
      rw [embedded, List.mem_singleton]
      refine ⟨fun h => h ▸ .struct, fun h => ?_⟩
      cases h
      rfl
  | array element length ih =>
      cases length with
      | dynamic => exact iff_of_false (fun h => nomatch h) (fun h => nomatch h)
      | static count =>
          rw [embedded]
          by_cases hpos : 0 < count
          · rw [if_pos hpos, ih]
            refine ⟨.array hpos, fun h => ?_⟩
            cases h with
            | array _ inner => exact inner
          · rw [if_neg hpos]
            refine iff_of_false (fun h => nomatch h) fun h => ?_
            cases h with
            | array pos _ => exact hpos pos

namespace Schema

variable {schema : Schema}

/-- An edge of the graph of structs: a field of the one embeds the other, which is declared. -/
def Edge (schema : Schema) (outer inner : Text) : Prop :=
  (∃ s field t, schema.struct? outer = some s ∧ (field, t) ∈ s.fields ∧ t.Embeds inner) ∧
    inner ∈ schema.structNames

/-- A way along edges from a struct back to it. -/
def IsCycle (schema : Schema) (names : List Text) : Prop :=
  ∃ name inner, names = name :: (inner ++ [name]) ∧ names.IsChain schema.Edge

theorem edge_iff {outer inner : Text} :
    schema.Edge outer inner ↔ schema.Embeds inner outer ∧ inner ∈ schema.structNames := by
  refine and_congr_left fun _ => ⟨?_, ?_⟩
  · rintro ⟨s, field, t, hs, hm, ht⟩
    exact ⟨s, hs, List.mem_flatMap.mpr ⟨_, hm, FieldType.mem_embedded_iff.mpr ht⟩⟩
  · rintro ⟨s, hs, hm⟩
    obtain ⟨⟨field, t⟩, hm, ht⟩ := List.mem_flatMap.mp hm
    exact ⟨s, field, t, hs, hm, FieldType.mem_embedded_iff.mp ht⟩

theorem IsCycle.transGen {names : List Text} (h : schema.IsCycle names) :
    ∃ name, Relation.TransGen schema.Edge name name := by
  obtain ⟨name, inner, rfl, hchain⟩ := h
  refine ⟨name, ?_⟩
  -- the first edge, and the rest of the way
  cases inner with
  | nil => exact .single (List.isChain_pair.mp hchain)
  | cons next inner =>
      obtain ⟨hfirst, hrest⟩ := List.isChain_cons_cons.mp hchain
      exact .head' hfirst (List.relationReflTransGen_of_exists_isChain_cons _ hrest
        (List.getLast_append_singleton (next :: inner)))

/-- Where the search finds no cycle the graph has none. -/
theorem Acyclic.not_transGen_edge (h : schema.Acyclic) (name : Text) :
    ¬ Relation.TransGen schema.Edge name name := by
  intro hn
  refine h.not_transGen_self name (Relation.transGen_swap.mp (hn.lift id fun outer inner he => ?_))
  exact (edge_iff.mp he).1

end Schema

namespace Recursion

variable {schema : Schema}

/-! ### The search ends -/

/-- Searches from a name, and from the names below it with another searcher. -/
def entered (schema : Schema) (searcher : List Text → Text → Search → Search)
    (stack : List Text) (name : Text) (state : Search) : Search :=
  if name ∈ stack then
    { state with cycles := state.cycles ++ [stack.dropWhile (· ≠ name) ++ [name]] }
  else if name ∈ state.visited then state
  else
    let state := { state with visited := state.visited ++ [name] }
    match schema.struct? name with
    | some s => searchAll (searcher (stack ++ [name])) s.embedded state
    | none => state

/-- A searcher that searches the names below a name itself, however deep. -/
def Unbounded (schema : Schema) (searcher : List Text → Text → Search → Search) : Prop :=
  ∀ stack name state, searcher stack name state = entered schema searcher stack name state

theorem search_succ_eq (depth : Nat) (stack : List Text) (name : Text) (state : Search) :
    search schema (depth + 1) stack name state =
      entered schema (search schema depth) stack name state := by
  rw [search, entered]
  cases schema.struct? name <;> rfl

/-- With no step down left, the names below are passed over. -/
theorem search_zero_eq (stack : List Text) (name : Text) (state : Search) :
    search schema 0 stack name state =
      entered schema (fun _ _ state => state) stack name state := by
  have hall : ∀ (names : List Text) (state : Search),
      searchAll (fun _ state => state) names state = state := by
    intro names
    induction names with
    | nil => exact fun _ => rfl
    | cons _ _ ih => exact ih
  rw [search, entered]
  simp only [hall]
  cases schema.struct? name <;> rfl

/-- What each search keeps, all of them keep. -/
theorem searchAll_keeps {P : Search → Prop} {visit : Text → Search → Search}
    {names : List Text} (h : ∀ name ∈ names, ∀ state, P state → P (visit name state)) :
    ∀ {state}, P state → P (searchAll visit names state) := by
  induction names with
  | nil => exact id
  | cons name names ih =>
      exact fun hp => ih (fun other hm => h other (List.mem_cons_of_mem _ hm))
        (h name List.mem_cons_self _ hp)

/-- Two ways to search alike from each of the states that the one comes to. -/
theorem searchAll_congr {P : Search → Prop} {visit other : Text → Search → Search}
    {names : List Text} (hkeeps : ∀ name state, P state → P (visit name state))
    (h : ∀ name state, P state → other name state = visit name state) :
    ∀ {state}, P state → searchAll other names state = searchAll visit names state := by
  induction names with
  | nil => exact fun _ => rfl
  | cons name names ih =>
      intro state hp
      rw [searchAll, searchAll, h name state hp]
      exact ih (hkeeps name state hp)

theorem visited_subset_entered {searcher : List Text → Text → Search → Search}
    {stack : List Text} {name : Text} {state : Search}
    (h : ∀ stack name state, state.visited ⊆ (searcher stack name state).visited) :
    state.visited ⊆ (entered schema searcher stack name state).visited := by
  rw [entered]
  split
  · exact List.Subset.refl _
  · split
    · exact List.Subset.refl _
    · dsimp only
      split
      · exact searchAll_keeps (P := fun next => state.visited ⊆ next.visited)
          (fun _ _ _ hp => List.Subset.trans hp (h _ _ _)) (List.subset_append_left _ _)
      · exact List.subset_append_left _ _

/-- What has been entered stays so. -/
theorem visited_subset_search {depth : Nat} : ∀ (stack : List Text) (name : Text)
    (state : Search), state.visited ⊆ (search schema depth stack name state).visited := by
  induction depth with
  | zero =>
      intro stack name state
      rw [search_zero_eq]
      exact visited_subset_entered fun _ _ _ => List.Subset.refl _
  | succ depth ih =>
      intro stack name state
      rw [search_succ_eq]
      exact visited_subset_entered ih

/-- Searching alike where fewer structs are left to enter is searching alike from a name. -/
theorem entered_congr {searcher other : List Text → Text → Search → Search}
    {stack : List Text} {name : Text} {state : Search}
    (hgrows : ∀ stack name state, state.visited ⊆ (other stack name state).visited)
    (h : ∀ stack name next, schema.unentered next.visited < schema.unentered state.visited →
      searcher stack name next = other stack name next) :
    entered schema searcher stack name state = entered schema other stack name state := by
  rw [entered, entered]
  refine ite_congr rfl (fun _ => rfl) fun _ => ite_congr rfl (fun _ => rfl) fun hv => ?_
  cases hs : schema.struct? name with
  | none => rfl
  | some s =>
      refine searchAll_congr
        (P := fun next => schema.unentered next.visited < schema.unentered state.visited)
        (fun _ _ hp => Nat.lt_of_le_of_lt (Schema.unentered_anti (hgrows _ _ _)) hp)
        (fun _ _ hp => h _ _ _ hp) ?_
      exact Schema.unentered_lt hs hv (List.mem_append_right _ (List.mem_singleton.mpr rfl))
        (List.subset_append_left _ _)

/-- With as many steps down as there are structs to enter, the search is that without a bound. -/
theorem Unbounded.eq_search {searcher : List Text → Text → Search → Search}
    (h : Unbounded schema searcher) {depth : Nat} :
    ∀ (stack : List Text) (name : Text) (state : Search),
      schema.unentered state.visited ≤ depth →
      searcher stack name state = search schema depth stack name state := by
  induction depth with
  | zero =>
      intro stack name state hleft
      rw [h, search_zero_eq]
      exact entered_congr (fun _ _ _ => List.Subset.refl _) fun _ _ _ hlt => by omega
  | succ depth ih =>
      intro stack name state hleft
      rw [h, search_succ_eq]
      exact entered_congr visited_subset_search fun _ _ _ hlt => ih _ _ _ (by omega)

/-- One step more than there are structs to enter changes nothing. -/
theorem search_succ_eq_self {depth : Nat} :
    ∀ (stack : List Text) (name : Text) (state : Search),
      schema.unentered state.visited ≤ depth →
      search schema (depth + 1) stack name state = search schema depth stack name state := by
  induction depth with
  | zero =>
      intro stack name state hleft
      rw [search_succ_eq, search_zero_eq]
      exact entered_congr (fun _ _ _ => List.Subset.refl _) fun _ _ _ hlt => by omega
  | succ depth ih =>
      intro stack name state hleft
      rw [search_succ_eq, search_succ_eq]
      exact entered_congr visited_subset_search fun _ _ _ hlt => ih _ _ _ (by omega)

/-- The search with as many steps down as there are structs. -/
def searcher (schema : Schema) : List Text → Text → Search → Search :=
  search schema schema.structs.length

theorem unbounded_searcher (schema : Schema) : Unbounded schema (searcher schema) := by
  intro stack name state
  rw [searcher, ← search_succ_eq]
  exact (search_succ_eq_self stack name state (Schema.unentered_le schema _)).symm

/-- There is no other search without a bound. -/
theorem Unbounded.eq_searcher {other : List Text → Text → Search → Search}
    (h : Unbounded schema other) : other = searcher schema := by
  funext stack name state
  exact h.eq_search stack name state (Schema.unentered_le schema _)

/-- The cycles are those that a search without a bound finds. -/
theorem cycles_eq (schema : Schema) :
    cycles schema = (searchAll (searcher schema []) schema.structNames ⟨[], []⟩).cycles := by
  have hstep : search schema (schema.structs.length + 1) [] = searcher schema [] := by
    funext name state
    exact search_succ_eq_self [] name state (Schema.unentered_le schema _)
  rw [cycles, hstep]
  rfl

/-! ### What is found is a cycle -/

/-- The stack holds declared structs, each of them embedding the next and the last the name. -/
structure Way (schema : Schema) (stack : List Text) (name : Text) : Prop where
  declared : ∀ outer ∈ stack, outer ∈ schema.structNames
  chain : (stack ++ [name]).IsChain fun outer inner => schema.Embeds inner outer

theorem Way.start (name : Text) : Way schema [] name :=
  ⟨List.forall_mem_nil _, List.isChain_singleton name⟩

theorem Way.down {stack : List Text} {name inner : Text} {s : StructDef}
    (way : Way schema stack name) (hs : schema.struct? name = some s) (hi : inner ∈ s.embedded) :
    Way schema (stack ++ [name]) inner where
  declared outer hm := by
    rcases List.mem_append.mp hm with hm | hm
    · exact way.declared outer hm
    · exact List.mem_singleton.mp hm ▸ Schema.mem_structNames hs
  chain := by
    rw [List.append_assoc]
    refine List.isChain_split.mpr ⟨way.chain, List.isChain_pair.mpr ⟨s, hs, hi⟩⟩

/-- A name that is on the way to it closes a cycle. -/
theorem isCycle_of_way {stack : List Text} {name : Text} (way : Way schema stack name)
    (h : name ∈ stack) : schema.IsCycle (stack.dropWhile (· ≠ name) ++ [name]) := by
  obtain ⟨before, inner, rfl, hn⟩ := List.eq_append_cons_of_mem h
  have hdrop : (before ++ name :: inner).dropWhile (· ≠ name) = name :: inner := by
    rw [List.dropWhile_append_of_pos, List.dropWhile_cons_of_neg]
    · simp
    · exact fun other hm => decide_eq_true fun he => hn (he ▸ hm)
  rw [hdrop]
  refine ⟨name, inner, rfl, ?_⟩
  have hchain := (List.append_assoc _ _ _ ▸ way.chain).right_of_append
  refine hchain.imp_of_mem_imp fun outer other _ ho he => Schema.edge_iff.mpr ⟨he, ?_⟩
  rcases List.mem_append.mp ho with ho | ho
  · exact way.declared other (List.mem_append_right _ ho)
  · exact List.mem_singleton.mp ho ▸ way.declared name h

/-- Only cycles have been found. -/
def Genuine (schema : Schema) (state : Search) : Prop :=
  ∀ cycle ∈ state.cycles, schema.IsCycle cycle

theorem genuine_entered {searcher : List Text → Text → Search → Search} {stack : List Text}
    {name : Text} {state : Search} (way : Way schema stack name) (hp : Genuine schema state)
    (h : ∀ {stack name next}, Way schema stack name → Genuine schema next →
      Genuine schema (searcher stack name next)) :
    Genuine schema (entered schema searcher stack name state) := by
  rw [entered]
  split
  · next hs =>
      intro cycle hm
      rcases List.mem_append.mp hm with hm | hm
      · exact hp cycle hm
      · exact List.mem_singleton.mp hm ▸ isCycle_of_way way hs
  · split
    · exact hp
    · dsimp only
      split
      · next s hs =>
          exact searchAll_keeps (P := Genuine schema) (fun _ hi _ hp => h (way.down hs hi) hp) hp
      · exact hp

theorem genuine_search {depth : Nat} : ∀ {stack : List Text} {name : Text} {state : Search},
    Way schema stack name → Genuine schema state →
      Genuine schema (search schema depth stack name state) := by
  induction depth with
  | zero =>
      intro stack name state way hp
      rw [search_zero_eq]
      exact genuine_entered way hp fun _ hp => hp
  | succ depth ih =>
      intro stack name state way hp
      rw [search_succ_eq]
      exact genuine_entered way hp ih

/-- **What is found is a cycle.** -/
theorem isCycle_of_mem_cycles {cycle : List Text} (h : cycle ∈ cycles schema) :
    schema.IsCycle cycle := by
  refine searchAll_keeps (P := Genuine schema) (fun name _ _ hp => ?_) ?_ cycle h
  · exact genuine_search (Way.start name) hp
  · exact fun _ hm => nomatch hm

end Recursion

namespace Schema

/-- **The search for cycles is exact.** It ends: searching a name is searching the names that it
embeds, of which there is one solution, and that finds the cycles. It reports a cycle if and only if
there is a struct from which edges lead back to it; and all that it reports are ways along edges
from a struct back to it. -/
theorem cycles_exact (schema : Schema) :
    (∃ searcher, Recursion.Unbounded schema searcher ∧
      (∀ other, Recursion.Unbounded schema other → other = searcher) ∧
      Recursion.cycles schema =
        (Recursion.searchAll (searcher []) schema.structNames ⟨[], []⟩).cycles) ∧
    (Recursion.cycles schema ≠ [] ↔ ∃ name, Relation.TransGen schema.Edge name name) ∧
    ∀ cycle ∈ Recursion.cycles schema, schema.IsCycle cycle := by
  refine ⟨⟨Recursion.searcher schema, Recursion.unbounded_searcher schema,
    fun _ h => h.eq_searcher, Recursion.cycles_eq schema⟩, ⟨fun h => ?_, fun ⟨name, hn⟩ h => ?_⟩,
    fun _ h => Recursion.isCycle_of_mem_cycles h⟩
  · obtain ⟨cycle, hm⟩ := List.exists_mem_of_ne_nil _ h
    exact (Recursion.isCycle_of_mem_cycles hm).transGen
  · exact Acyclic.not_transGen_edge h name hn

/-- Two rings, one of them through the other, and a ring that an empty array does not close. -/
def rings : Schema where
  structs :=
    [⟨"Outer", [("inner", .array (.struct "Inner") (.static 2))]⟩,
      ⟨"Inner", [("outer", .struct "Outer"), ("inner", .struct "Inner")]⟩,
      ⟨"Open", [("open", .array (.struct "Open") (.static 0))]⟩]
  enums := []
  names_nodup := by decide

example :
    Recursion.cycles rings =
      ([["Outer", "Inner", "Outer"], ["Inner", "Inner"]] : List (List Text)) := by
  decide +kernel

end Schema

end WireSchema
