import Mathlib.Data.Finset.Prod
import WireSchema.Proofs.Codec.ReadWalk
import WireSchema.Proofs.Codec.WriteUnbounded
import WireSchema.Proofs.Endless

/-!
# Codec — What is cut has no end

Decoder and encoder count the structs that they open inside one another and are cut at a bound. In
whatever schema the bound cuts only what has no end: a read or an encoding that is cut opens structs
inside one another for ever (`Decode.endless_of_run`, `Encode.endless_of_script`).

What is read behind the opening of a struct depends on its name and on the bit at which it begins,
so there are no more of them than `(n + 1) * N` in `n` bits. What is written behind the default of a
struct that fills a gap depends on its name alone; between two such defaults the encoder goes down
in one value, in which no more than so many maps lie inside one another (`Value.Nests`).
-/

namespace WireSchema

variable {schema : Schema}

/-! ### Reading -/

namespace Decode

/-- Positions that are the same but for their path. -/
inductive Task.Alike : Task → Task → Prop
  | value {earlier read t path path' c} :
      Alike (.value earlier read t path c) (.value earlier read t path' c)
  | elements {earlier read t path path' i count c} :
      Alike (.elements earlier read t path i count c) (.elements earlier read t path' i count c)
  | fields {left path path' earlier read c} :
      Alike (.fields left path earlier read c) (.fields left path' earlier read c)

/-- From a like position the decoder goes on to a like one. -/
theorem Leads.alike {a b a' : Task} (h : Leads schema a b) (like : a.Alike a') :
    ∃ b', Leads schema a' b' ∧ b.Alike b' := by
  cases h with
  | array counted => cases like; exact ⟨_, .array counted, .elements⟩
  | case chosen case => cases like; exact ⟨_, .case chosen case, .value⟩
  | element => cases like; exact ⟨_, .element, .value⟩
  | nextElement first taken => cases like; exact ⟨_, .nextElement first taken, .elements⟩
  | field => cases like; exact ⟨_, .field, .value⟩
  | nextField first taken => cases like; exact ⟨_, .nextField first taken, .fields⟩

/-- From a like position the decoder opens a like one. -/
theorem Opens.alike {a b a' : Task} (h : Opens schema a b) (like : a.Alike a') :
    ∃ b', Opens schema a' b' ∧ b.Alike b' := by
  cases h with
  | struct declared => cases like; exact ⟨_, .struct declared, .fields⟩

/-- A walk from a position can be made from a like one. -/
theorem likeness (schema : Schema) : Walk.Likeness (Leads schema) (Opens schema) Task.Alike where
  trans h h' := by cases h <;> cases h' <;> constructor
  leads := Leads.alike
  opens := Opens.alike

def Task.cursor : Task → Cursor
  | value _ _ _ _ c | elements _ _ _ _ _ _ c | fields _ _ _ _ c => c

/-- A declared struct that begins at a bit of the data. -/
inductive Task.Begins (schema : Schema) (data : Array UInt8) : Text × Nat → Task → Prop
  | struct {earlier read name s path c} (declared : schema.struct? name = some s)
      (hdata : c.data = data) : Begins schema data (name, c.position)
        (.value earlier read (.struct name) path c)

/-- The decoder never changes the data. -/
theorem Leads.data_eq {a b : Task} (h : Leads schema a b) : b.cursor.data = a.cursor.data := by
  cases h with
  | nextElement _ taken | nextField _ taken => exact taken.data_eq
  | array | case | element | field => rfl

variable {data : Array UInt8}

/-- Where a struct begins is a seed: it lies at some bit of the data. -/
theorem seeds (schema : Schema) (data : Array UInt8) :
    Walk.Seeds (Leads schema) (Opens schema) (Task.Begins schema data)
      (fun _ a => a.cursor.data = data) 0 where
  leads h hdata := h.data_eq.trans hdata
  opens h hdata := by
    cases h with
    | struct declared => exact .inr ⟨_, .struct declared hdata, hdata⟩

/-- Structs of one name that begin at one bit are opened alike. -/
theorem Task.Begins.again {key : Text × Nat} {a b c : Task} (ha : a.Begins schema data key)
    (hc : c.Begins schema data key) (h : Opens schema a b) :
    ∃ d, Opens schema c d ∧ b.Alike d := by
  cases ha with
  | @struct _ _ _ _ _ c₁ _ hdata =>
      cases h with
      | struct declared =>
          generalize hposition : c₁.position = position at hc
          cases hc with
          | @struct _ _ _ _ _ c₂ _ hdata' =>
              have hcursor : c₂ = c₁ := by
                cases c₁
                cases c₂
                cases hdata.trans hdata'.symm
                cases hposition
                rfl
              subst hcursor
              exact ⟨_, .struct declared, .fields⟩

/-- A seed is a declared struct at a bit of the data. -/
theorem Task.Begins.mem {key : Text × Nat} {a : Task} (h : a.Begins schema data key) :
    key ∈ schema.structNames.toFinset ×ˢ Finset.range (8 * data.size + 1) := by
  cases h with
  | @struct _ _ _ _ _ c declared hdata =>
      refine Finset.mem_product.mpr ⟨List.mem_toFinset.mpr (Schema.mem_structNames declared), ?_⟩
      have := c.position_le
      rw [hdata] at this
      exact Finset.mem_range.mpr (Nat.lt_succ_of_le this)

/-- A read that is cut has no end. -/
theorem endless_of_run {root : Text} (h : run schema data root = .stopped .tooDeep) :
    Walk.Endless (Leads schema) (Opens schema) (.start data root) := by
  cases ends_of_run h with
  | failed _ fails => cases fails
  | deep walk opens =>
      have hcard : (schema.structNames.toFinset ×ˢ Finset.range (8 * data.size + 1)).card ≤
          depthBound schema data.size := by
        rw [Finset.card_product, Finset.card_range, depthBound, Nat.mul_comm]
        refine Nat.mul_le_mul_left _ ((List.toFinset_card_le _).trans ?_)
        rw [Schema.length_structNames]
      have hlt : 0 + (schema.structNames.toFinset ×ˢ Finset.range (8 * data.size + 1)).card * 1 <
          depthBound schema data.size + 1 := by
        omega
      exact (seeds schema data).endless (likeness schema) Task.Begins.again
        (fun _ seed => seed.mem) rfl (walk.trans (.opening opens .here)) hlt

end Decode

/-! ### Maps inside one another -/

/-- No more than so many maps lie inside one another. -/
inductive Value.Nests : Nat → Value → Prop
  | map {n members} (h : ∀ name v, Fields.get? members name = some v → Nests n v) :
      Nests (n + 1) (.map members)
  | list {n items} (h : ∀ v ∈ items, Nests n v) : Nests n (.list items)
  | scalar {n v} (h : v.depth = 0) : Nests n v

namespace Value

/-- A bound on the nesting may be greater. -/
theorem Nests.succ {n : Nat} {v : Value} (h : v.Nests n) : v.Nests (n + 1) := by
  induction h with
  | map _ ih => exact .map ih
  | list _ ih => exact .list ih
  | scalar h => exact .scalar h

/-- A value nests no deeper than its depth. -/
theorem nests_of_depth_le {n : Nat} : ∀ {v : Value}, v.depth ≤ n → v.Nests n := by
  induction n with
  | zero =>
      exact fun hv => .scalar (Nat.le_zero.mp hv)
  | succ n ih =>
      intro v hv
      cases v with
      | map members =>
          exact .map fun name w hw =>
            ih (Nat.le_of_lt_succ (Nat.lt_of_lt_of_le (depth_lt_map hw) hv))
      | list items =>
          exact .list fun w hw =>
            (ih (Nat.le_of_lt_succ (Nat.lt_of_lt_of_le (depth_lt_list hw) hv))).succ
      | null | bool | int | float | text => exact .scalar rfl

/-- The members of a map nest less deep than the map. -/
theorem Nests.members {n : Nat} {members : Fields} (h : (Value.map members).Nests n) :
    ∃ m, n = m + 1 ∧ ∀ name v, Fields.get? members name = some v → v.Nests m := by
  cases h with
  | map h => exact ⟨_, rfl, h⟩
  | scalar h => cases h

/-- The items of a list nest no deeper than the list, for only maps count. -/
theorem Nests.items {n : Nat} {items : List Value} (h : (Value.list items).Nests n) :
    ∀ v ∈ items, v.Nests n := by
  cases h with
  | list h => exact h
  | scalar h => cases h

end Value

namespace Default

/-- A default of a type nests as deep as those of the structs in it. -/
theorem nests_ofType {struct : Text → Outcome Value} {siblings : Fields} {n : Nat}
    (hstruct : ∀ name d, struct name = .ok d → d.Nests n) (t : FieldType) :
    ∀ {d : Value}, ofType schema struct siblings t = .ok d → d.Nests n := by
  induction t with
  | int | float | text =>
      intro d h
      cases h
      exact .scalar rfl
  | enum name signed width default? =>
      intro d h
      rw [ofType] at h
      split at h
      · cases h
      · split at h <;> cases h <;> exact .scalar rfl
  | struct name => exact fun h => hstruct name _ h
  | array element length ih =>
      intro d h
      rw [ofType] at h
      split at h
      · cases h
        exact .list (List.forall_mem_nil _)
      · cases h
        exact .list (List.forall_mem_nil _)
      · split at h
        · next hd =>
            cases h
            exact .list fun v hv => (List.eq_of_mem_replicate hv) ▸ ih hd
        · cases h
  | union discriminant enumName cases ih =>
      intro d h
      rw [ofType] at h
      split at h
      · obtain ⟨t, hu, ht⟩ := ofCase_eq_ok h
        exact ih _ t (Fields.mem_of_get? hu) ht
      · split at h
        · cases h
        · split at h
          · obtain ⟨t, hu, ht⟩ := ofCase_eq_ok h
            exact ih _ t (Fields.mem_of_get? hu) ht
          · cases h

/-- The defaults of fields nest as deep as each of them. -/
theorem nests_ofFields {one : Fields → FieldType → Outcome Value} {n : Nat}
    (hone : ∀ built t d, one built t = .ok d → d.Nests n) {all : Fields}
    {fields : List (Text × FieldType)} : ∀ {built : Fields},
      (∀ name v, Fields.get? built name = some v → v.Nests n) →
      ofFields one fields built = .ok all →
      ∀ name v, Fields.get? all name = some v → v.Nests n := by
  induction fields with
  | nil =>
      intro built hbuilt h
      cases h
      exact hbuilt
  | cons head fields ih =>
      obtain ⟨field, t⟩ := head
      intro built hbuilt h
      rw [ofFields] at h
      split at h
      · next d hd =>
          refine ih (fun name v hv => ?_) h
          rcases Fields.get?_put_cases hv with ⟨-, rfl⟩ | ⟨-, hv⟩
          · exact hone _ _ _ hd
          · exact hbuilt name v hv
      · cases h

/-- In a default no more structs lie inside one another than were built so. -/
theorem nests_ofStruct {depth : Nat} : ∀ {building : List Text} {name : Text} {d : Value},
    ofStruct schema depth building name = .ok d → d.Nests depth := by
  induction depth with
  | zero =>
      intro building name d h
      obtain ⟨_, _, _, -, -, hdepth, -, -⟩ := ofStruct_eq_ok h
      cases hdepth
  | succ depth ih =>
      intro building name d h
      obtain ⟨_, inner, all, -, -, hdepth, hfields, rfl⟩ := ofStruct_eq_ok h
      cases hdepth
      exact .map (nests_ofFields (fun _ t _ => nests_ofType (fun _ _ => ih) t)
        (fun _ _ hv => by cases hv) hfields)

end Default

/-! ### Writing -/

namespace Encode

/-- Positions that are the same but for their path. -/
inductive Task.Alike : Task → Task → Prop
  | value {earlier written t path path' v} :
      Alike (.value earlier written t path v) (.value earlier written t path' v)
  | elements {earlier written t path path' i count items} :
      Alike (.elements earlier written t path i count items)
        (.elements earlier written t path' i count items)
  | fields {members left path path' earlier written} :
      Alike (.fields members left path earlier written) (.fields members left path' earlier written)

/-- From a like position the encoder goes on to a like one. -/
theorem Leads.alike {a b a' : Task} (h : Leads schema a b) (like : a.Alike a') :
    ∃ b', Leads schema a' b' ∧ b.Alike b' := by
  cases h with
  | array counted => cases like; exact ⟨_, .array counted, .elements⟩
  | case chosen case => cases like; exact ⟨_, .case chosen case, .value⟩
  | element stands => cases like; exact ⟨_, .element stands, .value⟩
  | nextElement stands first => cases like; exact ⟨_, .nextElement stands first, .elements⟩
  | field stands => cases like; exact ⟨_, .field stands, .value⟩
  | nextField stands first => cases like; exact ⟨_, .nextField stands first, .fields⟩

/-- From a like position the encoder opens a like one. -/
theorem Opens.alike {a b a' : Task} (h : Opens schema a b) (like : a.Alike a') :
    ∃ b', Opens schema a' b' ∧ b.Alike b' := by
  cases h with
  | struct declared => cases like; exact ⟨_, .struct declared, .fields⟩

/-- A walk from a position can be made from a like one. -/
theorem likeness (schema : Schema) : Walk.Likeness (Leads schema) (Opens schema) Task.Alike where
  trans h h' := by cases h <;> cases h' <;> constructor
  leads := Leads.alike
  opens := Opens.alike

/-- A struct for which its default stands. -/
inductive Task.Fills (schema : Schema) : Text → Task → Prop
  | struct {earlier written name path d} (h : schema.defaultValue (.struct name) = .ok d) :
      Fills schema name (.value earlier written (.struct name) path d)

/-- A position in a default before any struct of it is opened. -/
def Task.Fresh (schema : Schema) : Task → Prop
  | value _ written t _ v => schema.defaultValue t written = .ok v
  | elements _ written t _ _ count items =>
      0 < count → ∃ d, schema.defaultValue t written = .ok d ∧ items = List.replicate count d
  | fields .. => False

/-- A position in a value in which no more than so many maps lie inside one another. -/
def Task.Nests (n : Nat) : Task → Prop
  | value _ _ _ _ v => v.Nests n
  | elements _ _ _ _ _ _ items => ∀ v ∈ items, v.Nests n
  | fields members _ _ _ _ => ∀ name v, Fields.get? members name = some v → v.Nests n

/-- In a default that was built anew there are only such defaults. -/
theorem Leads.fresh {a b : Task} (h : Leads schema a b) (fresh : a.Fresh schema) :
    b.Fresh schema := by
  cases h with
  | array counted => exact fun hpos => Default.exists_of_array counted hpos fresh
  | case chosen case => exact Default.case_of_union chosen case fresh
  | element stands =>
      obtain ⟨d, hd, rfl⟩ := fresh (Nat.succ_pos _)
      obtain rfl := stands.eq_of_ne_null (isNull_of_default hd)
      exact hd
  | nextElement =>
      obtain ⟨d, hd, rfl⟩ := fresh (Nat.succ_pos _)
      exact fun _ => ⟨d, hd, rfl⟩
  | field | nextField => exact fresh.elim

/-- What stands for a value lies in it, or is a default. -/
theorem nests_or_fresh_of_stands {written : Fields} {t : FieldType} {given v : Value} {n : Nat}
    (stands : Stands schema true written t given v)
    (h : given.isNull = false → given.Nests n) :
    v.Nests n ∨ schema.defaultValue t written = .ok v := by
  rcases stands.given_or_filled with ⟨rfl, hn⟩ | ⟨-, -, hd⟩
  · exact .inl (h hn)
  · exact .inr hd

/-- What lies in a given value nests no deeper, and what is filled in is built anew. -/
theorem Leads.nests {n : Nat} {a b : Task} (h : Leads schema a b) (nests : a.Nests n) :
    b.Nests n ∨ b.Fresh schema := by
  cases h with
  | array => exact .inl nests.items
  | case => exact .inl nests
  | @element _ _ _ _ _ _ items v stands =>
      refine nests_or_fresh_of_stands stands fun hn => ?_
      cases items with
      | nil => cases hn
      | cons w items => exact nests w List.mem_cons_self
  | nextElement => exact .inl fun v hv => nests v (List.mem_of_mem_tail hv)
  | field stands =>
      exact nests_or_fresh_of_stands stands fun hn => nests _ _ (get?_of_getD hn)
  | nextField => exact .inl nests

/-- A struct that is filled in is a seed: beyond the depth of the given value there are no others.
-/
theorem seeds (schema : Schema) :
    Walk.Seeds (Leads schema) (Opens schema) (Task.Fills schema)
      (fun n a => a.Nests n ∨ a.Fresh schema) (schema.structs.length - 1) where
  leads h := Or.rec h.nests fun fresh => .inr (h.fresh fresh)
  opens h level := by
    cases h with
    | struct declared =>
        rcases level with nests | fresh
        · obtain ⟨less, rfl, hmembers⟩ := Value.Nests.members nests
          exact .inl ⟨less, rfl, .inl hmembers⟩
        · obtain ⟨less, hless, hmembers⟩ := (Default.nests_ofStruct fresh).members
          rw [hless]
          exact .inr ⟨_, .struct fresh, .inl hmembers⟩

/-- Defaults of one struct are opened alike. -/
theorem Task.Fills.again {name : Text} {a b c : Task} (ha : a.Fills schema name)
    (hc : c.Fills schema name) (h : Opens schema a b) : ∃ d, Opens schema c d ∧ b.Alike d := by
  cases ha with
  | struct hd =>
      cases hc with
      | struct hd' =>
          cases hd.symm.trans hd'
          cases h with
          | struct declared => exact ⟨_, .struct declared, .fields⟩

/-- A seed is a declared struct. -/
theorem Task.Fills.mem {name : Text} {a : Task} (h : a.Fills schema name) :
    name ∈ schema.structNames.toFinset := by
  cases h with
  | struct hd =>
      obtain ⟨_, _, _, declared, -⟩ := Default.ofStruct_eq_ok hd
      exact List.mem_toFinset.mpr (Schema.mem_structNames declared)

/-- An encoding that is cut has no end. -/
theorem endless_of_script {strict : Bool} {root : Text} {v : Value} {notices : List Notice}
    (h : script schema strict root v = .stopped .tooDeep notices) :
    Walk.Endless (Leads schema) (Opens schema) (.start root v) := by
  cases ends_of_script h with
  | failed _ fails =>
      obtain ⟨_, he⟩ := fails.eq_fault
      cases he
  | deep walk opens =>
      have hcard : schema.structNames.toFinset.card ≤ schema.structs.length := by
        rw [← Schema.length_structNames]
        exact List.toFinset_card_le _
      have hbound : v.depth + schema.structNames.toFinset.card * (schema.structs.length - 1 + 1) ≤
          depthBound schema v := by
        rw [depthBound]
        exact Nat.add_le_add_left (Nat.mul_le_mul (by omega) (by omega)) _
      exact (seeds schema).endless (likeness schema) Task.Fills.again (fun _ seed => seed.mem)
        (.inl (Value.nests_of_depth_le (Nat.le_refl _))) (walk.trans (.opening opens .here))
        (Nat.lt_succ_of_le hbound)

end Encode

end WireSchema
