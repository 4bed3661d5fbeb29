import Mathlib.Data.Finset.Card
import WireSchema.Proofs.Walk

/-!
# Walks without end

Where structs contain themselves, a walk may open structs inside one another for ever
(`Walk.Endless`). Whether it does is seen after finitely many openings. Some positions are seeds:
what lies behind such a position depends on its key alone, and there are finitely many keys
(`Walk.Seeds`). Between two seeds no more than so many structs are opened. So a walk that opens more
than all seeds allow for comes to the same one twice, and then again and again
(`Walk.Seeds.endless`).
-/

namespace WireSchema.Walk

variable {α : Type} {Leads Opens : α → α → Prop} {n m : Nat} {a b c d : α}

/-- From a position more structs are opened inside one another than any number. -/
def Endless (Leads Opens : α → α → Prop) (a : α) : Prop := ∀ n, ∃ b, Walk Leads Opens n a b

/-- A walk behind a walk opens the structs of both. -/
theorem trans (h : Walk Leads Opens n a b) (h' : Walk Leads Opens m b c) :
    Walk Leads Opens (n + m) a c := by
  induction h with
  | here => rwa [Nat.zero_add]
  | on first _ ih => exact .on first (ih h')
  | opening first _ ih =>
      rw [Nat.add_right_comm]
      exact .opening first (ih h')

/-- A walk comes by every smaller number of openings. -/
theorem exists_of_le (h : Walk Leads Opens n a b) : ∀ {m}, m ≤ n → ∃ c, Walk Leads Opens m a c := by
  induction h with
  | @here a =>
      intro m hm
      obtain rfl := Nat.le_zero.mp hm
      exact ⟨a, .here⟩
  | on first _ ih =>
      intro m hm
      obtain ⟨c, walk⟩ := ih hm
      exact ⟨c, .on first walk⟩
  | @opening _ a _ _ first _ ih =>
      intro m hm
      cases m with
      | zero => exact ⟨a, .here⟩
      | succ m =>
          obtain ⟨c, walk⟩ := ih (Nat.le_of_succ_le_succ hm)
          exact ⟨c, .opening first walk⟩

/-- A walk into one without end has no end. -/
theorem Endless.of_walk (h : Walk Leads Opens n a b) (endless : Endless Leads Opens b) :
    Endless Leads Opens a := by
  intro m
  obtain ⟨c, walk⟩ := endless m
  exact (h.trans walk).exists_of_le (Nat.le_add_left m n)

/-- From alike positions a walk comes to alike ones. -/
structure Likeness (Leads Opens Like : α → α → Prop) : Prop where
  trans : ∀ {a b c}, Like a b → Like b c → Like a c
  leads : ∀ {a b a'}, Leads a b → Like a a' → ∃ b', Leads a' b' ∧ Like b b'
  opens : ∀ {a b a'}, Opens a b → Like a a' → ∃ b', Opens a' b' ∧ Like b b'

namespace Likeness

variable {Like : α → α → Prop} (likeness : Likeness Leads Opens Like)

include likeness

theorem exists_walk (h : Walk Leads Opens n a b) :
    ∀ {a'}, Like a a' → ∃ b', Walk Leads Opens n a' b' ∧ Like b b' := by
  induction h with
  | here => exact fun like => ⟨_, .here, like⟩
  | on first _ ih =>
      intro a' like
      obtain ⟨b', first', like'⟩ := likeness.leads first like
      obtain ⟨c', walk, like''⟩ := ih like'
      exact ⟨c', .on first' walk, like''⟩
  | opening first _ ih =>
      intro a' like
      obtain ⟨b', first', like'⟩ := likeness.opens first like
      obtain ⟨c', walk, like''⟩ := ih like'
      exact ⟨c', .opening first' walk, like''⟩

/-- What is opened once more inside itself, is opened so without end. -/
theorem endless (walk : Walk Leads Opens n b c) (again : Opens c d) (like : Like b d) :
    Endless Leads Opens b := by
  -- wherever a walk begins that is alike, it comes round once for every opening that is asked for
  have round : ∀ m b', Like b b' → ∃ k e, m ≤ k ∧ Walk Leads Opens k b' e := by
    intro m
    induction m with
    | zero => exact fun b' _ => ⟨0, b', Nat.le_refl 0, .here⟩
    | succ m ih =>
        intro b' hb
        obtain ⟨c', walk', hc⟩ := likeness.exists_walk walk hb
        obtain ⟨d', again', hd⟩ := likeness.opens again hc
        obtain ⟨k, e, hk, rest⟩ := ih d' (likeness.trans like hd)
        exact ⟨n + (k + 1), e, by omega, walk'.trans (.opening again' rest)⟩
  intro m
  obtain ⟨k, e, hk, rest⟩ := round m d like
  exact (walk.trans (.opening again rest)).exists_of_le (by omega)

end Likeness

/-! ### Seeds -/

/-- Positions from which a walk begins anew. `Level` bounds the openings before the next of them,
and `width` is the level behind one that is opened. -/
structure Seeds {κ : Type} (Leads Opens : α → α → Prop) (Seed : κ → α → Prop)
    (Level : Nat → α → Prop) (width : Nat) : Prop where
  leads : ∀ {level a b}, Leads a b → Level level a → Level level b
  opens : ∀ {level a b}, Opens a b → Level level a →
    (∃ less, level = less + 1 ∧ Level less b) ∨ ∃ key, Seed key a ∧ Level width b

namespace Seeds

variable {κ : Type} [DecidableEq κ] {Seed : κ → α → Prop} {Level : Nat → α → Prop} {width : Nat}
  (seeds : Seeds Leads Opens Seed Level width)

include seeds

/-- Where no seed comes again, every seed allows for one opening more than its width. -/
theorem openings_le (walk : Walk Leads Opens n a b) : ∀ {keys : Finset κ} {level : Nat},
    (∀ {l c key}, Walk Leads Opens l a c → Seed key c → key ∈ keys) →
    (∀ {l p key q k r}, Walk Leads Opens l a p → Seed key p → Opens p q → Walk Leads Opens k q r →
      ¬ Seed key r) →
    Level level a → n ≤ level + keys.card * (width + 1) := by
  induction walk with
  | here => exact fun _ _ _ => Nat.zero_le _
  | on first _ ih =>
      intro keys level hkeys hfresh hlevel
      exact ih (fun walk => hkeys (.on first walk)) (fun walk => hfresh (.on first walk))
        (seeds.leads first hlevel)
  | @opening n _ _ _ first _ ih =>
      intro keys level hkeys hfresh hlevel
      rcases seeds.opens first hlevel with ⟨less, rfl, hless⟩ | ⟨key, hseed, hwidth⟩
      · have := ih (fun walk => hkeys (.opening first walk))
          (fun walk => hfresh (.opening first walk)) hless
        omega
      · -- the key of the seed that is opened is not among those that may still come
        have hmem := hkeys .here hseed
        have hrest : n ≤ width + (keys.erase key).card * (width + 1) := ih
          (fun walk seed => Finset.mem_erase.mpr
            ⟨fun heq => hfresh .here hseed first walk (heq ▸ seed),
              hkeys (.opening first walk) seed⟩)
          (fun walk => hfresh (.opening first walk)) hwidth
        have hcard : keys.card = (keys.erase key).card + 1 :=
          (Finset.card_erase_add_one hmem).symm
        rw [hcard, Nat.add_mul, Nat.one_mul]
        omega

/-- A walk that opens more than all seeds allow for has no end. -/
theorem endless {Like : α → α → Prop} (likeness : Likeness Leads Opens Like)
    (again : ∀ {key a b c}, Seed key a → Seed key c → Opens a b → ∃ d, Opens c d ∧ Like b d)
    {keys : Finset κ} {level : Nat}
    (hkeys : ∀ {l c key}, Walk Leads Opens l a c → Seed key c → key ∈ keys)
    (hlevel : Level level a) (walk : Walk Leads Opens n a b)
    (hlt : level + keys.card * (width + 1) < n) : Endless Leads Opens a := by
  by_contra hends
  refine Nat.not_le.mpr hlt (seeds.openings_le walk hkeys ?_ hlevel)
  intro l p key q k r before hp first between hr
  obtain ⟨d, next, like⟩ := again hp hr first
  have hendless := likeness.endless between next like
  exact hends (.of_walk (before.trans (.opening first .here)) hendless)

end Seeds

end WireSchema.Walk
