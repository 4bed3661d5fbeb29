import WireSchema.Codec.Failure

/-!
# Walks

Encoder and decoder come from one position of a message to the next, and on the way they open
structs. `Walk Leads Opens n a b` says that a computation comes from the position `a` to the
position `b` and opens `n` structs inside one another. What every step keeps holds wherever a walk
comes (`Walk.keeps`), and a room from which every opening takes something bounds how many there are
(`Walk.keeps_room`, `Walk.openings_le`). A statement about a whole computation is one about every
position to which it comes (`Walk.Always`).

A computation that stops with a failure has come to a position that itself fails, unless it has
opened as many structs as it may (`Walk.Ends`). Why it stops at one position is a matter of this
position and the next (`Walk.Stops`). Where no walk goes on for ever within a struct, the failure is
followed down to where it arose, along positions all of which stop with it (`Walk.exists_along`).
-/

namespace WireSchema

section

variable {α : Type} (Leads Opens : α → α → Prop)

/-- A way from one position to another that opens so many structs inside one another. -/
inductive Walk : Nat → α → α → Prop
  | here {a} : Walk 0 a a
  | on {n a b c} (first : Leads a b) (rest : Walk n b c) : Walk n a c
  | opening {n a b c} (first : Opens a b) (rest : Walk n b c) : Walk (n + 1) a c

/-- Why a computation that may open `depth` structs inside one another stops: a position to which it
has come fails, or opens one struct more. -/
inductive Walk.Ends (Fails : α → Failure → Prop) (depth : Nat) (a : α) (failure : Failure) : Prop
  | failed {n b} (walk : Walk Leads Opens n a b) (fails : Fails b failure)
  | deep {b c} (walk : Walk Leads Opens depth a b) (opens : Opens b c)
      (tooDeep : failure = .tooDeep)

/-- Why a computation that stops with a failure where `S` holds does so: the position itself fails,
or the next one stops with it, or there is no room for the next one to be opened. -/
inductive Walk.Stops (Fails : α → Failure → Prop) (S : Nat → α → Prop) (failure : Failure)
    (a : α) : Nat → Prop
  | fails {room} (h : Fails a failure) : Stops Fails S failure a room
  | leads {room b} (first : Leads a b) (stops : S room b) : Stops Fails S failure a room
  | opens {room b} (first : Opens a b) (stops : S room b) : Stops Fails S failure a (room + 1)
  | deep {b} (first : Opens a b) (tooDeep : failure = .tooDeep) : Stops Fails S failure a 0

/-- A walk along positions at which `S` holds, with the room that every opening takes one from. -/
inductive Walk.Along (S : Nat → α → Prop) : Nat → α → Nat → α → Prop
  | here {room a} (stays : S room a) : Along S room a room a
  | on {room left a b c} (stays : S room a) (first : Leads a b) (rest : Along S room b left c) :
      Along S room a left c
  | opening {room left a b c} (stays : S (room + 1) a) (first : Opens a b)
      (rest : Along S room b left c) : Along S (room + 1) a left c

end

namespace Walk

variable {α : Type} {Leads Opens : α → α → Prop} {n : Nat} {a b : α}

/-- What every step keeps holds wherever a walk comes. -/
theorem keeps {P : α → Prop} (hleads : ∀ {a b}, Leads a b → P a → P b)
    (hopens : ∀ {a b}, Opens a b → P a → P b) (h : Walk Leads Opens n a b) : P a → P b := by
  induction h with
  | here => exact id
  | on first _ ih => exact fun ha => ih (hleads first ha)
  | opening first _ ih => exact fun ha => ih (hopens first ha)

/-- A room from which every opening takes one has room for all the openings of a walk. -/
theorem keeps_room {R : Nat → α → Prop} (hleads : ∀ {room a b}, Leads a b → R room a → R room b)
    (hopens : ∀ {room a b}, Opens a b → R room a → ∃ less, room = less + 1 ∧ R less b)
    (h : Walk Leads Opens n a b) : ∀ {room}, R room a → ∃ less, room = less + n ∧ R less b := by
  induction h with
  | here => exact fun ha => ⟨_, rfl, ha⟩
  | on first _ ih => exact fun ha => ih (hleads first ha)
  | opening first _ ih =>
      intro room ha
      obtain ⟨less, rfl, hb⟩ := hopens first ha
      obtain ⟨left, rfl, hc⟩ := ih hb
      exact ⟨left, Nat.add_assoc _ _ _, hc⟩

/-- What no step raises and every opening lowers bounds the openings of a walk. -/
theorem openings_le {m : α → Nat} (hleads : ∀ {a b}, Leads a b → m b ≤ m a)
    (hopens : ∀ {a b}, Opens a b → m b < m a) (h : Walk Leads Opens n a b) : n ≤ m a := by
  induction h with
  | here => exact Nat.zero_le _
  | on first _ ih => exact Nat.le_trans ih (hleads first)
  | opening first _ ih => exact Nat.lt_of_le_of_lt ih (hopens first)

/-- Wherever a walk from `a` comes, `P` holds. -/
def Always (Leads Opens : α → α → Prop) (P : α → Prop) (a : α) : Prop :=
  ∀ n b, Walk Leads Opens n a b → P b

namespace Always

variable {P : α → Prop}

theorem here (h : Always Leads Opens P a) : P a := h 0 a .here

theorem on (h : Always Leads Opens P a) (first : Leads a b) : Always Leads Opens P b :=
  fun n c walk => h n c (.on first walk)

theorem opening (h : Always Leads Opens P a) (first : Opens a b) : Always Leads Opens P b :=
  fun n c walk => h (n + 1) c (.opening first walk)

end Always

namespace Ends

variable {Fails : α → Failure → Prop} {depth : Nat} {failure : Failure}

/-- Where there is room for the depth, only a position to which the walk has come can fail. -/
theorem exists_fails {R : Nat → α → Prop}
    (hleads : ∀ {room a b}, Leads a b → R room a → R room b)
    (hopens : ∀ {room a b}, Opens a b → R room a → ∃ less, room = less + 1 ∧ R less b)
    (hroom : R depth a) : Ends Leads Opens Fails depth a failure →
    ∃ n b, Walk Leads Opens n a b ∧ Fails b failure
  | .failed walk fails => ⟨_, _, walk, fails⟩
  | .deep walk opens _ => by
      obtain ⟨less, hl, hb⟩ := walk.keeps_room (R := R) hleads hopens hroom
      obtain ⟨_, h₀, _⟩ := hopens opens hb
      omega

end Ends

/-! ### Following a failure -/

namespace Along

variable {S : Nat → α → Prop} {room left : Nat}

theorem walk (h : Along Leads Opens S room a left b) :
    ∃ n, room = left + n ∧ Walk Leads Opens n a b := by
  induction h with
  | here => exact ⟨0, rfl, .here⟩
  | on _ first _ ih =>
      obtain ⟨n, hn, walk⟩ := ih
      exact ⟨n, hn, .on first walk⟩
  | opening _ first _ ih =>
      obtain ⟨n, hn, walk⟩ := ih
      exact ⟨n + 1, congrArg (· + 1) hn, .opening first walk⟩

theorem trans {left' : Nat} {c : α} (h : Along Leads Opens S room a left b)
    (h' : Along Leads Opens S left b left' c) : Along Leads Opens S room a left' c := by
  induction h with
  | here => exact h'
  | on stays first _ ih => exact .on stays first (ih h')
  | opening stays first _ ih => exact .opening stays first (ih h')

theorem start (h : Along Leads Opens S room a left b) : S room a := by
  cases h with
  | here stays | on stays | opening stays => exact stays

/-- What every step keeps along the way holds at its end. -/
theorem keeps {P : Nat → α → Prop}
    (hleads : ∀ {room a b}, Leads a b → S room a → S room b → P room a → P room b)
    (hopens : ∀ {room a b}, Opens a b → S (room + 1) a → S room b → P (room + 1) a → P room b)
    (h : Along Leads Opens S room a left b) : P room a → P left b := by
  induction h with
  | here => exact id
  | on stays first rest ih => exact fun ha => ih (hleads first stays rest.start ha)
  | opening stays first rest ih => exact fun ha => ih (hopens first stays rest.start ha)

end Along

/-- A failure is followed to the position at which it arises. -/
theorem exists_along {Fails : α → Failure → Prop} {failure : Failure} {S : Nat → α → Prop}
    (wf : WellFounded fun b a => Leads a b)
    (hstops : ∀ {room a}, S room a → Stops Leads Opens Fails S failure a room) {room : Nat} :
    ∀ {a}, S room a → ∃ left b, Along Leads Opens S room a left b ∧
      (Fails b failure ∨ left = 0 ∧ failure = .tooDeep ∧ ∃ c, Opens b c) := by
  induction room using Nat.strongRecOn with
  | ind room hroom =>
      intro a
      induction a using wf.induction with
      | _ a ha =>
          intro h
          cases hstops h with
          | fails hf => exact ⟨room, a, .here h, .inl hf⟩
          | deep first tooDeep => exact ⟨0, a, .here h, .inr ⟨rfl, tooDeep, _, first⟩⟩
          | leads first stops =>
              obtain ⟨left, c, along, hc⟩ := ha _ first stops
              exact ⟨left, c, .on h first along, hc⟩
          | opens first stops =>
              obtain ⟨left, c, along, hc⟩ := hroom _ (Nat.lt_succ_self _) stops
              exact ⟨left, c, .opening h first along, hc⟩

/-- So it ends as a computation with that room does. -/
theorem ends_of_along {Fails : α → Failure → Prop} {failure : Failure} {S : Nat → α → Prop}
    (wf : WellFounded fun b a => Leads a b)
    (hstops : ∀ {room a}, S room a → Stops Leads Opens Fails S failure a room) {room : Nat} {a : α}
    (h : S room a) : Ends Leads Opens Fails room a failure := by
  obtain ⟨left, b, along, hb⟩ := exists_along wf hstops h
  obtain ⟨n, hn, walk⟩ := along.walk
  rcases hb with fails | ⟨rfl, tooDeep, c, opens⟩
  · exact .failed walk fails
  · rw [Nat.zero_add] at hn
    subst hn
    exact .deep walk opens tooDeep

end Walk

end WireSchema
