/-!
# Recursions with a bound

Encoder and decoder count the structs that they open inside one another, and stop where there are
more than a bound allows. Here is what they have in common: a step that leaves what lies inside to
another function, and the same step repeated with a bound, where it is cut once the bound is used up
(`Capped`).

A bound only ever cuts (`Capped.of_le`), and a function that is its own step does alike whatever is
not cut (`Capped.of_solution`). So where every argument has a bound that does not cut, there is one
function that is its own step (`Capped.solves`), and no other (`Capped.eq_of_solution`).
-/

namespace WireSchema

variable {ι κ γ δ : Type}

/-- A step, and the same with a bound on how often it is taken inside itself. Unless they are cut,
steps are alike if those inside them are. -/
structure Capped (Cut : δ → Prop) (step : (ι → κ → γ → δ) → ι → κ → γ → δ)
    (capped : Nat → ι → κ → γ → δ) : Prop where
  zero : ∀ f i k c, Cut (capped 0 i k c) ∨ capped 0 i k c = step f i k c
  succ : ∀ depth i k c, capped (depth + 1) i k c = step (capped depth) i k c
  keeps : ∀ {f g}, (∀ i k c, Cut (f i k c) ∨ f i k c = g i k c) →
    ∀ i k c, Cut (step f i k c) ∨ step f i k c = step g i k c

namespace Capped

variable {Cut : δ → Prop} {step : (ι → κ → γ → δ) → ι → κ → γ → δ}
  {capped : Nat → ι → κ → γ → δ}

/-- With a greater bound it is done alike. -/
theorem of_le (h : Capped Cut step capped) {depth : Nat} : ∀ {more : Nat}, depth ≤ more →
    ∀ i k c, Cut (capped depth i k c) ∨ capped depth i k c = capped more i k c := by
  induction depth with
  | zero =>
      intro more _ i k c
      cases more with
      | zero => exact .inr rfl
      | succ more =>
          rw [h.succ]
          exact h.zero _ i k c
  | succ depth ih =>
      intro more hle i k c
      obtain ⟨more, rfl⟩ := Nat.exists_eq_add_of_le' (Nat.lt_of_lt_of_le (Nat.succ_pos _) hle)
      rw [h.succ, h.succ]
      exact h.keeps (ih (Nat.le_of_succ_le_succ hle)) i k c

/-- A function that is its own step does it alike. -/
theorem of_solution (h : Capped Cut step capped) {f : ι → κ → γ → δ}
    (hf : ∀ i k c, f i k c = step f i k c) {depth : Nat} :
    ∀ i k c, Cut (capped depth i k c) ∨ capped depth i k c = f i k c := by
  induction depth with
  | zero =>
      intro i k c
      rw [hf]
      exact h.zero f i k c
  | succ depth ih =>
      intro i k c
      rw [h.succ, hf]
      exact h.keeps ih i k c

/-- Bounds that do not cut, one for every argument. -/
def Enough (Cut : δ → Prop) (capped : Nat → ι → κ → γ → δ) (enough : γ → Nat) : Prop :=
  ∀ depth i k c, enough c ≤ depth → ¬ Cut (capped depth i k c)

variable {enough : γ → Nat}

/-- Whatever the bound, it is done as with one that is enough. -/
theorem of_enough (h : Capped Cut step capped) (huncut : Enough Cut capped enough) {depth : Nat}
    (i : ι) (k : κ) (c : γ) :
    Cut (capped depth i k c) ∨ capped depth i k c = capped (enough c) i k c := by
  rcases Nat.le_total depth (enough c) with hle | hle
  · exact h.of_le hle i k c
  · exact .inr ((h.of_le hle i k c).resolve_left (huncut _ i k c (Nat.le_refl _))).symm

/-- All bounds that are enough do alike. -/
theorem eq_of_enough (h : Capped Cut step capped) (huncut : Enough Cut capped enough) {depth : Nat}
    {c : γ} (hle : enough c ≤ depth) (i : ι) (k : κ) :
    capped depth i k c = capped (enough c) i k c :=
  (h.of_enough huncut i k c).resolve_left (huncut depth i k c hle)

/-- With bounds that are enough it is done without one. -/
theorem solves (h : Capped Cut step capped) (huncut : Enough Cut capped enough) (i : ι) (k : κ)
    (c : γ) : capped (enough c) i k c = step (fun i k c => capped (enough c) i k c) i k c := by
  have hstep : step (capped (enough c)) i k c = capped (enough c) i k c := by
    rw [← h.succ, h.eq_of_enough huncut (Nat.le_succ _)]
  have hne : ¬ Cut (capped (enough c) i k c) := huncut _ i k c (Nat.le_refl _)
  rw [← hstep] at hne ⊢
  exact (h.keeps (h.of_enough huncut) i k c).resolve_left hne

/-- There is no other way to do it without a bound. -/
theorem eq_of_solution (h : Capped Cut step capped) (huncut : Enough Cut capped enough)
    {f : ι → κ → γ → δ} (hf : ∀ i k c, f i k c = step f i k c) :
    f = fun i k c => capped (enough c) i k c := by
  funext i k c
  exact ((h.of_solution hf i k c).resolve_left (huncut _ i k c (Nat.le_refl _))).symm

end Capped

end WireSchema
