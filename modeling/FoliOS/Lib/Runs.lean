import Mathlib.Data.List.Basic

/-!
# Runs

A list of events applied to a partial step function one after the other, as long as each is
possible; and a loop whose rounds alternate with steps of others while time passes.
-/

namespace FoliOS.Lib

/-- What every possible step keeps holds after a whole run. -/
theorem foldlM_invariant {σ ε : Type*} {step : σ → ε → Option σ} {P : σ → Prop}
    (hstep : ∀ s e s', P s → step s e = some s' → P s') (es : List ε) :
    ∀ {s s' : σ}, P s → es.foldlM step s = some s' → P s' := by
  induction es with
  | nil =>
    intro s s' hs h
    exact Option.some.inj h ▸ hs
  | cons e es ih =>
    intro s s' hs h
    simp only [List.foldlM_cons, Option.bind_eq_bind, Option.bind_eq_some_iff] at h
    obtain ⟨s₁, hone, h⟩ := h
    exact ih (hstep s e s₁ hs hone) h

section Loops

variable {σ τ ρ : Type*} [LE τ] {round : σ → τ → σ ⊕ ρ} {other : τ → σ → σ → Prop} {s s₁ : σ}
  {now u : τ}

/-- Where a loop can be that starts in `s` at `now`: a round goes on with a state (`inl`) or
returns (`inr`). -/
inductive Looping (round : σ → τ → σ ⊕ ρ) (other : τ → σ → σ → Prop) (s : σ) (now : τ) :
  σ → τ → Prop
  | start : Looping round other s now s now
  | round {s₁ s₂ : σ} {u v : τ} : Looping round other s now s₁ u → u ≤ v → round s₁ v = .inl s₂ →
      Looping round other s now s₂ v
  | other {s₁ s₂ : σ} {u v : τ} : Looping round other s now s₁ u → u ≤ v → other v s₁ s₂ →
      Looping round other s now s₂ v

/-- The loop returns `r` at the time `v`. -/
def EndsAt (round : σ → τ → σ ⊕ ρ) (other : τ → σ → σ → Prop) (s : σ) (now : τ) (r : ρ) (v : τ) :
    Prop :=
  ∃ s₁ u, Looping round other s now s₁ u ∧ u ≤ v ∧ round s₁ v = .inr r

/-- What rounds and the others keep holds as long as the loop runs. -/
theorem Looping.invariant {I : σ → τ → Prop} (h : Looping round other s now s₁ u) (hstart : I s now)
    (hround : ∀ {s s' u v}, I s u → u ≤ v → round s v = .inl s' → I s' v)
    (hother : ∀ {s s' u v}, I s u → u ≤ v → other v s s' → I s' v) : I s₁ u := by
  induction h with
  | start => exact hstart
  | round _ hle heq ih => exact hround ih hle heq
  | other _ hle hstep ih => exact hother ih hle hstep

end Loops

end FoliOS.Lib
