import Mathlib.Algebra.Group.Nat.Defs
import Mathlib.Data.Set.Insert

/-!
# Pages backed by runs of frames

A partial map takes pages to frames, and a second one takes the first frame of every run of frames
in use to the order of that run. `Backed` says that the two differ from an earlier pair of maps by
a set of runs, each mapped as a whole at consecutive pages, which are added one by one.
-/

namespace FoliOS.Lib

open Function

/-- `2 ^ order` frames from `frame` on, at the pages from `page` on. -/
structure FrameRun where
  page : Nat
  frame : Nat
  order : Nat

def FrameRun.limit (r : FrameRun) : Nat := r.page + 2 ^ r.order

def FrameRun.Has (r : FrameRun) (p : Nat) : Prop := r.page ≤ p ∧ p < r.limit

/-- The maps `m` and `live` are `m₀` and `live₀` with the runs of `R` added. -/
structure Backed (m₀ live₀ m live : Nat → Option Nat) (R : Set FrameRun) : Prop where
  mapped    : ∀ r ∈ R, ∀ p, r.Has p → m p = some (r.frame + (p - r.page))
  inUse     : ∀ r ∈ R, live r.frame = some r.order
  wasFree   : ∀ r ∈ R, live₀ r.frame = none
  sameFrame : ∀ a ∈ R, ∀ b ∈ R, a.frame = b.frame → a = b
  samePage  : ∀ a ∈ R, ∀ b ∈ R, ∀ p, a.Has p → b.Has p → a = b
  wasBare   : ∀ r ∈ R, ∀ p, r.Has p → m₀ p = none
  pageElse  : ∀ p, (∀ r ∈ R, ¬ r.Has p) → m p = m₀ p
  frameElse : ∀ f, (∀ r ∈ R, r.frame ≠ f) → live f = live₀ f

variable {m₀ live₀ m live m' live' : Nat → Option Nat} {R : Set FrameRun} {r : FrameRun} {p f : Nat}

theorem Backed.empty (m live : Nat → Option Nat) : Backed m live m live ∅ :=
  ⟨by simp, by simp, by simp, by simp, by simp, by simp, fun _ _ => rfl, fun _ _ => rfl⟩

section

variable (h : Backed m₀ live₀ m live R)
include h

/-- A page without a frame is in no run, and had none before. -/
theorem Backed.bare (hp : m p = none) : (∀ r ∈ R, ¬ r.Has p) ∧ m₀ p = none := by
  have hno : ∀ r ∈ R, ¬ r.Has p := by
    intro r hr hhas
    have := h.mapped r hr p hhas
    rw [hp] at this
    cases this
  exact ⟨hno, (h.pageElse p hno).symm.trans hp⟩

theorem Backed.unused (hf : live f = none) : (∀ r ∈ R, r.frame ≠ f) ∧ live₀ f = none := by
  have hno : ∀ r ∈ R, r.frame ≠ f := by
    rintro r hr rfl
    have := h.inUse r hr
    rw [hf] at this
    cases this
  exact ⟨hno, (h.frameElse f hno).symm.trans hf⟩

/-- A run of frames that is not in use, mapped where no page has a frame, joins the others. -/
theorem Backed.add (hfree : live r.frame = none) (hbare : ∀ p, r.Has p → m p = none)
    (hm : ∀ p, r.Has p → m' p = some (r.frame + (p - r.page)))
    (hmElse : ∀ p, ¬ r.Has p → m' p = m p) (hlive : live' = update live r.frame (some r.order)) :
    Backed m₀ live₀ m' live' (insert r R) := by
  obtain ⟨hframe, hwas⟩ := h.unused hfree
  have hpage : ∀ a ∈ R, ∀ p, r.Has p → ¬ a.Has p := fun a ha p hp => (h.bare (hbare p hp)).1 a ha
  subst hlive
  refine ⟨?_, ?_, ?_, ?_, ?_, ?_, ?_, ?_⟩
  · rintro a (rfl | ha) p hp
    · exact hm p hp
    · rw [hmElse p fun hr => hpage a ha p hr hp]
      exact h.mapped a ha p hp
  · rintro a (rfl | ha)
    · exact update_self ..
    · rw [update_of_ne (hframe a ha)]
      exact h.inUse a ha
  · rintro a (rfl | ha)
    · exact hwas
    · exact h.wasFree a ha
  · rintro a (rfl | ha) b (rfl | hb) hab
    · rfl
    · exact absurd hab.symm (hframe b hb)
    · exact absurd hab (hframe a ha)
    · exact h.sameFrame a ha b hb hab
  · rintro a (rfl | ha) b (rfl | hb) p hap hbp
    · rfl
    · exact absurd hbp (hpage b hb p hap)
    · exact absurd hap (hpage a ha p hbp)
    · exact h.samePage a ha b hb p hap hbp
  · rintro a (rfl | ha) p hp
    · exact (h.bare (hbare p hp)).2
    · exact h.wasBare a ha p hp
  · intro p hp
    rw [hmElse p (hp r (Set.mem_insert r R))]
    exact h.pageElse p fun a ha => hp a (Set.mem_insert_of_mem r ha)
  · intro f hf
    rw [update_of_ne (hf r (Set.mem_insert r R)).symm]
    exact h.frameElse f fun a ha => hf a (Set.mem_insert_of_mem r ha)

end

end FoliOS.Lib
