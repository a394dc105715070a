import Mathlib.Algebra.Ring.Nat
import Mathlib.Data.List.Basic
import Mathlib.Order.Nat

/-!
# Extents

A sequence of ranges `(start, length)` as extents: a range that starts where the last extent
ends makes it longer, any other starts a new one.
-/

namespace FoliOS.Lib

/-- The extents with one more range at the end. -/
def pushExtent (e : List (Nat × Nat)) (x : Nat × Nat) : List (Nat × Nat) :=
  match e.getLast? with
  | some (base, length) =>
    if base + length = x.1 then e.dropLast ++ [(base, length + x.2)] else e ++ [x]
  | none => [x]

/-- The extents of a sequence of ranges. -/
def extents (l : List (Nat × Nat)) : List (Nat × Nat) := l.foldl pushExtent []

/-- How many extents a sequence has, counted with only the end of the previous range at hand. -/
def countExtents : Option Nat → List (Nat × Nat) → Nat
  | _, [] => 0
  | prev, x :: l => (if prev = some x.1 then 0 else 1) + countExtents (some (x.1 + x.2)) l

/-- A number lies in one of the extents. -/
def Covered (e : List (Nat × Nat)) (q : Nat) : Prop := ∃ x ∈ e, x.1 ≤ q ∧ q < x.1 + x.2

variable {e : List (Nat × Nat)} {x : Nat × Nat} {q : Nat} {l : List (Nat × Nat)}

/-- A push makes the last extent longer, or it is an append. -/
theorem pushExtent_cases (e : List (Nat × Nat)) (x : Nat × Nat) :
    (∃ i base length, e = i ++ [(base, length)] ∧ base + length = x.1 ∧
        pushExtent e x = i ++ [(base, length + x.2)]) ∨
      ((∀ i base length, e = i ++ [(base, length)] → base + length ≠ x.1) ∧
        pushExtent e x = e ++ [x]) := by
  rcases List.eq_nil_or_concat e with rfl | ⟨i, ⟨base, length⟩, rfl⟩
  · exact Or.inr ⟨fun i base length h => by simp at h, rfl⟩
  · rw [List.concat_eq_append]
    by_cases hp : base + length = x.1
    · simp [pushExtent, hp]
    · refine Or.inr ⟨fun i' b' c' h => ?_, ?_⟩
      · obtain ⟨-, h⟩ := List.append_inj' h rfl
        obtain ⟨rfl, rfl⟩ : base = b' ∧ length = c' := by simpa using h
        exact hp
      · simp [pushExtent, hp]

/-! ## What the extents cover -/

/-- Every extent is made of ranges: what holds of ranges and of a range appended to one holds
of extents. -/
theorem pushExtent_forall {P Q : Nat × Nat → Prop} (hx : Q x) (hPQ : ∀ y, P y → Q y)
    (hext : ∀ base length, P (base, length) → base + length = x.1 → Q (base, length + x.2))
    (h : ∀ y ∈ e, P y) : ∀ y ∈ pushExtent e x, Q y := by
  obtain ⟨i, base, length, rfl, hp, hpush⟩ | ⟨-, hpush⟩ := pushExtent_cases e x
  · rw [hpush]
    intro y hy
    rcases List.mem_append.mp hy with hy | hy
    · exact hPQ y (h y (List.mem_append_left _ hy))
    · rw [List.mem_singleton.mp hy]
      exact hext base length (h _ (List.mem_append_right _ (List.mem_singleton_self _))) hp
  · rw [hpush]
    intro y hy
    rcases List.mem_append.mp hy with hy | hy
    · exact hPQ y (h y hy)
    · rwa [List.mem_singleton.mp hy]

theorem length_le_foldl_pushExtent (l : List (Nat × Nat)) :
    ∀ e, e.length ≤ (l.foldl pushExtent e).length := by
  induction l with
  | nil => exact fun _ => le_rfl
  | cons x l ih =>
    intro e
    refine le_trans ?_ (ih _)
    obtain ⟨i, base, length, rfl, -, hpush⟩ | ⟨-, hpush⟩ := pushExtent_cases e x <;> simp [hpush]

/-- Where the last extent ends. -/
def lastEnd (e : List (Nat × Nat)) : Option Nat := e.getLast?.map fun x => x.1 + x.2

theorem lastEnd_pushExtent : lastEnd (pushExtent e x) = some (x.1 + x.2) := by
  obtain ⟨i, base, length, rfl, hp, hpush⟩ | ⟨-, hpush⟩ := pushExtent_cases e x
  · rw [hpush, lastEnd, List.getLast?_append]
    simp only [List.getLast?_singleton, Option.some_or, Option.map_some]
    rw [← Nat.add_assoc, hp]
  · simp [hpush, lastEnd]

theorem lastEnd_ne {q : Nat} (hne : ∀ i base length, e = i ++ [(base, length)] →
      base + length ≠ q) :
    lastEnd e ≠ some q := by
  rcases List.eq_nil_or_concat e with rfl | ⟨i, ⟨base, length⟩, rfl⟩
  · simp [lastEnd]
  · simpa [lastEnd] using hne i base length (List.concat_eq_append)

theorem length_pushExtent :
    (pushExtent e x).length = e.length + if lastEnd e = some x.1 then 0 else 1 := by
  obtain ⟨i, base, length, rfl, hp, hpush⟩ | ⟨hne, hpush⟩ := pushExtent_cases e x
  · have hlast : lastEnd (i ++ [(base, length)]) = some x.1 := by simp [lastEnd, hp]
    rw [hpush, if_pos hlast]
    simp
  · rw [hpush, if_neg (lastEnd_ne hne)]
    simp

theorem length_foldl_pushExtent (l : List (Nat × Nat)) :
    ∀ e, (l.foldl pushExtent e).length = e.length + countExtents (lastEnd e) l := by
  induction l with
  | nil => exact fun _ => rfl
  | cons x l ih =>
    intro e
    rw [List.foldl_cons, ih, length_pushExtent, lastEnd_pushExtent, countExtents, Nat.add_assoc]

theorem countExtents_le (l : List (Nat × Nat)) : ∀ prev, countExtents prev l ≤ l.length := by
  induction l with
  | nil => exact fun _ => le_rfl
  | cons x l ih =>
    intro prev
    have := ih (some (x.1 + x.2))
    rw [countExtents, List.length_cons]
    split <;> omega

/-- Counting with the end of the previous range gives the number of extents. -/
theorem length_extents (l : List (Nat × Nat)) : (extents l).length = countExtents none l := by
  rw [extents, length_foldl_pushExtent]
  exact Nat.zero_add _

end FoliOS.Lib
