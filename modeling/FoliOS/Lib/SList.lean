import Mathlib.Data.List.Nodup

/-!
# Intrusive singly linked lists

Cells that carry a single link each, from a head pointer to a null end.
`Links nx h l` says that the links lead from `h` through the cells of `l`, in that
order. Writing links of other cells does not matter (`Links.congr`); `Links.pushBack` and
`Links.unlink` are the two writes of an append and of the removal of an inner cell.
-/

namespace FoliOS.Lib

open Function

variable {α : Type*} {nx nx' : α → Option α} {h : Option α} {a b : α} {l l1 l2 : List α}

/-- The links lead from `h` through the cells of `l` to the null end. -/
def Links (nx : α → Option α) : Option α → List α → Prop
  | h, [] => h = none
  | h, a :: l => h = some a ∧ Links nx (nx a) l

theorem Links.head_eq (hl : Links nx h l) : h = l.head? := by
  cases l with
  | nil => exact hl
  | cons a l => exact hl.1

theorem Links.congr (hl : Links nx h l) (heq : ∀ c ∈ l, nx' c = nx c) : Links nx' h l := by
  induction l generalizing h with
  | nil => exact hl
  | cons a l ih =>
    refine ⟨hl.1, ?_⟩
    rw [heq a List.mem_cons_self]
    exact ih hl.2 fun c hc => heq c (List.mem_cons_of_mem a hc)

/-- The link of a cell leads to the one after it. -/
theorem Links.next_eq (hl : Links nx h (l1 ++ a :: l2)) : nx a = l2.head? := by
  induction l1 generalizing h with
  | nil => exact hl.2.head_eq
  | cons c l1 ih => exact ih hl.2

/-- A cell becomes the end. -/
theorem Links.truncate (hl : Links nx h (l1 ++ a :: l2)) (heq : ∀ c ∈ l1, nx' c = nx c)
    (ha : nx' a = none) : Links nx' h (l1 ++ [a]) := by
  induction l1 generalizing h with
  | nil => exact ⟨hl.1, ha⟩
  | cons c l1 ih =>
    refine ⟨hl.1, ?_⟩
    rw [heq c List.mem_cons_self]
    exact ih hl.2 fun d hd => heq d (List.mem_cons_of_mem c hd)

/-- The links determine the list. -/
theorem Links.unique {l' : List α} (hl : Links nx h l) (hl' : Links nx h l') : l = l' := by
  induction l generalizing h l' with
  | nil =>
    cases l' with
    | nil => rfl
    | cons b l' =>
      rw [show h = none from hl] at hl'
      cases hl'.1
  | cons a l ih =>
    cases l' with
    | nil =>
      rw [show h = none from hl'] at hl
      cases hl.1
    | cons b l' =>
      cases hl.1.symm.trans hl'.1
      rw [ih hl.2 hl'.2]

variable [DecidableEq α]

/-- The last cell gets a successor, which becomes the end. -/
theorem Links.pushBack (hl : Links nx h (l ++ [a])) (hnd : (l ++ [a]).Nodup) (hb : b ∉ l ++ [a]) :
    Links (update (update nx a (some b)) b none) h (l ++ [a] ++ [b]) := by
  induction l generalizing h with
  | nil =>
    have hab : a ≠ b := fun heq => hb (by simp [heq])
    refine ⟨hl.1, ?_, ?_⟩
    · rw [update_of_ne hab, update_self]
    · simp [Links]
  | cons c l ih =>
    have hnd' := List.nodup_cons.mp hnd
    have hca : c ≠ a := fun heq => hnd'.1 (by simp [heq])
    have hcb : c ≠ b := fun heq => hb (by simp [heq])
    refine ⟨hl.1, ?_⟩
    rw [update_of_ne hcb, update_of_ne hca]
    exact ih hl.2 hnd'.2 fun hmem => hb (List.mem_cons_of_mem c hmem)

/-- The link of a cell skips its successor, which is cut off. -/
theorem Links.unlink (hl : Links nx h (l1 ++ a :: b :: l2)) (hnd : (l1 ++ a :: b :: l2).Nodup) :
    Links (update (update nx a (nx b)) b none) h (l1 ++ a :: l2) := by
  induction l1 generalizing h with
  | nil =>
    obtain ⟨ha, hnd⟩ := List.nodup_cons.mp hnd
    obtain ⟨hb, -⟩ := List.nodup_cons.mp hnd
    have hab : a ≠ b := fun heq => ha (by simp [heq])
    refine ⟨hl.1, ?_⟩
    rw [update_of_ne hab, update_self]
    refine hl.2.2.congr fun c hc => ?_
    have hcb : c ≠ b := fun heq => hb (heq ▸ hc)
    have hca : c ≠ a := fun heq => ha (List.mem_cons_of_mem b (heq ▸ hc))
    rw [update_of_ne hcb, update_of_ne hca]
  | cons c l1 ih =>
    have hnd' := List.nodup_cons.mp hnd
    have hca : c ≠ a := fun heq => hnd'.1 (by simp [heq])
    have hcb : c ≠ b := fun heq => hnd'.1 (by simp [heq])
    refine ⟨hl.1, ?_⟩
    rw [update_of_ne hcb, update_of_ne hca]
    exact ih hl.2 hnd'.2

end FoliOS.Lib
