import Mathlib.Data.List.Perm.Basic
import FoliOS.Vellum.Mm.Effects

/-!
# Vellum — the frame allocator, for every request

Where a range runs over the end of the managed frames, `mm_pma_free_frame` subtracts what is left
up to the end from the count instead of making it the count.

* `pma_iff` — when the allocator gives frames back as it should. It always finds the lowest run.
-/

namespace FoliOS.Vellum.Mm

open Function

variable {s : State} {l l' : List Nat} {pfn count i : Nat}

/-! ## Giving frames back -/

/-- The frame is in the range, managed and allocated. -/
def State.Owed (s : State) (pfn count f : Nat) : Prop :=
  InRange pfn count f ∧ InRange s.basePfn s.frameDescCount f ∧ s.bitmap (f - s.basePfn) = .allocated

instance : Decidable (s.Owed pfn count i) := inferInstanceAs (Decidable ((_ ∧ _) ∧ (_ ∧ _) ∧ _))

/-- The descriptors of the frames a call should give back. -/
def State.owed (s : State) (pfn count : Nat) : List Nat :=
  (List.range s.frameDescCount).filter fun i => s.Owed pfn count (s.basePfn + i)

/-- The state in which the frames of these descriptors are free as well. -/
def State.release (s : State) (l : List Nat) : State :=
  { s with
    bitmap := fun i => if i ∈ l then .free else s.bitmap i
    freeFrames := s.freeFrames + l.length }

/-- The call gives back what it should, and looks at the descriptors of the bitmap only. -/
structure Frees (s : State) (pfn count : Nat) : Prop where
  result : pmaFreeFrame s pfn count = s.release (s.owed pfn count)
  inside : ∀ i ∈ freedDescriptors s pfn count, i < s.frameDescCount

/-- A range from below the managed frames is left alone. One that runs over their end is cut to as
many frames as are beyond it, or to none if the sums wrap around. -/
structure FreesWhen (s : State) (pfn count : Nat) : Prop where
  below : pfn < s.basePfn → ∀ f, ¬ s.Owed pfn count f
  past  : InRange s.basePfn s.frameDescCount pfn → s.basePfn + s.frameDescCount < pfn + count →
    pfn + count < 2 ^ 32 →
      pfn + count ≤ s.basePfn + s.frameDescCount + (s.basePfn + s.frameDescCount - pfn) ∧
      ∀ f, s.Owed pfn count f → f < pfn + (pfn + count - (s.basePfn + s.frameDescCount))
  wraps : InRange s.basePfn s.frameDescCount pfn → 2 ^ 32 ≤ pfn + count →
    s.basePfn + 2 ^ 32 ≤ pfn + count ∧ ∀ f, ¬ s.Owed pfn count f

/-- The loop frees the allocated ones of its descriptors. -/
theorem foldl_freeDescriptor (hl : l.Nodup) :
    l.foldl freeDescriptor s = s.release (l.filter fun i => s.bitmap i = .allocated) := by
  induction l generalizing s with
  | nil => rfl
  | cons a l ih =>
    obtain ⟨ha, hl⟩ := List.nodup_cons.mp hl
    rw [List.foldl_cons, ih hl, freeDescriptor]
    by_cases hs : s.bitmap a = .allocated
    · have hrest : (l.filter fun i => update s.bitmap a .free i = .allocated) =
          l.filter fun i => s.bitmap i = .allocated := by
        refine List.filter_congr fun i hi => ?_
        have hne : i ≠ a := fun h => ha (h ▸ hi)
        rw [update_of_ne hne]
      rw [if_neg (not_not.mpr hs), List.filter_cons_of_pos (by simpa using hs), hrest]
      unfold State.release
      congr 1
      · funext i
        by_cases hi : i = a <;> simp [hi]
      · simp only [List.length_cons]
        omega
    · rw [if_pos hs, List.filter_cons_of_neg (by simpa using hs)]

theorem release_eq_iff (hl : l.Nodup) (hl' : l'.Nodup) (ha : ∀ i ∈ l, s.bitmap i = .allocated)
    (ha' : ∀ i ∈ l', s.bitmap i = .allocated) :
    s.release l = s.release l' ↔ ∀ i, i ∈ l ↔ i ∈ l' := by
  constructor
  · intro heq i
    have hi : (if i ∈ l then .free else s.bitmap i) = if i ∈ l' then .free else s.bitmap i :=
      congrArg (fun t : State => t.bitmap i) heq
    by_cases h : i ∈ l <;> by_cases h' : i ∈ l'
    · exact iff_of_true h h'
    · rw [if_pos h, if_neg h', ha i h] at hi
      cases hi
    · rw [if_neg h, if_pos h', ha' i h'] at hi
      cases hi
    · exact iff_of_false h h'
  · intro hmem
    have hlength := ((List.perm_ext_iff_of_nodup hl hl').mpr hmem).length_eq
    simp only [State.release, hmem, hlength]

theorem nodup_freedDescriptors (s : State) (pfn count : Nat) :
    (freedDescriptors s pfn count).Nodup := by
  unfold freedDescriptors
  dsimp only
  split
  · exact List.nodup_nil
  · exact List.nodup_range'

theorem mem_owed : i ∈ s.owed pfn count ↔ s.Owed pfn count (s.basePfn + i) := by
  rw [State.owed, List.mem_filter, List.mem_range, decide_eq_true_iff]
  exact ⟨And.right, fun h => ⟨by have := h.2.1.2; omega, h⟩⟩

theorem frees_iff_mem : Frees s pfn count ↔
    (∀ i, i ∈ freedDescriptors s pfn count ∧ s.bitmap i = .allocated ↔
      s.Owed pfn count (s.basePfn + i)) ∧
    ∀ i ∈ freedDescriptors s pfn count, i < s.frameDescCount := by
  have howed : ∀ i ∈ s.owed pfn count, s.bitmap i = .allocated := by
    intro i hi
    have := (mem_owed.mp hi).2.2
    rwa [Nat.add_sub_cancel_left] at this
  have hnodup := nodup_freedDescriptors s pfn count
  have hnodup' : (s.owed pfn count).Nodup := List.nodup_range.filter _
  have hresult := release_eq_iff (hnodup.filter _) hnodup'
    (fun i hi => of_decide_eq_true (List.mem_filter.mp hi).2) howed
  rw [← foldl_freeDescriptor hnodup] at hresult
  simp only [List.mem_filter, decide_eq_true_iff, mem_owed] at hresult
  exact ⟨fun h => ⟨hresult.mp h.result, h.inside⟩, fun h => ⟨hresult.mpr h.1, h.2⟩⟩

section Requests

variable (hpos : 0 < s.frameDescCount) (hrange : s.basePfn + s.frameDescCount ≤ 2 ^ 20)
  (hcount : count < 2 ^ 32)
include hpos hrange hcount

theorem mem_freedDescriptors :
    i ∈ freedDescriptors s pfn count ↔ InRange s.basePfn s.frameDescCount pfn ∧
    pfn ≤ s.basePfn + i ∧
      if 2 ^ 32 ≤ pfn + count then s.basePfn + i < pfn + count ∧ pfn + count < s.basePfn + 2 ^ 32
      else if s.basePfn + s.frameDescCount < pfn + count then
        s.basePfn + i < pfn + (pfn + count - (s.basePfn + s.frameDescCount))
      else s.basePfn + i < pfn + count := by
  unfold freedDescriptors InRange
  dsimp only
  split
  next hout =>
    have hno : ¬ (s.basePfn ≤ pfn ∧ pfn < s.basePfn + s.frameDescCount) := by omega
    exact iff_of_false List.not_mem_nil fun h => hno h.1
  next hin =>
    rw [List.mem_range'_1]
    split_ifs <;> omega

theorem frees_iff : Frees s pfn count ↔ FreesWhen s pfn count := by
  rw [frees_iff_mem]
  constructor
  · rintro ⟨hmem, hin⟩
    simp only [mem_freedDescriptors hpos hrange hcount] at hmem hin
    have howed : ∀ f, s.Owed pfn count f → _ := fun f hf =>
      (hmem (f - s.basePfn)).mpr (by rwa [Nat.add_sub_cancel' hf.2.1.1])
    refine ⟨fun hlow f hf => ?_, fun hp hover hlt => ⟨?_, fun f hf => ?_⟩, fun hp hwrap => ?_⟩
    · have := (howed f hf).1.1.1
      omega
    · by_contra hno
      have := hin s.frameDescCount ⟨hp, hp.2.le, by rw [if_neg (by omega), if_pos hover]; omega⟩
      omega
    · have := (howed f hf).1.2.2
      rw [if_neg (by omega), if_pos hover] at this
      omega
    · have hfar : s.basePfn + 2 ^ 32 ≤ pfn + count := by
        by_contra hno
        have := hin s.frameDescCount ⟨hp, hp.2.le, by rw [if_pos hwrap]; omega⟩
        omega
      refine ⟨hfar, fun f hf => ?_⟩
      have := (howed f hf).1.2.2
      rw [if_pos hwrap] at this
      omega
  · intro h
    have hin : ∀ i ∈ freedDescriptors s pfn count, i < s.frameDescCount ∧
        pfn ≤ s.basePfn + i ∧ s.basePfn + i < pfn + count := by
      intro i hi
      obtain ⟨hp, hle, hi⟩ := (mem_freedDescriptors hpos hrange hcount).mp hi
      split_ifs at hi with hwrap hover
      · have := (h.wraps hp hwrap).1
        omega
      · have := (h.past hp hover (by omega)).1
        omega
      · omega
    refine ⟨fun i => ⟨fun hi => ?_, fun hi => ?_⟩, fun i hi => (hin i hi).1⟩
    · have hlt := (hin i hi.1).1
      exact ⟨(hin i hi.1).2, ⟨by omega, by omega⟩, by rw [Nat.add_sub_cancel_left]; exact hi.2⟩
    · have hbase : s.basePfn ≤ pfn := not_lt.mp fun hlow => h.below hlow _ hi
      have hp : InRange s.basePfn s.frameDescCount pfn := ⟨hbase, hi.1.1.trans_lt hi.2.1.2⟩
      have ha := hi.2.2
      rw [Nat.add_sub_cancel_left] at ha
      refine ⟨(mem_freedDescriptors hpos hrange hcount).mpr ⟨hp, hi.1.1, ?_⟩, ha⟩
      split_ifs with hwrap hover
      · exact absurd hi ((h.wraps hp hwrap).2 _)
      · exact (h.past hp hover (by omega)).2 _ hi
      · exact hi.1.2

end Requests

/-! ## Taking frames -/

/-- The call takes the lowest run of free frames there is, and fails only if there is none. -/
structure Allocates (s : State) (count : Nat) : Prop where
  lowest : (pmaAllocateFrame s count).1.ok = true →
    (∀ i < count, s.Free ((pmaAllocateFrame s count).2.2 + i)) ∧
    (0 < count → ∀ q < (pmaAllocateFrame s count).2.2, ∃ i < count, ¬ s.Free (q + i))
  none   : (pmaAllocateFrame s count).1.ok = false → ∀ q, ∃ i < count, ¬ s.Free (q + i)

theorem pmaAllocateFrame_allocates (s : State) (count : Nat) : Allocates s count := by
  constructor
  · intro hok
    rcases Nat.eq_zero_or_pos count with rfl | hc
    · exact ⟨fun i hi => absurd hi (Nat.not_lt_zero i), fun h => absurd h (lt_irrefl 0)⟩
    · obtain ⟨hrun, -⟩ := pmaAllocateFrame_spec hc rfl hok
      exact ⟨hrun.free, fun _ => hrun.lowest⟩
  · intro hfail q
    have hlt : (scan s.bitmap count s.frameDescCount 0 0 0).1 < count := by
      by_contra hge
      rw [pmaAllocateFrame] at hfail
      dsimp only at hfail
      rw [if_neg hge] at hfail
      cases hfail
    have hc : 0 < count := by omega
    have hnone :=
      (scan_spec hc s.frameDescCount 0 0 0 hc (fun h => absurd rfl h) (by omega) (by omega)
      (by omega) _ _ rfl).2 hlt
    by_cases hin : s.basePfn ≤ q ∧ q + count ≤ s.basePfn + s.frameDescCount
    · obtain ⟨j, hj, hne⟩ := hnone (q - s.basePfn) (by omega)
      refine ⟨j, hj, fun hf => hne ?_⟩
      rw [show q - s.basePfn + j = q + j - s.basePfn by omega]
      exact hf.2.2
    · -- the first or the last frame is not a managed one
      by_cases hlow : q < s.basePfn
      · exact ⟨0, hc, fun hf => by have := hf.1; omega⟩
      · exact ⟨count - 1, by omega, fun hf => by have := hf.2.1; omega⟩

/-- **The frame allocator.** Taking frames always finds the lowest run. Giving them back frees the
frames it should, and no others, exactly if the range is cut to no other frames. -/
theorem pma_iff (s : State) (hpos : 0 < s.frameDescCount)
    (hrange : s.basePfn + s.frameDescCount ≤ 2 ^ 20) (pfn count n : UInt32) :
    Frees s pfn.toNat count.toNat ∧ Allocates s n.toNat ↔ FreesWhen s pfn.toNat count.toNat := by
  rw [frees_iff hpos hrange count.toNat_lt]
  exact and_iff_left (pmaAllocateFrame_allocates s n.toNat)

/-- Frames 16 to 19, all of them allocated. -/
def fourFrames : State where
  basePfn := 16
  frameDescCount := 4
  bitmap _ := .allocated
  freeFrames := 0
  allocVpn := 0x400
  cr3 := 0
  tables _ _ := .zero

/-- The last two frames are given back. -/
theorem pma_iff_two : Frees fourFrames 18 2 ∧ Allocates fourFrames 1 :=
  (pma_iff fourFrames (by decide) (by decide) 18 2 1).mpr
    ⟨fun h => absurd h (by decide), fun _ h => absurd h (by decide),
      fun _ h => absurd h (by decide)⟩

/-- **Over the end.** Of three frames from 18 on only the first is freed; for ten from 16 on the
loop goes over six descriptors, two of them behind the bitmap. -/
theorem free_over_end :
    ¬ Frees fourFrames 18 3 ∧ (pmaFreeFrame fourFrames 18 3).bitmap 3 = .allocated ∧
    ¬ Frees fourFrames 16 10 ∧ freedDescriptors fourFrames 16 10 = [0, 1, 2, 3, 4, 5] := by
  refine ⟨fun h => ?_, by decide, fun h => absurd (h.inside 5 (by decide)) (by decide), by decide⟩
  have hlast := congrArg (fun s : State => s.bitmap 3) h.result
  revert hlast
  decide

end FoliOS.Vellum.Mm
