import FoliOS.Strata.Pmm.Marking
import FoliOS.Strata.Pmm.Below

/-!
# Strata — requests that end in `St_Panic`

A small allocation that comes to a free slot makes a table for it and takes frames of its last
entry. `find_free_frame_idx_bitmap_entry` knows alignments of up to 32 frames only, and finding
nothing there is a panic. `panic_iff` says which calls come to that.
-/

namespace FoliOS.Strata.Pmm

open Lib

variable {s s' : State} {r : Request} {p : Plan} {nested : State → Outcome} {pfn order : Nat}

/-! ## Panics -/

/-- A new table for a free slot is a free one. -/
theorem newTable_free {i j : Nat} {t : TableRef} (h : s.newTable i true = (.ok t, s')) :
    s'.tables t j = .bitmap bmpFree := by
  unfold State.newTable at h
  split at h
  · obtain ⟨ht, rfl⟩ := Prod.mk.inj h
    cases ht
    simp [State.install]
  split at h
  · obtain ⟨ht, rfl⟩ := Prod.mk.inj h
    cases ht
    simp [State.install]
  · cases (Prod.mk.inj h).1

theorem find_bmpFree {a : Nat} (ha : a ≤ 5) :
    ∃ k, findFreeFrameIdxBitmapEntry bmpFree a = some k := by
  have hall : ∀ a : Fin 6, (findFreeFrameIdxBitmapEntry bmpFree a.val).isSome = true := by decide
  exact Option.isSome_iff_exists.mp (hall ⟨a, by omega⟩)

theorem findFree_large {b : Bitmap} {a : Nat} (ha : 5 < a) :
    findFreeFrameIdxBitmapEntry b a = none := by
  cases hfind : findFreeFrameIdxBitmapEntry b a with
  | none => rfl
  | some k =>
    have := (findFree_bounds hfind).1
    omega

section

variable (hnested : ∀ s, ∃ res, nested s = some res)

include hnested

theorem topup_returns (s : State) (pool : Pool) : ∃ res, topup nested s pool = some res := by
  unfold topup
  split
  · exact ⟨_, rfl⟩
  split
  · exact ⟨_, rfl⟩
  obtain ⟨⟨st, pfn, s'⟩, hres⟩ := hnested { s with topping := Function.update s.topping pool true }
  rw [hres]
  exact ⟨_, rfl⟩

theorem maybeTopup_returns (s : State) (pool : Pool) :
    ∃ s', maybeTopup nested s pool = some s' := by
  unfold maybeTopup
  split
  · obtain ⟨res, hres⟩ := topup_returns hnested s pool
    rw [hres]
    exact ⟨_, rfl⟩
  · exact ⟨_, rfl⟩

theorem maybeTopupManagementPools_returns (s : State) :
    ∃ s', maybeTopupManagementPools nested s = some s' := by
  unfold maybeTopupManagementPools
  split
  · exact ⟨_, rfl⟩
  · obtain ⟨s1, hs1⟩ := maybeTopup_returns hnested s .tables
    rw [hs1]
    exact maybeTopup_returns hnested s1 .exts

theorem createTable_returns (s : State) (i : Nat) (asFree : Bool) :
    ∃ x s', createTable nested s i asFree = some (x, s') ∧
      ∀ t, x = .ok t → ∃ s1 : State, s1.newTable i asFree = (.ok t, s') := by
  unfold createTable
  obtain ⟨s1, hs1⟩ := maybeTopupManagementPools_returns hnested s
  obtain ⟨⟨st, s2⟩, hs2⟩ : ∃ res, topupEmpty nested s1 .tables = some res := by
    unfold topupEmpty
    split
    · exact topup_returns hnested s1 .tables
    · exact ⟨_, rfl⟩
  rw [hs1, Option.bind_some, hs2, Option.bind_some]
  dsimp only
  split
  · exact ⟨_, _, rfl, fun t ht => nomatch ht⟩
  · exact ⟨_, _, rfl, fun t ht => ⟨s2, ht ▸ rfl⟩⟩

theorem getOrCreateTable_returns (s : State) (i : Nat) :
    ∃ x s', getOrCreateTable nested s i = some (x, s') ∧
      (s.atpa i = .free → ∀ t, x = .ok t → ∀ j, s'.tables t j = .bitmap bmpFree) := by
  unfold getOrCreateTable
  split
  · exact ⟨_, _, rfl, fun _ t ht => nomatch ht⟩
  split
  next hslot => exact ⟨_, _, rfl, fun hfree => by rw [hslot] at hfree; cases hfree⟩
  next hslot => exact ⟨_, _, rfl, fun hfree => by rw [hslot] at hfree; cases hfree⟩
  next hslot =>
    obtain ⟨x, s', hres, hnew⟩ := createTable_returns hnested s i true
    refine ⟨x, s', hres, fun _ t ht j => ?_⟩
    obtain ⟨s1, hs1⟩ := hnew t ht
    exact newTable_free hs1
  next hslot =>
    obtain ⟨x, s', hres, -⟩ := createTable_returns hnested s i false
    exact ⟨x, s', hres, fun hfree => by rw [hslot] at hfree; cases hfree⟩

/-- A small allocation panics exactly if it makes a table for a free slot and then finds no run in
it that is aligned enough. -/
theorem allocateSmall_none_iff {owner : Option Nat} (hstart : p.entryStart < tableEntries) :
    allocateSmall nested s owner p = none ↔ 5 < p.alignOrder ∧ ∃ s₁ i t s₂,
      smallSearch p s = (s₁, some (.fresh i)) ∧
      getOrCreateTable nested s₁ i = some (.ok t, s₂) := by
  unfold allocateSmall
  rw [if_neg (not_le.mpr hstart)]
  split
  next s1 hfind => simp [hfind]
  next s1 i t j k hfind => simp [hfind, takeFrames, finish]
  next s1 i hfind =>
    obtain ⟨x, s2, hres, hfree⟩ := getOrCreateTable_returns hnested s1 i
    rw [hres, Option.bind_some]
    cases x with
    | error st =>
      refine iff_of_false (by simp) ?_
      rintro ⟨-, s1', i', t, s2', hfind', hres'⟩
      cases hfind.symm.trans hfind'
      cases hres.symm.trans hres'
    | ok t =>
      dsimp only
      rw [hfree (scanSlots_fresh (frameRoom_congr p) hfind) t rfl]
      dsimp only
      by_cases ha : p.alignOrder ≤ 5
      · obtain ⟨k, hk⟩ := find_bmpFree ha
        rw [hk]
        exact iff_of_false (by simp [takeFrames, finish]) fun h => absurd h.1 (not_lt.mpr ha)
      · rw [findFree_large (not_le.mp ha)]
        exact iff_of_true rfl ⟨not_le.mp ha, s1, i, t, s2, hfind, hres⟩

end

/-- **Where a call panics**: a run of less than an entry that is to be aligned to more than an
entry, for which the search ends at a free slot and a table is made for the slot. -/
def Panics (nested : State → Outcome) (s : State) (r : Request) : Prop :=
  ∃ p s₁ i t s₂, makePlan s r = .ok p ∧ p.order < 5 ∧ 5 < p.alignOrder ∧
    smallSearch p s = (s₁, some (.fresh i)) ∧ getOrCreateTable nested s₁ i = some (.ok t, s₂)

theorem allocateWith_none_iff (hnested : ∀ s, ∃ res, nested s = some res) :
    allocateWith nested s r = none ↔ Panics nested s r := by
  unfold allocateWith
  cases hplan : makePlan s r with
  | error st => exact iff_of_false (by simp) fun ⟨p, _, _, _, _, hp, _⟩ =>
      nomatch hplan.symm.trans hp
  | ok p =>
    have hlarge : 5 ≤ p.order → ¬ Panics nested s r := by
      rintro horder ⟨p', _, _, _, _, hplan', hsmall, -⟩
      cases hplan.symm.trans hplan'
      omega
    dsimp only
    split
    next hhuge =>
      refine iff_of_false ?_ (hlarge (by omega))
      unfold allocateHuge
      dsimp only
      split
      · simp
      split <;> simp [finish]
    split
    next hnormal =>
      refine iff_of_false ?_ (hlarge hnormal)
      unfold allocateNormal
      split
      · simp
      split
      · simp
      · simp [takeEntries, finish]
      next s1 i hfind =>
        obtain ⟨x, s2, hres, -⟩ := getOrCreateTable_returns hnested s1 i
        rw [hres, Option.bind_some]
        cases x <;> simp [takeEntries, finish]
    next hsmall =>
      rw [allocateSmall_none_iff hnested (entryStart_lt hplan)]
      constructor
      · rintro ⟨ha, s1, i, t, s2, hfind, hres⟩
        exact ⟨p, s1, i, t, s2, hplan, not_le.mp hsmall, ha, hfind, hres⟩
      · rintro ⟨p', s1, i, t, s2, hplan', -, ha, hfind, hres⟩
        cases hplan.symm.trans hplan'
        exact ⟨ha, s1, i, t, s2, hfind, hres⟩

/-- The calls made by a top-up return: they ask for one frame, aligned to one. -/
theorem allocateNested_returns (d : Nat) : ∀ s, ∃ res, allocateNested d s = some res := by
  induction d with
  | zero => exact fun s => ⟨_, rfl⟩
  | succ d ih =>
    intro s
    refine Option.ne_none_iff_exists'.mp fun hnone => ?_
    obtain ⟨p, _, _, _, _, hplan, -, ha, -⟩ := (allocateWith_none_iff ih).mp hnone
    obtain ⟨hcount, halign, -⟩ := makePlan_ok hplan
    have hzero : 0 = p.order := Option.some.inj hcount
    rw [halign, ← hzero] at ha
    exact absurd ha (by decide)

/-- **A call panics if and only if it is in `Panics`.** -/
theorem panic_iff (s : State) (r : Request) :
    stPmmAllocateContiguousFrame s r = none ↔ Panics (allocateNested 2) s r :=
  allocateWith_none_iff (allocateNested_returns 2)

/-- 128 MiB: one frame, aligned to 4 MiB, is asked for. -/
theorem panic_one_frame : ∃ s p, boot 3 [(0, 32767)] = some s ∧
    makePlan s ⟨1, none, 0x160⟩ = .ok p ∧
    stPmmAllocateContiguousFrame s ⟨1, none, 0x160⟩ = none := by
  have hrun : (boot 3 [(0, 32767)]).map (fun s => ((makePlan s ⟨1, none, 0x160⟩).toOption.isSome,
      (stPmmAllocateContiguousFrame s ⟨1, none, 0x160⟩).isNone)) = some (true, true) := by
    decide +kernel
  obtain ⟨s, hs, heq⟩ := Option.map_eq_some_iff.mp hrun
  obtain ⟨hchecks, hnone⟩ := Prod.mk.inj heq
  cases hplan : makePlan s ⟨1, none, 0x160⟩ with
  | error st =>
    rw [hplan] at hchecks
    cases hchecks
  | ok p => exact ⟨s, p, hs, hplan, Option.isNone_iff_eq_none.mp hnone⟩

end FoliOS.Strata.Pmm
