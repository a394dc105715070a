import FoliOS.Strata.Mm.Sparse
import FoliOS.Strata.Pmm.Below

/-!
# Strata — the frame allocator as a source of frames

The functions of `mm.c` are modelled over a `FrameSupply`. `pmmSupply` is the one the frame
allocator itself makes: a run it hands out was free in every frame (`allocate_free_run`), and it
reports a success without a run only for fewer than 32 frames, where its search has found none
(`pmmAnswer_none`).
-/

namespace FoliOS.Strata.Pmm

open Lib

variable {s s' : State} {r : Request} {p : Plan} {pfn order i f : Nat} {owner : Option Nat}
  {flags : AllocFlags} {t : TableRef} {st : StStatus}

/-! ## Runs are free -/

theorem region_table {h : Hint} (ht : s.atpa i = .table t h) : s.region i = .table t := by
  rw [State.region, ht]
  rfl

/-- Frames of a free slot. -/
theorem decode_free_slot (hfree : s.atpa (f / tableFrames) = .free) : decode s f = .free := by
  rw [decode, State.region, hfree]
  rfl

theorem freeSlots_decode {n : Nat} (h : freeSlots s n i = true) (h1 : i * tableFrames ≤ f)
    (h2 : f < i * tableFrames + n * tableFrames) : decode s f = .free := by
  obtain ⟨hle, hlt⟩ := (cover_slots i n f).mp ⟨h1, h2⟩
  rw [freeSlots, Bool.and_eq_true, List.all_eq_true] at h
  have hslot := of_decide_eq_true (h.2 (f / tableFrames - i) (List.mem_range.mpr (by omega)))
  rw [Nat.add_sub_cancel' hle] at hslot
  exact decode_free_slot hslot

theorem freeEntries_decode {n j : Nat} (hi : s.region (f / tableFrames) = .table t)
    (h : freeEntries s t n j = true) (h1 : j ≤ f % tableFrames / entryFrames)
    (h2 : f % tableFrames / entryFrames < j + n) : decode s f = .free := by
  rw [freeEntries, Bool.and_eq_true, List.all_eq_true] at h
  have hentry := of_decide_eq_true
    (h.2 (f % tableFrames / entryFrames - j) (List.mem_range.mpr (by omega)))
  rw [Nat.add_sub_cancel' h1] at hentry
  rw [decode_table hi, hentry, decodeEntry]
  simp [bmpFree]

/-- Frames of an entry in which the search found room. -/
theorem frameRoomAt_decode {j k : Nat} (hw : Wf s) (hi : s.region (f / tableFrames) = .table t)
    (halign : p.order ≤ p.alignOrder)
    (h : frameRoomAt p s t (f % tableFrames / entryFrames) = some (j, k))
    (h1 : k ≤ f % entryFrames) (h2 : f % entryFrames < k + 2 ^ p.order) : decode s f = .free := by
  rw [decode_table hi]
  unfold frameRoomAt at h
  split at h
  · cases h
  next x hx =>
    obtain ⟨k', hfind, heq⟩ := Option.map_eq_some_iff.mp h
    cases heq
    have hfree := List.find?_some hfind
    rw [freeFlags, Bool.and_eq_true, List.all_eq_true] at hfree
    have hflag := of_decide_eq_true (hfree.2 (f % entryFrames - k) (List.mem_range.mpr (by omega)))
    rw [Nat.add_sub_cancel' h1] at hflag
    rwa [hx, decodeEntry]
  next b hb =>
    obtain ⟨k', hfind, heq⟩ := Option.map_eq_some_iff.mp h
    cases heq
    have hbits := (findFree_some (hw.bitmaps _ _ _ _ hi (entry_lt f) hb) hfind).2.2.2
    have hpow := Nat.pow_le_pow_right (show 0 < 2 by decide) halign
    rw [hb, decodeEntry, hbits _ h1 (by omega)]
    rfl

/-- Frames of whole entries, in slot `i` from entry `j` on. -/
theorem cover_entries {j o : Nat} (ho : 5 ≤ o) (hend : j + 2 ^ (o - 5) ≤ tableEntries)
    (h1 : i * tableFrames + j * entryFrames ≤ f)
    (h2 : f < i * tableFrames + j * entryFrames + 2 ^ o) :
    f / tableFrames = i ∧ j ≤ f % tableFrames / entryFrames ∧
      f % tableFrames / entryFrames < j + 2 ^ (o - 5) := by
  rw [two_pow_order ho] at h2
  simp only [tableFrames, entryFrames, tableEntries] at *
  omega

/-- **What is found is free.** -/
theorem Found.decode (h : Found p s pfn) (hw : Wf s) (halign : p.order ≤ p.alignOrder)
    (h1 : pfn ≤ f) (h2 : f < pfn + 2 ^ p.order) : Pmm.decode s f = .free := by
  cases h with
  | slots i horder hfind hpfn =>
    refine freeSlots_decode (List.find?_some hfind) (hpfn ▸ h1) ?_
    rw [tableFrames_eq, ← pow_add, Nat.sub_add_cancel horder]
    exact hpfn ▸ h2
  | freshEntries s1 i horder hfind hpfn =>
    obtain ⟨-, hfree, hfits⟩ := scanSlots_found (entryRoom_congr p (normalStart p)) hfind
    rw [hpfn] at h1 h2
    obtain ⟨rfl, -⟩ := cover_entries horder.1 (of_decide_eq_true hfits) h1 h2
    exact decode_free_slot hfree
  | entries s1 i j k t horder hfind hpfn =>
    obtain ⟨-, ⟨hint, htable⟩, hroom⟩ := scanSlots_found (entryRoom_congr p (normalStart p)) hfind
    rw [hpfn] at h1 h2
    obtain ⟨rfl, hj1, hj2⟩ := cover_entries horder.1 (entryRoom_bounds hroom).2 h1 h2
    obtain ⟨j', hfree, heq⟩ := Option.map_eq_some_iff.mp hroom
    cases heq
    exact freeEntries_decode (region_table htable) (List.find?_some hfree) hj1 hj2
  | freshFrames s1 i k b horder hstart hfind hframe hpfn =>
    obtain ⟨-, hfree, -⟩ := scanSlots_found (frameRoom_congr p) hfind
    have hk := (findFree_bounds hframe).2.2
    have hpow := Nat.pow_le_pow_right (show 0 < 2 by decide) halign
    have hend : k + 2 ^ p.order ≤ entryFrames := by
      unfold entryFrames
      omega
    rw [hpfn] at h1 h2
    obtain ⟨rfl, -⟩ := (cover_frames hstart hend).mp ⟨h1, h2⟩
    exact decode_free_slot hfree
  | frames s1 i j k t horder hstart hfind hpfn =>
    obtain ⟨-, ⟨hint, htable⟩, hroom⟩ := scanSlots_found (frameRoom_congr p) hfind
    obtain ⟨e, he, hat⟩ := List.exists_of_findSome?_eq_some hroom
    obtain ⟨rfl, hend⟩ := frameRoomAt_bounds halign hat
    have hj : j < tableEntries := by
      rcases mem_downFrom he with rfl | hle
      · exact hstart
      · omega
    rw [hpfn] at h1 h2
    obtain ⟨rfl, rfl, hk1, hk2⟩ := (cover_frames hj hend).mp ⟨h1, h2⟩
    exact frameRoomAt_decode hw (region_table htable) halign hat hk1 hk2

/-! ## Answers -/

theorem getOrder_two_pow (order : Nat) : getOrder (2 ^ order) = some order := by
  rcases order with _ | n
  · rfl
  have hpos := Nat.two_pow_pos n
  rw [pow_succ]
  have hlog : Nat.log2 (2 ^ n * 2 - 1) = n := by
    rw [Nat.log2_eq_iff (by omega), pow_succ]
    omega
  rw [getOrder, if_neg (by omega), if_neg (by omega), hlog]

theorem makePlan_order (h : makePlan s ⟨2 ^ order, owner, flags⟩ = .ok p) :
    p.order = order ∧ p.order ≤ p.alignOrder := by
  obtain ⟨horder, halign, -⟩ := makePlan_ok h
  rw [getOrder_two_pow] at horder
  exact ⟨(Option.some.inj horder).symm, halign ▸ le_alignOrderOf _ _⟩

/-- A free frame is a frame of the machine. -/
theorem Wf.free_lt (hw : Wf s) (h : decode s f = .free) : f < frameLimit := by
  by_contra hlt
  have hslot : slotCount ≤ f / tableFrames := by
    simp only [slotCount, tableFrames, frameLimit] at *
    omega
  rw [decode, hw.outside _ hslot] at h
  cases h

/-- **A run handed out was free**, and it ends inside the frames of the machine. -/
theorem allocate_free_run (hw : Wf s)
    (h : stPmmAllocateContiguousFrame s ⟨2 ^ order, owner, flags⟩ = some (st, some pfn, s')) :
    pfn + 2 ^ order ≤ frameLimit ∧ ∀ f, pfn ≤ f → f < pfn + 2 ^ order → decode s f = .free := by
  obtain ⟨p, hplan⟩ := plan_of_allocated h
  obtain ⟨rfl, halign⟩ := makePlan_order hplan
  have hfree : ∀ f, pfn ≤ f → f < pfn + 2 ^ p.order → decode s f = .free := fun f =>
    (allocateWith_found hplan h).decode hw halign
  have hpos := Nat.two_pow_pos p.order
  have hlast := hw.free_lt (hfree (pfn + 2 ^ p.order - 1) (by omega) (by omega))
  exact ⟨by omega, hfree⟩

theorem makePlan_fails (h : makePlan s r = .error st) : checkSuccess st = false := by
  unfold makePlan at h
  dsimp only at h
  repeat' split at h
  all_goals cases h
  all_goals rfl

end FoliOS.Strata.Pmm

namespace FoliOS.Strata.Mm.Sparse

open Pmm (frameLimit)

/-- The state `s` of the frame allocator stands for the runs `live`: it keeps none of their frames
free. -/
structure Stands (s : Pmm.State) (live : Nat → Option Nat) : Prop where
  wf   : Pmm.Wf s
  used : ∀ base o f, live base = some o → base ≤ f → f < base + 2 ^ o → Pmm.decode s f ≠ .free

/-- What `StPmm_AllocateContiguousFrame` answers in `s`. A call that panics does not return; it
counts as a failure. -/
def pmmAnswer (s : Pmm.State) (order : Nat) (owner : Option Nat) (af : AllocFlags) :
    Except StStatus (Option Nat) :=
  match Pmm.stPmmAllocateContiguousFrame s ⟨2 ^ order, owner, af⟩ with
  | some (st, pfn, _) => if checkSuccess st then .ok pfn else .error st
  | none => .error .insufficientMemory

/-- A success without a run. -/
theorem pmmAnswer_none {s : Pmm.State} {order : Nat} {owner : Option Nat} {af : AllocFlags}
    (h : pmmAnswer s order owner af = .ok none) :
    order < 5 ∧ ∃ p, Pmm.makePlan s ⟨2 ^ order, owner, af⟩ = .ok p ∧
      (Pmm.smallSearch p s).2 = none := by
  unfold pmmAnswer at h
  split at h
  next st pfn s' hcall =>
    split at h
    next hst =>
      cases h
      cases hplan : Pmm.makePlan s ⟨2 ^ order, owner, af⟩ with
      | error e =>
        rw [Pmm.allocate_error hplan] at hcall
        cases hcall
        rw [Pmm.makePlan_fails hplan] at hst
        cases hst
      | ok p =>
        cases Pmm.allocateWith_returned hplan hcall with
        | failed hfail =>
          rw [hst] at hfail
          cases hfail
        | missed hlt hsearch => exact ⟨(Pmm.makePlan_order hplan).1 ▸ hlt, p, rfl, hsearch⟩
    · cases h
  · cases h

/-- **The frame allocator is a supply of frames**, whatever else its tables hold. -/
def pmmSupply (state : ∀ live, { s // Stands s live }) : FrameSupply where
  allocate live order owner af := pmmAnswer (state live).1 order owner af
  fresh live order owner af pfn h := by
    have hs := (state live).2
    unfold pmmAnswer at h
    split at h
    next st run s' hcall =>
      split at h
      · cases h
        obtain ⟨hlimit, hfree⟩ := Pmm.allocate_free_run hs.wf hcall
        refine ⟨hlimit, fun base o hlive => ?_⟩
        by_contra hmeet
        have hpos := Nat.two_pow_pos order
        have hpos' := Nat.two_pow_pos o
        -- the later of the two first frames is in both runs
        have hfirst := hs.used base o (max base pfn) hlive (by omega) (by omega)
        exact hfirst (hfree _ (by omega) (by omega))
      · cases h
    · cases h
  small live order owner af h := (pmmAnswer_none h).1
  failure live order owner af e h := by
    unfold pmmAnswer at h
    split at h
    · split at h
      · cases h
      next hst =>
        cases h
        exact Bool.not_eq_true _ ▸ hst
    · cases h
      rfl

end FoliOS.Strata.Mm.Sparse
