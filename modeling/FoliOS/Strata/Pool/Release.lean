import FoliOS.Strata.Pool.Steps

/-!
# Strata — giving pool memory back

The three ways an object goes back (`StPool_Free`): its subpool stays on the
free list, it was full and returns to the free list, or it becomes empty and is
unlinked and its pages released. In each case exactly the object's place is
given back.
-/

namespace FoliOS.Strata.Pool

open Function Lib

section

variable {s : State} {subs frees : Nat → List Nat} {t h k : Nat}

/-- The header after the object's bit is cleared. -/
def clearedBits (s : State) (h k : Nat) : State :=
  s.modHeader h fun x => { x with
    bitmap := clearWordBit x.bitmap (k / 64) (k % 64), usedCount := x.usedCount - 1 }

theorem clearedBits_headers (s : State) (h k a : Nat) :
    (clearedBits s h k).headers a = if a = h then { s.headers a with
      bitmap := clearWordBit (s.headers a).bitmap (k / 64) (k % 64),
      usedCount := (s.headers a).usedCount - 1 } else s.headers a :=
  modHeader_headers s h a _

theorem split_index (k : Nat) : k / 64 * 64 + k % 64 = k := by omega

/-- A set bit makes the mask test of `StPool_Free` succeed. -/
theorem and_mask_ne_zero {bm : Nat → BitVec 64} (hbit : getBit bm k = true) :
    bm (k / 64) &&& 1#64 <<< (k % 64) ≠ 0 := by
  rw [ne_eq, and_bit_eq_zero_iff (Nat.mod_lt _ (by decide))]
  rw [getBit] at hbit
  simp [hbit]

/-- Clearing a set bit keeps counter and bitmap in step. -/
theorem clearedBits_core (hI : Core s subs frees) (hh : h ∈ subs t)
    (hk : k < (s.headers h).objectCount) (hbit : getBit (s.headers h).bitmap k = true) :
    Core (clearedBits s h k) subs frees := by
  have hbits := hI.bits t h hh
  have hlt : k % 64 < 64 := Nat.mod_lt _ (by decide)
  have hcount : countBits (clearWordBit (s.headers h).bitmap (k / 64) (k % 64))
      (s.headers h).objectCount + 1 = countBits (s.headers h).bitmap (s.headers h).objectCount :=
    countBits_clearWordBit hlt (by rw [split_index]; exact hk) (by rw [split_index]; exact hbit)
  rw [← hbits.used] at hcount
  refine hI.setBits ⟨?_, fun j h1 h2 => ?_⟩
  · show (s.headers h).usedCount - 1 =
      countBits (clearWordBit (s.headers h).bitmap (k / 64) (k % 64)) (s.headers h).objectCount
    omega
  · rw [getBit_clearWordBit _ hlt, split_index, hbits.pad j h1 h2]
    have : j ≠ k := by
      intro hjk
      subst hjk
      exact absurd hk (by simpa using h1)
    simp [this]

/-- Objects taken after the bit is cleared. -/
theorem taken_of_cleared {s' : State}
    (hr : ∀ a, (⟨a, subpoolPages, .subpool⟩ : PoolRange) ∈ s'.ranges ↔
      (⟨a, subpoolPages, .subpool⟩ : PoolRange) ∈ s.ranges)
    (hsh : s'.shape = s.shape)
    (hbm : ∀ a, (s'.headers a).bitmap = ((clearedBits s h k).headers a).bitmap) (a j : Nat) :
    (Place.object a j).Taken s' ↔
      (Place.object a j).Taken s ∧ Place.object a j ≠ Place.object h k := by
  have hlt : k % 64 < 64 := Nat.mod_lt _ (by decide)
  have hcnt : (s'.headers a).objectCount = (s.headers a).objectCount := by
    have := congrFun hsh a
    simp only [State.shape, Prod.mk.injEq] at this
    exact this.2.2.1
  simp only [Place.Taken, hr, hcnt, hbm, clearedBits_headers, ne_eq, Place.object.injEq]
  by_cases hah : a = h
  · subst hah
    rw [if_pos rfl, getBit_clearWordBit _ hlt, split_index]
    simp only [Bool.and_eq_true, Bool.not_eq_true', decide_eq_false_iff_not]
    tauto
  · simp [hah]

theorem release_shrinks {s' : State} (hrg : s'.ranges = s.ranges) (hsh : s'.shape = s.shape)
    (hbm : ∀ a, (s'.headers a).bitmap = ((clearedBits s h k).headers a).bitmap) :
    Shrinks s s' (.object h k) := by
  refine ⟨fun l => ?_, fun l _ => Place.extent_congr fun a j _ => congrFun hsh a⟩
  cases l with
  | large r => simp [Place.Taken, hrg]
  | object a j => exact taken_of_cleared (by simp [hrg]) hsh hbm a j

/-! ## The subpool keeps an object -/

theorem clearedBits_shape (s : State) (h k : Nat) : (clearedBits s h k).shape = s.shape := by
  funext a
  simp only [State.shape, clearedBits_headers]
  split <;> rfl

/-- The state after `StPool_Free` when the subpool stays in use. -/
theorem release_busy (hI : PoolInv s subs frees) (hh : h ∈ subs t)
    (hk : k < (s.headers h).objectCount) (hbit : getBit (s.headers h).bitmap k = true)
    (hbusy : 1 < (s.headers h).usedCount) :
    (∃ frees', PoolInv (releaseObject s t h k) subs frees') ∧
    (releaseObject s t h k).ranges = s.ranges ∧ (releaseObject s t h k).shape = s.shape ∧
    (∀ a, ((releaseObject s t h k).headers a).bitmap = ((clearedBits s h k).headers a).bitmap) ∧
    ∀ a, ((releaseObject s t h k).headers a).usedCount =
      ((clearedBits s h k).headers a).usedCount := by
  have hcore := clearedBits_core hI.toCore hh hk hbit
  have hshape := clearedBits_shape s h k
  have hself : ((clearedBits s h k).headers h).usedCount = (s.headers h).usedCount - 1 := by
    rw [clearedBits_headers, if_pos rfl]
  have hcnt : ((clearedBits s h k).headers h).objectCount = (s.headers h).objectCount := by
    rw [clearedBits_headers, if_pos rfl]
  have hle : (s.headers h).usedCount ≤ (s.headers h).objectCount := by
    rw [(hI.bits t h hh).used]
    exact countBits_le _ _
  have hother : ∀ a ≠ h, (clearedBits s h k).shape a = s.shape a ∧
      ((clearedBits s h k).headers a).usedCount = (s.headers a).usedCount := fun a hah =>
    ⟨congrFun hshape a, by rw [clearedBits_headers, if_neg hah]⟩
  have hempty : subpoolIsCompletelyEmpty ((clearedBits s h k).headers h) = false := by
    rw [subpoolIsCompletelyEmpty, hself, decide_eq_false_iff_not]
    omega
  have hrel : releaseObject s t h k =
      if subpoolIsCompletelyFull (s.headers h) = true then pushToFreeList (clearedBits s h k) t h
      else clearedBits s h k := by
    unfold releaseObject
    rw [if_neg (and_mask_ne_zero hbit)]
    change (if subpoolIsCompletelyEmpty ((clearedBits s h k).headers h) = true then _ else _) = _
    rw [hempty]
    rfl
  by_cases hfull : (s.headers h).usedCount ≥ (s.headers h).objectCount
  · -- a full subpool returns to the free list
    have hoff : h ∉ frees t := fun hf => by
      have := (hI.free_iff t h hh).mp hf
      omega
    rw [hrel, if_pos (by simpa [subpoolIsCompletelyFull] using hfull)]
    obtain ⟨hnf, hpf⟩ := hcore.rings.off t h hh hoff
    obtain ⟨hhd, -, hrg⟩ := pushToFreeList_eq hpf hnf (hcore.rings.off_head hoff)
    have hsh : (pushToFreeList (clearedBits s h k) t h).shape = s.shape := by
      rw [← hshape]
      funext a
      simp only [State.shape, hhd]
    refine ⟨⟨_, hI.update (hcore.pushFree hh hoff) hh (fun u a hah => ?_) (fun a hah => ?_) ?_⟩,
      by rw [hrg]; rfl, hsh, fun a => by rw [hhd], fun a => by rw [hhd]⟩
    · by_cases hu : u = t
      · subst hu; simp [hah]
      · rw [update_of_ne hu]
    · exact ⟨congrFun hsh a, by rw [hhd]; exact (hother a hah).2⟩
    · rw [update_self, hhd]
      simp only [hself, hcnt, List.mem_cons_self, true_iff]
      omega
  · rw [hrel, if_neg (by simpa [subpoolIsCompletelyFull] using hfull)]
    refine ⟨⟨frees, hI.update hcore hh (fun u a _ => Iff.rfl) hother ?_⟩, rfl, hshape,
      fun a => rfl, fun a => rfl⟩
    rw [hself, hcnt, hI.free_iff t h hh]
    omega

/-! ## Releasing a range -/

/-- Releasing a held range removes exactly that range. -/
theorem mem_freeRange (hSp : Spans s subs) {r r' : PoolRange} (hr : r ∈ s.ranges) :
    r' ∈ (s.freeRange r.beginVpn).ranges ↔ r' ∈ s.ranges ∧ r' ≠ r := by
  simp only [State.freeRange, List.mem_filter, decide_eq_true_eq]
  refine and_congr_right fun hr' => ⟨fun hne heq => hne (by rw [heq]), fun hne heq => ?_⟩
  -- two held ranges never start at the same page
  have hap : r'.Apart r := hSp.apart.forall hr' hr hne
  have h1 := (hSp.bounds r hr).2.1
  have h2 := (hSp.bounds r' hr').2.1
  rcases hap with hap | hap <;> omega

theorem freeRange_apart (hSp : Spans s subs) (v : Nat) :
    (s.freeRange v).ranges.Pairwise PoolRange.Apart :=
  hSp.apart.filter _

/-- Freeing a large block. -/
theorem freeLarge_spec (hI : PoolInv s subs frees) {r : PoolRange} (hl : (Place.large r).Taken s) :
    PoolInv (s.freeRange r.beginVpn) subs frees ∧
      Shrinks s (s.freeRange r.beginVpn) (.large r) := by
  obtain ⟨hr, hkind⟩ := hl
  have hmem : ∀ {r'}, r' ∈ (s.freeRange r.beginVpn).ranges ↔ r' ∈ s.ranges ∧ r' ≠ r :=
    mem_freeRange hI.spans hr
  have hsub : ∀ a, (⟨a, subpoolPages, .subpool⟩ : PoolRange) ≠ r := by
    rintro a rfl
    simp at hkind
  refine ⟨⟨⟨hI.rings.congr (fun u a _ => ⟨rfl, rfl, rfl, rfl⟩) (fun u => ⟨rfl, rfl, rfl⟩),
    hI.shapes.congr rfl (fun u a _ => rfl),
    ⟨fun a => ?_, fun r' hr' => hI.spans.pages r' (hmem.mp hr').1,
      fun r' hr' => hI.spans.bounds r' (hmem.mp hr').1, freeRange_apart hI.spans _⟩,
    hI.bits⟩, hI.free_iff⟩, ⟨fun l => ?_, fun l _ => Place.extent_congr fun a k _ => rfl⟩⟩
  · rw [hmem, hI.spans.linked]
    simp [hsub]
  · cases l with
    | large r' =>
      simp only [Place.Taken, hmem, ne_eq, Place.large.injEq]
      tauto
    | object a k =>
      have heq : ((s.freeRange r.beginVpn).headers a) = s.headers a := rfl
      simp only [Place.Taken, hmem, heq, ne_eq, reduceCtorEq, not_false_iff, and_true]
      simp [hsub]

/-! ## The subpool becomes empty -/

/-- The state after `StPool_Free` when the last object of a subpool goes. -/
def withoutSubpool (s : State) (t h k : Nat) : State :=
  (clearSubpool (detachSubpool (removeFromFreeList (clearedBits s h k) t h) t h) t h).freeRange h

section

variable (hI : PoolInv s subs frees) (hh : h ∈ subs t) (hk : k < (s.headers h).objectCount)
  (hbit : getBit (s.headers h).bitmap k = true)
include hI hh hk hbit

/-- Other headers only change their links. -/
theorem withoutSubpool_headers {a : Nat} (hah : a ≠ h) :
    ∃ nx pv nf pf, (withoutSubpool s t h k).headers a =
      { s.headers a with next := nx, prev := pv, nextFree := nf, prevFree := pf } := by
  have hcore := (clearedBits_core hI.toCore hh hk hbit).removeFree hh
  obtain ⟨hhd, -, -⟩ := clear_detach_eq (hcore.rings.all t) (hcore.rings.last t) hh
  have heq : (withoutSubpool s t h k).headers a = _ := hhd a
  rw [heq, if_neg hah, removeFromFreeList_headers, clearedBits_headers, if_neg hah]
  exact ⟨_, _, _, _, rfl⟩

/-- The range of the subpool is given back. -/
theorem mem_withoutSubpool {r' : PoolRange} : r' ∈ (withoutSubpool s t h k).ranges ↔
    r' ∈ s.ranges ∧ r' ≠ ⟨h, subpoolPages, .subpool⟩ := by
  have hcore := (clearedBits_core hI.toCore hh hk hbit).removeFree hh
  obtain ⟨-, -, hrg⟩ := clear_detach_eq (hcore.rings.all t) (hcore.rings.last t) hh
  rw [removeFromFreeList_ranges] at hrg
  rw [← mem_freeRange hI.spans ((hI.spans.linked h).mp ⟨t, hh⟩)]
  show r' ∈ List.filter _ (clearSubpool _ t h).ranges ↔ r' ∈ List.filter _ s.ranges
  rw [hrg]
  rfl

omit hk hbit in
/-- What is left of the list of the size class. -/
theorem mem_update_erase_subs (u a : Nat) :
    a ∈ update subs t ((subs t).erase h) u ↔ a ∈ subs u ∧ a ≠ h := by
  by_cases hu : u = t
  · subst hu
    rw [update_self, (hI.rings.all u).nodup.mem_erase_iff, and_comm]
  · rw [update_of_ne hu]
    exact ⟨fun ha => ⟨ha, fun hah => hu (hI.shapes.slot_unique ha (hah ▸ hh))⟩, And.left⟩

/-- The other subpools are linked as before. -/
theorem withoutSubpool_inv :
    PoolInv (withoutSubpool s t h k) (update subs t ((subs t).erase h))
      (update frees t ((frees t).erase h)) := by
  have hcore := (clearedBits_core hI.toCore hh hk hbit).removeFree hh
  have hoff : h ∉ update frees t ((frees t).erase h) t := by
    rw [update_self, (hI.rings.free t).nodup.mem_erase_iff]
    simp
  have hR := clear_detach_rings hcore.rings hcore.shapes hh hoff
  have hS := clear_detach_shapes hcore.rings hcore.shapes hh
  have hsubs := mem_update_erase_subs hI hh
  have hmem : ∀ {r'}, r' ∈ (withoutSubpool s t h k).ranges ↔ _ :=
    mem_withoutSubpool hI hh hk hbit
  refine ⟨⟨hR.congr (fun u a _ => ⟨rfl, rfl, rfl, rfl⟩) (fun u => ⟨rfl, rfl, rfl⟩),
    hS.congr rfl (fun u a _ => rfl), ⟨fun a => ?_, fun r' hr' => hI.spans.pages r' (hmem.mp hr').1,
      fun r' hr' => hI.spans.bounds r' (hmem.mp hr').1, ?_⟩, fun u a ha => ?_⟩, fun u a ha => ?_⟩
  · rw [hmem, ← hI.spans.linked]
    simp only [hsubs, ne_eq, PoolRange.mk.injEq, and_true]
    exact exists_and_right
  · refine List.Pairwise.filter _ ?_
    rw [(clear_detach_eq (hcore.rings.all t) (hcore.rings.last t) hh).2.2,
      removeFromFreeList_ranges]
    exact hI.spans.apart
  · obtain ⟨ha', hah⟩ := (hsubs u a).mp ha
    obtain ⟨nx, pv, nf, pf, heq⟩ := withoutSubpool_headers hI hh hk hbit hah
    rw [heq]
    exact (hI.bits u a ha').congr rfl rfl rfl
  · obtain ⟨ha', hah⟩ := (hsubs u a).mp ha
    obtain ⟨nx, pv, nf, pf, heq⟩ := withoutSubpool_headers hI hh hk hbit hah
    rw [heq, mem_update_erase hah]
    exact hI.free_iff u a ha'

variable (hlast : (s.headers h).usedCount = 1)
include hlast

theorem releaseObject_last : releaseObject s t h k = withoutSubpool s t h k := by
  have hcore := clearedBits_core hI.toCore hh hk hbit
  obtain ⟨hok, hcls⟩ := hcore.shapes.header hh
  have hpos := (hI.spans.bounds _ ((hI.spans.linked h).mp ⟨t, hh⟩)).1
  have hzero : ((clearedBits s h k).headers h).usedCount = 0 := by
    rw [clearedBits_headers, if_pos rfl]
    simp [hlast]
  have hval := hok.validate (by rw [hzero]; exact Nat.zero_le _)
  have hget := getObjectEntry_existing hcore.shapes hok.cls.pos.ne' hcls.symm
  unfold releaseObject
  rw [if_neg (and_mask_ne_zero hbit)]
  change (if subpoolIsCompletelyEmpty ((clearedBits s h k).headers h) = true then _ else _) = _
  rw [if_pos (by simpa [subpoolIsCompletelyEmpty] using hzero)]
  have hunlink : unlinkSubpoolLocked (clearedBits s h k) h =
      (h, clearSubpool (detachSubpool (removeFromFreeList (clearedBits s h k) t h) t h) t h) := by
    unfold unlinkSubpoolLocked
    rw [if_neg (by simp [hval]), hget]
  unfold clearedBits at hunlink
  rw [hunlink]
  obtain ⟨v, rfl⟩ : ∃ v, h = v + 1 := ⟨h - 1, by simp only at hpos; omega⟩
  rfl

/-- The counter was 1, so no other object of the subpool is taken. -/
theorem taken_last {j : Nat} (hj : (Place.object h j).Taken s) : j = k := by
  obtain ⟨-, hj, hbitj⟩ := hj
  by_contra hjk
  have hlt : k % 64 < 64 := Nat.mod_lt _ (by decide)
  have hb := ((clearedBits_core hI.toCore hh hk hbit).bits t h hh).used
  rw [clearedBits_headers, if_pos rfl] at hb
  simp only [hlast] at hb
  have hpos : 0 < countBits (clearWordBit (s.headers h).bitmap (k / 64) (k % 64))
      (s.headers h).objectCount := countBits_pos hj (by
    rw [getBit_clearWordBit _ hlt, split_index, hbitj]
    simp [hjk])
  omega

/-- Only the place that was freed is no longer taken. -/
theorem withoutSubpool_shrinks : Shrinks s (withoutSubpool s t h k) (.object h k) := by
  have hmem : ∀ {r'}, r' ∈ (withoutSubpool s t h k).ranges ↔ _ :=
    mem_withoutSubpool hI hh hk hbit
  refine ⟨fun l => ?_, fun l hl => Place.extent_congr fun a j hlj => ?_⟩
  · cases l with
    | large r =>
      have hne : r.kind = .largeAlloc → r ≠ ⟨h, subpoolPages, .subpool⟩ := by
        rintro hkind rfl
        simp at hkind
      simp only [Place.Taken, hmem, reduceCtorEq, ne_eq, not_false_iff, and_true]
      tauto
    | object a j =>
      by_cases hah : a = h
      · subst hah
        simp only [Place.Taken, hmem, ne_eq, not_true, and_false, false_and, Place.object.injEq,
          true_and, false_iff]
        exact fun hc => hc.2 (taken_last hI hh hk hbit hlast hc.1)
      · obtain ⟨nx, pv, nf, pf, heq⟩ := withoutSubpool_headers hI hh hk hbit hah
        simp only [Place.Taken, hmem, heq, ne_eq, PoolRange.mk.injEq, hah, false_and,
          not_false_iff, and_true, Place.object.injEq]
  · subst hlj
    have hah : a ≠ h := by
      rintro rfl
      exact (hmem.mp hl.1).2 rfl
    obtain ⟨nx, pv, nf, pf, heq⟩ := withoutSubpool_headers hI hh hk hbit hah
    simp only [State.shape, heq]

/-- **The last object of a subpool goes, and the subpool with it.** -/
theorem release_last :
    (∃ subs' frees', PoolInv (withoutSubpool s t h k) subs' frees') ∧
    Shrinks s (withoutSubpool s t h k) (.object h k) ∧
    ∀ a ≠ h, ((withoutSubpool s t h k).headers a).usedCount = (s.headers a).usedCount := by
  refine ⟨⟨_, _, withoutSubpool_inv hI hh hk hbit⟩,
    withoutSubpool_shrinks hI hh hk hbit hlast, fun a hah => ?_⟩
  obtain ⟨nx, pv, nf, pf, heq⟩ := withoutSubpool_headers hI hh hk hbit hah
  rw [heq]

end

end

end FoliOS.Strata.Pool
