import FoliOS.Strata.Pmm.Marking
import FoliOS.Strata.Pmm.Search

/-!
# Strata — allocation below a limit

A request may ask for frames below 1 MiB, 16 MiB or 4 GiB. The first two limits lie inside the
first slot, and the search through its table starts at the entry the limit is the first frame
of. So it starts one entry too far: the run is below the limit exactly if that entry has no
room (`below_iff`).
-/

namespace FoliOS.Strata.Pmm

open Lib

variable {start jump j o k : Nat} {st : StStatus} {t : TableRef}

variable {s s' : State} {r : Request} {p : Plan} {nested : State → Outcome} {pfn order : Nat}

/-! ## Where a run comes from -/

theorem finish_run {owner run : Option Nat} {b : Nat}
    (h : finish s b owner o = some (st, run, s')) : run = some b := by
  rw [finish_eq] at h
  cases h
  rfl

/-- What the search of a normal and of a small allocation found, with the frame numbers it
stands for. -/
inductive Found (p : Plan) (s : State) (pfn : Nat) : Prop
  | slots (i : Nat) (horder : 14 ≤ p.order)
      (hfind : (downFrom p.slotStart p.slotJump).find? (freeSlots s (2 ^ (p.order - 14))) = some i)
      (hpfn : pfn = i * tableFrames)
  | freshEntries (s₁ : State) (i : Nat) (horder : 5 ≤ p.order ∧ p.order < 14)
      (hfind : normalSearch p s = (s₁, some (.fresh i)))
      (hpfn : pfn = i * tableFrames + normalStart p * entryFrames)
  | entries (s₁ : State) (i j k : Nat) (t : TableRef) (horder : 5 ≤ p.order ∧ p.order < 14)
      (hfind : normalSearch p s = (s₁, some (.inside i t j k)))
      (hpfn : pfn = i * tableFrames + j * entryFrames)
  | freshFrames (s₁ : State) (i k : Nat) (b : Bitmap) (horder : p.order < 5)
      (hstart : p.entryStart < tableEntries)
      (hfind : smallSearch p s = (s₁, some (.fresh i)))
      (hframe : findFreeFrameIdxBitmapEntry b p.alignOrder = some k)
      (hpfn : pfn = i * tableFrames + p.entryStart * entryFrames + k)
  | frames (s₁ : State) (i j k : Nat) (t : TableRef) (horder : p.order < 5)
      (hstart : p.entryStart < tableEntries)
      (hfind : smallSearch p s = (s₁, some (.inside i t j k)))
      (hpfn : pfn = i * tableFrames + j * entryFrames + k)

/-- What a call that has returned did: it found a run, it failed, or it asked for less than an entry
and ended its search without a place. -/
inductive Returned (p : Plan) (s : State) (st : StStatus) : Option Nat → Prop
  | found {pfn : Nat} (hfound : Found p s pfn) : Returned p s st (some pfn)
  | failed (hfail : checkSuccess st = false) : Returned p s st none
  | missed (horder : p.order < 5) (hfind : (smallSearch p s).2 = none) : Returned p s st none

theorem allocateWith_returned {run : Option Nat} (hplan : makePlan s r = .ok p)
    (h : allocateWith nested s r = some (st, run, s')) : Returned p s st run := by
  unfold allocateWith at h
  rw [hplan] at h
  dsimp only at h
  split at h
  next hhuge =>
    unfold allocateHuge at h
    dsimp only at h
    split at h
    · cases h
      exact .failed rfl
    split at h
    · cases h
      exact .failed rfl
    next i hi =>
      cases finish_run h
      exact .found (.slots i hhuge hi rfl)
  next hhuge =>
    split at h
    next hnormal =>
      unfold allocateNormal at h
      split at h
      · cases h
        exact .failed rfl
      split at h
      · cases h
        exact .failed rfl
      next s1 i t j k hfind =>
        cases finish_run h
        exact .found (.entries s1 i j k t ⟨hnormal, by omega⟩ hfind rfl)
      next s1 i hfind =>
        obtain ⟨⟨x, s2⟩, htable, h⟩ := Option.bind_eq_some_iff.mp h
        cases x with
        | error e =>
          cases h
          exact .failed (getOrCreateTable_error htable)
        | ok t =>
          cases finish_run h
          exact .found (.freshEntries s1 i ⟨hnormal, by omega⟩ hfind rfl)
    next hnormal =>
      unfold allocateSmall at h
      split at h
      · cases h
        exact .failed rfl
      next hstart =>
        split at h
        next s1 hfind =>
          cases h
          exact .missed (by omega) (by rw [hfind])
        next s1 i t j k hfind =>
          cases finish_run h
          exact .found (.frames s1 i j k t (by omega) (by omega) hfind rfl)
        next s1 i hfind =>
          obtain ⟨⟨x, s2⟩, htable, h⟩ := Option.bind_eq_some_iff.mp h
          cases x with
          | error e =>
            cases h
            exact .failed (getOrCreateTable_error htable)
          | ok t =>
            dsimp only at h
            split at h
            next b hb =>
              split at h
              next k hk =>
                cases finish_run h
                exact .found (.freshFrames s1 i k b (by omega) (by omega) hfind hk rfl)
              next => cases h
            next => cases h

/-- An allocated run comes from one of the searches. -/
theorem allocateWith_found (hplan : makePlan s r = .ok p)
    (h : allocateWith nested s r = some (st, some pfn, s')) : Found p s pfn := by
  cases allocateWith_returned hplan h with
  | found hfound => exact hfound

theorem entryRoom_bounds (h : entryRoom p start s t = some (j, k)) :
    j ∈ downFrom start p.entryJump ∧ j + 2 ^ (p.order - 5) ≤ tableEntries := by
  obtain ⟨j', hfind, heq⟩ := Option.map_eq_some_iff.mp h
  cases heq
  have hfree := List.find?_some hfind
  unfold freeEntries at hfree
  rw [Bool.and_eq_true, decide_eq_true_eq] at hfree
  exact ⟨List.mem_of_find?_eq_some hfind, hfree.1⟩

theorem frameRoomAt_bounds {e : Nat} (halign : p.order ≤ p.alignOrder)
    (h : frameRoomAt p s t e = some (j, k)) : j = e ∧ k + 2 ^ p.order ≤ entryFrames := by
  unfold frameRoomAt at h
  split at h
  · cases h
  · obtain ⟨k', hfind, heq⟩ := Option.map_eq_some_iff.mp h
    cases heq
    have hfree := List.find?_some hfind
    unfold freeFlags at hfree
    rw [Bool.and_eq_true, decide_eq_true_eq] at hfree
    exact ⟨rfl, hfree.1⟩
  · obtain ⟨k', hfind, heq⟩ := Option.map_eq_some_iff.mp h
    cases heq
    have hbounds := (findFree_bounds hfind).2.2
    have := Nat.pow_le_pow_right (show 0 < 2 by decide) halign
    exact ⟨rfl, by unfold entryFrames; omega⟩

theorem frameRoom_bounds (halign : p.order ≤ p.alignOrder) (h : frameRoom p s t = some (j, k)) :
    j ∈ downFrom p.entryStart p.entryJump ∧ k + 2 ^ p.order ≤ entryFrames := by
  obtain ⟨e, he, h⟩ := List.exists_of_findSome?_eq_some h
  obtain ⟨rfl, hk⟩ := frameRoomAt_bounds halign h
  exact ⟨he, hk⟩

/-- Where a run is: it starts at one of the slots, entries and frames searched and ends in time. -/
theorem Found.place (h : Found p s pfn) (halign : p.order ≤ p.alignOrder) :
    ∃ i ∈ downFrom p.slotStart p.slotJump, ∃ e k, pfn = i * tableFrames + e * entryFrames + k ∧
      (14 ≤ p.order ∧ e = 0 ∧ k = 0 ∨
        5 ≤ p.order ∧ k = 0 ∧ e ∈ downFrom (normalStart p) p.entryJump ∧
          e + 2 ^ (p.order - 5) ≤ tableEntries ∨
        e ∈ downFrom p.entryStart p.entryJump ∧ k + 2 ^ p.order ≤ entryFrames) := by
  cases h with
  | slots i horder hfind hpfn =>
    exact ⟨i, List.mem_of_find?_eq_some hfind, 0, 0, by simpa using hpfn, .inl ⟨horder, rfl, rfl⟩⟩
  | freshEntries s1 i horder hfind hpfn =>
    obtain ⟨hi, -, hfree⟩ := scanSlots_found (entryRoom_congr p (normalStart p)) hfind
    exact ⟨i, hi, normalStart p, 0, hpfn.trans (Nat.add_zero _).symm, .inr (.inl
      ⟨horder.1, rfl, start_mem_downFrom _ _, of_decide_eq_true hfree⟩)⟩
  | entries s1 i j k t horder hfind hpfn =>
    obtain ⟨hi, -, hroom⟩ := scanSlots_found (entryRoom_congr p (normalStart p)) hfind
    exact ⟨i, hi, j, 0, hpfn.trans (Nat.add_zero _).symm,
      .inr (.inl ⟨horder.1, rfl, entryRoom_bounds hroom⟩)⟩
  | freshFrames s1 i k b horder _ hfind hframe hpfn =>
    obtain ⟨hi, -⟩ := scanSlots_found (frameRoom_congr p) hfind
    have hk := (findFree_bounds hframe).2.2
    have hpow := Nat.pow_le_pow_right (show 0 < 2 by decide) halign
    exact ⟨i, hi, p.entryStart, k, hpfn, .inr (.inr
      ⟨start_mem_downFrom _ _, by unfold entryFrames; omega⟩)⟩
  | frames s1 i j k t horder _ hfind hpfn =>
    obtain ⟨hi, -, hroom⟩ := scanSlots_found (frameRoom_congr p) hfind
    exact ⟨i, hi, j, k, hpfn, .inr (.inr (frameRoom_bounds halign hroom))⟩

/-! ## Limits -/

/-- The first frame that is not below the limit of an `AF_PMM_BELOW_*` value. -/
def belowFrames (flags : AllocFlags) : Option Nat :=
  let below := flags &&& afPmmBelowMask
  if below = afPmmBelow1M then some 256
  else if below = afPmmBelow16M then some 4096
  else if below = afPmmBelow4G then some (2 ^ 20)
  else none

/-- The entry of the first table that this frame is in, if it is in the first table. -/
def limitEntry (flags : AllocFlags) : Option Nat :=
  let below := flags &&& afPmmBelowMask
  if below = afPmmBelow1M then some 8
  else if below = afPmmBelow16M then some 128
  else none

/-- Entry `j` of the first slot has room for a run. -/
def entryHasRoom (s : State) (order alignOrder j : Nat) : Bool :=
  match s.atpa 0 with
  | .free => true
  | .table t _ =>
    if order ≥ 5 then freeEntries s t (2 ^ (order - 5)) j
    else (frameRoomAt ⟨order, alignOrder, 0, 1, 0, 1⟩ s t j).isSome
  | .unusable => false
  | .hugeAlloc => false

/-- The entry behind the limit has room for the request, and the alignment does not keep the
search away from it. -/
def RoomBehindLimit (s : State) (r : Request) : Prop :=
  ∃ j order, limitEntry r.flags = some j ∧ getOrder r.count = some order ∧
    alignOrderOf order r.flags < 14 ∧ entryHasRoom s order (alignOrderOf order r.flags) j = true

/-- The limits as the two levels see them. -/
theorem below_cases {limit : Nat} {flags : AllocFlags} (h : belowFrames flags = some limit) :
    (∃ j top, limitEntry flags = some j ∧ belowLimits flags = some (top, 1, j) ∧
      limit = j * entryFrames ∧
        j ≤ 128 ∧ top ≤ 12 ∧ 2 ^ top = limit) ∨
      limitEntry flags = none ∧ belowLimits flags = some (20, 64, tableEntries) ∧
      limit = 2 ^ 20 := by
  unfold belowFrames at h
  unfold limitEntry belowLimits
  dsimp only at h ⊢
  split at h
  next h1 =>
    rw [h1]
    exact .inl ⟨8, 8, rfl, rfl, (Option.some.inj h).symm, by decide, by decide, Option.some.inj h⟩
  split at h
  next h2 =>
    rw [h2]
    exact .inl ⟨128, 12, rfl, rfl, (Option.some.inj h).symm, by decide, by decide,
      Option.some.inj h⟩
  split at h
  next h3 =>
    rw [h3]
    exact .inr ⟨rfl, rfl, (Option.some.inj h).symm⟩
  · cases h

theorem two_pow_order (ho : 5 ≤ o) : 2 ^ o = 2 ^ (o - 5) * entryFrames := by
  rw [show entryFrames = 2 ^ 5 from rfl, ← pow_add, Nat.sub_add_cancel ho]

/-- Aligned runs of entries do not overlap. -/
theorem le_entryJump (hs : p.Steps) (halign : p.order ≤ p.alignOrder) :
    2 ^ (p.order - 5) ≤ p.entryJump ∧ 1 ≤ p.entryJump := by
  rw [hs.entryJump]
  split
  next h => exact ⟨Nat.pow_le_pow_right (by decide) (by omega), Nat.one_le_two_pow⟩
  next h => rw [show p.order - 5 = 0 by omega]; exact ⟨le_rfl, le_rfl⟩

theorem find_downFrom {f : Nat → Bool} (h : (downFrom start jump).find? f = some j) :
    (f start = true ∧ j = start) ∨ (f start = false ∧ j + jump ≤ start) := by
  obtain ⟨rest, hrest⟩ := downFrom_cons start jump
  cases hf : f start with
  | true =>
    rw [hrest, List.find?_cons_of_pos hf] at h
    exact .inl ⟨rfl, (Option.some.inj h).symm⟩
  | false =>
    refine .inr ⟨rfl, ?_⟩
    rcases mem_downFrom (List.mem_of_find?_eq_some h) with rfl | hle
    · rw [List.find?_some h] at hf
      cases hf
    · exact hle

theorem frameRoom_downFrom (halign : p.order ≤ p.alignOrder) (h : frameRoom p s t = some (j, k)) :
    ((frameRoomAt p s t p.entryStart).isSome = true ∧ j = p.entryStart) ∨
      ((frameRoomAt p s t p.entryStart).isSome = false ∧ j + p.entryJump ≤ p.entryStart) := by
  obtain ⟨rest, hrest⟩ := downFrom_cons p.entryStart p.entryJump
  cases hroom : frameRoomAt p s t p.entryStart with
  | some x =>
    rw [frameRoom, hrest, List.findSome?_cons, hroom] at h
    cases h
    exact .inl ⟨rfl, (frameRoomAt_bounds halign hroom).1⟩
  | none =>
    refine .inr ⟨rfl, ?_⟩
    obtain ⟨e, he, hat⟩ := List.exists_of_findSome?_eq_some h
    obtain ⟨rfl, -⟩ := frameRoomAt_bounds halign hat
    rcases mem_downFrom he with rfl | hle
    · rw [hroom] at hat
      cases hat
    · exact hle

/-- **Below 4 GiB.** The limit is between slots. -/
theorem found_below_slots (h : Found p s pfn) (hs : p.Steps) (halign : p.order ≤ p.alignOrder)
    (hmax : p.alignOrder ≤ maxOrder) (htop : p.order ≤ 20)
    (hstart : p.slotStart = 63 / p.slotJump * p.slotJump) (hlast : p.entryStart < tableEntries) :
    pfn + 2 ^ p.order ≤ 2 ^ 20 := by
  have hslots : p.slotStart ≤ 63 := hstart ▸ Nat.div_mul_le_self _ _
  obtain ⟨i, hi, e, k, rfl, hplace⟩ := h.place halign
  have hi := ((mem_downFrom_iff hs.slotJump_pos hs.slotStart).mp hi).2
  rcases hplace with ⟨horder, rfl, rfl⟩ | ⟨horder, rfl, -, hend⟩ | ⟨he, hk⟩
  · -- whole slots end where slot 64 starts, or before
    have hend : p.slotStart + 2 ^ (p.order - 14) ≤ 64 := by
      rw [hstart, hs.slotJump, if_pos (by omega)]
      have htable : ∀ a ≤ 26, ∀ o ≤ 20, 14 ≤ o → o ≤ a →
          63 / 2 ^ (a - 13) * 2 ^ (a - 13) + 2 ^ (o - 14) ≤ 64 := by decide
      exact htable _ hmax _ htop horder halign
    have hpow : 2 ^ p.order = 2 ^ (p.order - 14) * tableFrames := by
      rw [tableFrames_eq, ← pow_add, Nat.sub_add_cancel horder]
    rw [hpow, Nat.zero_mul, Nat.add_zero, ← Nat.add_mul]
    exact le_trans (Nat.mul_le_mul_right _ (show _ ≤ 64 by omega)) (by decide)
  · have hle := Nat.mul_le_mul_right entryFrames hend
    rw [Nat.add_mul, ← two_pow_order horder] at hle
    unfold tableFrames tableEntries entryFrames at *
    omega
  · have he := mem_downFrom he
    unfold tableFrames tableEntries entryFrames at *
    omega

/-- **Below an entry of the first table.** The search starts at entry `j`, and what it finds
is below that entry exactly if the entry has no room. -/
theorem found_below_entry (h : Found p s pfn) (hs : p.Steps) (halign : p.order ≤ p.alignOrder)
    (htop : p.order ≤ 12) (hslots : p.slotStart = 0) (hstart : p.entryStart = j) (hj : j ≤ 128) :
    pfn + 2 ^ p.order ≤ j * entryFrames ↔ entryHasRoom s p.order p.alignOrder j = false := by
  obtain ⟨hjump, hpos⟩ := le_entryJump hs halign
  have hrun := Nat.two_pow_pos p.order
  have hnormal : 5 ≤ p.order → normalStart p = j := fun horder => by
    have := Nat.pow_le_pow_right (show 0 < 2 by decide) (show p.order - 5 ≤ 7 by omega)
    unfold normalStart tableEntries
    rw [if_neg (by omega), hstart]
  have hslot : ∀ {i}, i ∈ downFrom p.slotStart p.slotJump → i = 0 := fun hi => by
    rwa [hslots, downFrom_zero, List.mem_singleton] at hi
  cases h with
  | slots i horder hfind hpfn => omega
  | freshEntries s1 i horder hfind hpfn =>
    obtain ⟨hi, hfree, -⟩ := scanSlots_found (entryRoom_congr p (normalStart p)) hfind
    obtain rfl : i = 0 := hslot hi
    rw [hnormal horder.1] at hpfn
    simp only [entryHasRoom, hfree, Bool.true_eq_false, iff_false]
    omega
  | entries s1 i e k t horder hfind hpfn =>
    obtain ⟨hi, ⟨hint, hat⟩, hroom⟩ := scanSlots_found (entryRoom_congr p (normalStart p)) hfind
    obtain rfl : i = 0 := hslot hi
    obtain ⟨e', hfind', heq⟩ := Option.map_eq_some_iff.mp hroom
    cases heq
    rw [hnormal horder.1] at hfind'
    simp only [entryHasRoom, hat, ge_iff_le, if_pos horder.1]
    rcases find_downFrom hfind' with ⟨hfree, rfl⟩ | ⟨hfull, hle⟩
    · rw [hfree]
      simp only [Bool.true_eq_false, iff_false]
      omega
    · rw [hfull, hpfn, two_pow_order horder.1, Nat.zero_mul, Nat.zero_add, ← Nat.add_mul]
      exact iff_of_true (Nat.mul_le_mul_right _ (by omega)) rfl
  | freshFrames s1 i k b horder hbound hfind hframe hpfn =>
    obtain ⟨hi, hfree, -⟩ := scanSlots_found (frameRoom_congr p) hfind
    obtain rfl : i = 0 := hslot hi
    rw [hstart] at hpfn
    simp only [entryHasRoom, hfree, Bool.true_eq_false, iff_false]
    omega
  | frames s1 i e k t horder hbound hfind hpfn =>
    obtain ⟨hi, ⟨hint, hat⟩, hroom⟩ := scanSlots_found (frameRoom_congr p) hfind
    obtain rfl : i = 0 := hslot hi
    have hsame : frameRoomAt ⟨p.order, p.alignOrder, 0, 1, 0, 1⟩ s t j =
        frameRoomAt p s t p.entryStart := by
      rw [hstart]
      rfl
    have hk := (frameRoom_bounds halign hroom).2
    simp only [entryHasRoom, hat, ge_iff_le, if_neg (show ¬ 5 ≤ p.order by omega)]
    rw [hsame]
    rcases frameRoom_downFrom halign hroom with ⟨hsome, rfl⟩ | ⟨hnone, hle⟩
    · rw [hsome]
      simp only [Bool.true_eq_false, iff_false]
      rw [hstart] at hpfn
      omega
    · rw [hnone]
      refine iff_of_true ?_ rfl
      have hle' : (e + 1) * entryFrames ≤ j * entryFrames := Nat.mul_le_mul_right _ (by omega)
      rw [Nat.add_mul, Nat.one_mul] at hle'
      omega

/-- The first entry searched: the one behind the limit, unless the alignment is to 64 MiB. -/
theorem entryStart_eq {a last : Nat} (hlast : last ≤ 128) :
    min ((tableEntries - 1) / (if a > 5 then 2 ^ (a - 5) else 1) * (if a > 5 then 2 ^ (a - 5)
      else 1)) last =
      if a < 14 then last else 0 := by
  by_cases ha : a < 14
  · rw [if_pos ha]
    have htable : ∀ a < 14, 128 ≤ (tableEntries - 1) / (if a > 5 then 2 ^ (a - 5) else 1) *
        (if a > 5 then 2 ^ (a - 5) else 1) := by decide
    exact min_eq_right (le_trans hlast (htable a ha))
  · rw [if_neg ha]
    have hpow : 2 ^ 9 ≤ 2 ^ (a - 5) := Nat.pow_le_pow_right (by decide) (by omega)
    rw [if_pos (show a > 5 by omega), Nat.div_eq_of_lt (by unfold tableEntries; omega),
      Nat.zero_mul]
    exact Nat.zero_min _

/-- With the alignment to 64 MiB only the first entry is searched. -/
theorem found_first_entry (h : Found p s pfn) (halign : p.order ≤ p.alignOrder)
    (htop : p.order ≤ 12) (hslots : p.slotStart = 0) (hstart : p.entryStart = 0) :
    pfn + 2 ^ p.order ≤ max entryFrames (2 ^ p.order) := by
  have hnormal : normalStart p = 0 := by
    unfold normalStart
    rw [hstart, if_neg (by omega)]
  obtain ⟨i, hi, e, k, rfl, hplace⟩ := h.place halign
  rw [hslots, downFrom_zero, List.mem_singleton] at hi
  subst hi
  rw [hnormal, hstart, downFrom_zero, List.mem_singleton] at hplace
  rcases hplace with ⟨horder, -⟩ | ⟨-, rfl, rfl, -⟩ | ⟨rfl, hk⟩ <;> omega

/-- **A run is below the limit exactly if the entry behind the limit has no room.** -/
theorem below_iff {limit : Nat} (hflags : belowFrames r.flags = some limit)
    (hcount : getOrder r.count = some order)
    (h : stPmmAllocateContiguousFrame s r = some (.success, some pfn, s')) :
    (∀ f, pfn ≤ f → f < pfn + 2 ^ order → f < limit) ↔ ¬ RoomBehindLimit s r := by
  have hrun := Nat.two_pow_pos order
  have hend : (∀ f, pfn ≤ f → f < pfn + 2 ^ order → f < limit) ↔ pfn + 2 ^ order ≤ limit :=
    ⟨fun hall => by have := hall (pfn + 2 ^ order - 1) (by omega) (by omega); omega,
      fun hle f _ hf => by omega⟩
  rw [hend]
  obtain ⟨p, hplan⟩ := plan_of_allocated h
  have hfound := allocateWith_found hplan h
  have hs := steps_of_makePlan hplan
  obtain ⟨ho, halign, hmax, -, hentry, top, slots, last, hbelow, htop, hslots, hstart⟩ :=
    makePlan_ok hplan
  obtain rfl : order = p.order := Option.some.inj (hcount.symm.trans ho)
  have hle : p.order ≤ p.alignOrder := halign ▸ le_alignOrderOf _ _
  rcases below_cases hflags with
    ⟨j, top', hj, hlimits, rfl, hj128, htop12, hpow⟩ | ⟨hnone, hlimits, rfl⟩
  · rw [hlimits] at hbelow
    simp only [Option.some.injEq, Prod.mk.injEq] at hbelow
    obtain ⟨rfl, rfl, rfl⟩ := hbelow
    have hzero : p.slotStart = 0 := by
      rw [hslots, Nat.sub_self, Nat.zero_div, Nat.zero_mul]
    rw [hentry, entryStart_eq hj128] at hstart
    have hroom : RoomBehindLimit s r ↔
        p.alignOrder < 14 ∧ entryHasRoom s p.order p.alignOrder j = true := by
      constructor
      · rintro ⟨j', o', hj', ho', hroom⟩
        cases hj.symm.trans hj'
        cases ho.symm.trans ho'
        rwa [← halign] at hroom
      · intro hroom
        exact ⟨j, p.order, hj, ho, by rwa [← halign]⟩
    rw [hroom]
    by_cases hlow : p.alignOrder < 14
    · rw [if_pos hlow] at hstart
      rw [found_below_entry hfound hs hle (by omega) hzero hstart hj128]
      simp only [hlow, true_and, Bool.not_eq_true]
    · rw [if_neg hlow] at hstart
      have hfirst := found_first_entry hfound hle (by omega) hzero hstart
      have hmono := Nat.pow_le_pow_right (show 0 < 2 by decide) htop
      have h32 : entryFrames ≤ j * entryFrames := by
        refine Nat.le_mul_of_pos_left _ ?_
        rcases Nat.eq_zero_or_pos j with rfl | hpos
        · omega
        · exact hpos
      omega
  · rw [hlimits] at hbelow
    obtain ⟨rfl, rfl, rfl⟩ := hbelow
    refine iff_of_true (found_below_slots hfound hs hle hmax htop hslots (entryStart_lt hplan)) ?_
    rintro ⟨j, o, hj, -⟩
    rw [hnone] at hj
    cases hj

/-! ## Two memory maps

The metadata of the first 128 MiB is mapped by one page table, so that boot
takes three frames for it: the PDPT, the page directory and the page table. -/

/-- The frames handed out for a request. -/
def allocatedAt (s : State) (r : Request) : Option (StStatus × Option Nat) :=
  (stPmmAllocateContiguousFrame s r).map fun x => (x.1, x.2.1)

/-- Memory that ends at 1 MiB, like in the repository's test, and goes on at 64 MiB: the four
frames are below the limit. -/
theorem below_iff_hole :
    (boot 3 [(0, 255), (16384, 32767)]).map
        (fun s => (entryHasRoom s 2 2 8, allocatedAt s ⟨4, none, afPmmBelow1M⟩)) =
      some (false, some (.success, some 224)) ∧
      ∀ f, 224 ≤ f → f < 224 + 2 ^ 2 → f < 256 := by
  have hrun : (boot 3 [(0, 255), (16384, 32767)]).map
      (fun s => (entryHasRoom s 2 2 8, allocatedAt s ⟨4, none, afPmmBelow1M⟩)) =
        some (false, some (.success, some 224)) := by decide +kernel
  refine ⟨hrun, ?_⟩
  obtain ⟨s, -, heq⟩ := Option.map_eq_some_iff.mp hrun
  obtain ⟨hroom, halloc⟩ := Prod.mk.inj heq
  obtain ⟨⟨st, pfn, s'⟩, halloc, heq⟩ := Option.map_eq_some_iff.mp halloc
  cases heq
  refine (below_iff rfl rfl halloc).mpr ?_
  rintro ⟨j, order, hj, horder, -, hfull⟩
  cases hj
  cases horder
  exact absurd (hfull.symm.trans hroom) (by decide)

/-- Memory from 0 to 128 MiB: four frames below 1 MiB are asked for, and those from 1 MiB on
are handed out; likewise for 16 MiB. -/
theorem below_fails :
    (boot 3 [(0, 32767)]).map
        (fun s => (allocatedAt s ⟨4, none, afPmmBelow1M⟩, allocatedAt s ⟨4, none, afPmmBelow16M⟩)) =
      some (some (.success, some 256), some (.success, some 4096)) ∧
      belowFrames afPmmBelow1M = some 256 ∧ belowFrames afPmmBelow16M = some 4096 := by
  decide +kernel

end FoliOS.Strata.Pmm
