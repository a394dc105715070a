import FoliOS.Strata.Pmm.Take

/-!
# Strata — the searches of the frame allocator

What the argument checks make of a request, the places the loops visit (`mem_downFrom_iff`), and
what a search through the slots finds and changes (`scanSlots_spec`).
-/

namespace FoliOS.Strata.Pmm

open Lib

variable {start jump j i : Nat} {takeFree : Bool} {room : State → TableRef → Option (Nat × Nat)}
  {t : TableRef} {h : Hint}

variable {s s' : State} {r : Request} {p : Plan} {nested : State → Outcome} {pfn order : Nat}

/-! ## The checks -/

/-- What the argument checks leave. -/
theorem makePlan_ok (h : makePlan s r = .ok p) :
    getOrder r.count = some p.order ∧ p.alignOrder = alignOrderOf p.order r.flags ∧
      p.alignOrder ≤ maxOrder ∧
      p.slotJump = (if p.alignOrder > 13 then 2 ^ (p.alignOrder - 13) else 1) ∧
      p.entryJump = (if p.alignOrder > 5 then 2 ^ (p.alignOrder - 5) else 1) ∧
      ∃ top slots last, belowLimits r.flags = some (top, slots, last) ∧ p.order ≤ top ∧
        p.slotStart = (slots - 1) / p.slotJump * p.slotJump ∧
        p.entryStart = min ((tableEntries - 1) / p.entryJump * p.entryJump) last := by
  unfold makePlan at h
  split at h
  · cases h
  split at h
  · cases h
  next order ho =>
    split at h
    · cases h
    split at h
    · cases h
    dsimp only at h
    split at h
    · cases h
    next halign =>
      split at h
      · cases h
      next top slots last hbelow =>
        split at h
        · cases h
        next htop =>
          cases h
          have hmin : ∀ a b : Nat, (if a > b then b else a) = min a b := fun a b => by
            split <;> omega
          exact ⟨ho, rfl, not_lt.mp halign, rfl, rfl, top, slots, last, hbelow, not_lt.mp htop, rfl,
            hmin _ _⟩

theorem le_alignOrderOf (order : Nat) (flags : AllocFlags) : order ≤ alignOrderOf order flags := by
  unfold alignOrderOf
  dsimp only
  split <;> omega

theorem makePlan_unavailable (h : s.allocationAvailable = false) :
    makePlan s r = .error .conflictingState := by
  simp [makePlan, h]

theorem makePlan_closed (havail : s.allocationAvailable = true)
    (hcount : getOrder r.count = some order)
    (hmax : order ≤ maxOrder) (howner : (r.owner.any fun o => (s.owners o).closed) = true) :
    makePlan s r = .error .conflictingState := by
  simp [makePlan, havail, hcount, not_lt.mpr hmax, howner]

theorem allocate_error {st : StStatus} (h : makePlan s r = .error st) :
    stPmmAllocateContiguousFrame s r = some (st, none, s) := by
  simp [stPmmAllocateContiguousFrame, allocateWith, h]

/-- A run that was allocated passed the checks. -/
theorem plan_of_allocated {st : StStatus}
    (h : stPmmAllocateContiguousFrame s r = some (st, some pfn, s')) :
      ∃ p, makePlan s r = .ok p := by
  cases hplan : makePlan s r with
  | ok p => exact ⟨p, rfl⟩
  | error e =>
    rw [allocate_error hplan] at h
    cases h

/-! ## The places searched -/

theorem mem_downFrom (h : j ∈ downFrom start jump) : j = start ∨ j + jump ≤ start := by
  obtain ⟨k, hk, rfl⟩ := List.mem_map.mp h
  have hk := List.mem_range.mp hk
  rcases Nat.eq_zero_or_pos k with rfl | hpos
  · exact .inl (by omega)
  · have hle : k * jump ≤ start :=
      le_trans (Nat.mul_le_mul_right _ (by omega)) (Nat.div_mul_le_self _ _)
    have : jump ≤ k * jump := Nat.le_mul_of_pos_left _ hpos
    exact .inr (by omega)

theorem downFrom_zero (jump : Nat) : downFrom 0 jump = [0] := by
  simp [downFrom]

/-- The first value is the start. -/
theorem downFrom_cons (start jump : Nat) : ∃ rest, downFrom start jump = start :: rest := by
  rw [downFrom, List.range_succ_eq_map, List.map_cons, Nat.zero_mul, Nat.sub_zero]
  exact ⟨_, rfl⟩

theorem start_mem_downFrom (start jump : Nat) : start ∈ downFrom start jump := by
  obtain ⟨rest, hrest⟩ := downFrom_cons start jump
  exact hrest ▸ List.mem_cons_self

theorem mem_downFrom_iff (hjump : 0 < jump) (hstart : jump ∣ start) :
    j ∈ downFrom start jump ↔ jump ∣ j ∧ j ≤ start := by
  obtain ⟨m, rfl⟩ := hstart
  unfold downFrom
  rw [Nat.mul_div_cancel_left m hjump, List.mem_map]
  constructor
  · rintro ⟨k, hk, rfl⟩
    refine ⟨?_, Nat.sub_le _ _⟩
    rw [Nat.mul_comm k, ← Nat.mul_sub]
    exact Nat.dvd_mul_right _ _
  · rintro ⟨⟨q, rfl⟩, hle⟩
    have hq : q ≤ m := Nat.le_of_mul_le_mul_left hle hjump
    refine ⟨m - q, List.mem_range.mpr (by omega), ?_⟩
    rw [Nat.mul_comm (m - q), ← Nat.mul_sub]
    congr 1
    omega

/-- What the checks leave of the two searches. -/
structure Plan.Steps (p : Plan) : Prop where
  slotJump  : p.slotJump = if p.alignOrder > 13 then 2 ^ (p.alignOrder - 13) else 1
  entryJump : p.entryJump = if p.alignOrder > 5 then 2 ^ (p.alignOrder - 5) else 1
  slotStart : p.slotJump ∣ p.slotStart

theorem steps_of_makePlan (h : makePlan s r = .ok p) : p.Steps := by
  obtain ⟨-, -, -, hslot, hentry, top, slots, last, -, -, hstart, -⟩ := makePlan_ok h
  exact ⟨hslot, hentry, hstart ▸ Nat.dvd_mul_left _ _⟩

theorem entryStart_lt (h : makePlan s r = .ok p) : p.entryStart < tableEntries := by
  obtain ⟨-, -, -, -, -, top, slots, last, -, -, -, hstart⟩ := makePlan_ok h
  rw [hstart]
  exact lt_of_le_of_lt ((Nat.min_le_left _ _).trans (Nat.div_mul_le_self _ _)) (by decide)

theorem Plan.Steps.slotJump_pos (h : p.Steps) : 0 < p.slotJump := by
  rw [h.slotJump]
  split
  · exact Nat.two_pow_pos _
  · exact Nat.one_pos

theorem tableFrames_eq : tableFrames = 2 ^ 14 := rfl

/-- Where a target is. -/
def Target.slot : Target → Nat
  | .fresh i => i
  | .inside i _ _ _ => i

/-- A target the search may end at: a free slot, or room in a table. -/
def Target.FoundIn (takeFree : Bool) (room : State → TableRef → Option (Nat × Nat)) (s : State) :
    Target → Prop
  | .fresh i => s.atpa i = .free ∧ takeFree = true
  | .inside i t j k => (∃ h, s.atpa i = .table t h) ∧ room s t = some (j, k)

theorem entryRoom_congr (p : Plan) (start : Nat) (s : State) (a : Nat → Slot) (t : TableRef) :
    entryRoom p start { s with atpa := a } t = entryRoom p start s t := rfl

theorem frameRoom_congr (p : Plan) (s : State) (a : Nat → Slot) (t : TableRef) :
    frameRoom p { s with atpa := a } t = frameRoom p s t := rfl

section

variable (hroom : ∀ (s : State) (a : Nat → Slot) (t : TableRef),
  room { s with atpa := a } t = room s t)
include hroom

/-- New hints of a table give no new targets. -/
theorem Target.FoundIn.of_hint {h' : Hint} {target : Target} (hslot : s.atpa i = .table t h)
    (hfound : target.FoundIn takeFree room (s.setSlot i (.table t h'))) :
    target.FoundIn takeFree room s := by
  have hself : (s.setSlot i (.table t h')).atpa i = .table t h' := Function.update_self i _ _
  have hsame : ∀ i', i' ≠ i → (s.setSlot i (.table t h')).atpa i' = s.atpa i' :=
    fun i' hne => Function.update_of_ne hne _ _
  cases target with
  | fresh i' =>
    have hne : i' ≠ i := by
      rintro rfl
      exact nomatch hself.symm.trans hfound.1
    exact ⟨(hsame i' hne).symm.trans hfound.1, hfound.2⟩
  | inside i' t' j k =>
    obtain ⟨⟨h1, ht'⟩, hjk⟩ := hfound
    refine ⟨?_, (hroom s _ t').symm.trans hjk⟩
    rcases eq_or_ne i' i with rfl | hne
    · obtain ⟨rfl, -⟩ := Slot.table.inj (hself.symm.trans ht')
      exact ⟨h, hslot⟩
    · exact ⟨h1, (hsame i' hne).symm.trans ht'⟩

/-- **What a search ends at**: a slot of the list that the state before it has a target in; a
free slot is still free after the search, which changes only hints of tables. -/
theorem scanSlots_spec {s1 : State} {target : Target} (is : List Nat) :
    ∀ s, scanSlots order takeFree room is s = (s1, some target) →
      target.slot ∈ is ∧ target.FoundIn takeFree room s ∧
        ∀ i, target = .fresh i → s1.atpa i = .free := by
  induction is with
  | nil => exact fun s h => nomatch h
  | cons i is ih =>
    intro s h
    have hlater : ∀ s', scanSlots order takeFree room is s' = (s1, some target) →
        (target.FoundIn takeFree room s' → target.FoundIn takeFree room s) →
        target.slot ∈ i :: is ∧ target.FoundIn takeFree room s ∧
          ∀ i, target = .fresh i → s1.atpa i = .free := by
      intro s' h' hback
      obtain ⟨hmem, hfound, hfresh⟩ := ih s' h'
      exact ⟨List.mem_cons_of_mem i hmem, hback hfound, hfresh⟩
    unfold scanSlots at h
    cases hslot : s.atpa i with
    | unusable | hugeAlloc =>
      simp only [hslot] at h
      exact hlater s h id
    | free =>
      simp only [hslot] at h
      split at h
      next htake =>
        obtain ⟨rfl, rfl⟩ := by simpa using h
        exact ⟨List.mem_cons_self, ⟨hslot, htake⟩, by rintro _ ⟨⟩; exact hslot⟩
      next => exact hlater s h id
    | table t hint =>
      simp only [hslot] at h
      split at h
      next => exact hlater s h id
      next =>
        split at h
        next j k hjk =>
          obtain ⟨rfl, rfl⟩ := by simpa using h
          exact ⟨List.mem_cons_self, ⟨⟨hint, hslot⟩, hjk⟩, fun _ hfresh => nomatch hfresh⟩
        next => exact hlater _ h (.of_hint hroom hslot)

theorem scanSlots_found {is : List Nat} {s1 : State} {target : Target}
    (h : scanSlots order takeFree room is s = (s1, some target)) :
    target.slot ∈ is ∧ target.FoundIn takeFree room s :=
  have hspec := scanSlots_spec hroom is s h
  ⟨hspec.1, hspec.2.1⟩

theorem scanSlots_fresh {is : List Nat} {s1 : State} {i : Nat}
    (h : scanSlots order takeFree room is s = (s1, some (.fresh i))) : s1.atpa i = .free :=
  (scanSlots_spec hroom is s h).2.2 i rfl

end

end FoliOS.Strata.Pmm
