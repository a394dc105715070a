import FoliOS.Strata.Pmm.Take

/-!
# Strata — marking frames before the allocator opens

`StPmm_MarkUsableContiguousFrame` and `StPmm_MarkUnusableContiguousFrame` write whole
slots, whole entries and single flags, and make tables and extended entries where a
range ends inside one. `Marks` is what each loop does to the decoded frames; the last
call that covers a frame decides its state (`markAll_decode`).
-/

namespace FoliOS.Strata.Pmm

open Lib

variable {b i j limit : Nat} {t : TableRef} {nested : State → Outcome} {x : ExtRef} {st : StStatus}

/-- What holds until `StPmm_LateInit` opens the allocator. -/
structure Unopened (s : State) : Prop where
  wf        : Wf s
  closed    : s.allocationAvailable = false
  idle      : ∀ f, decode s f ≠ .used
  tablePool : s.tablePool = []
  extPool   : s.extPool = []
  runs      : s.runs = []
  kept      : s.overwritten = 0

/-- Frames `lo` to `hi - 1` get the state `v`, and only the tables are written. -/
structure Marks (s s' : State) (lo hi : Nat) (v : Flag) : Prop where
  wf     : Wf s'
  decode : ∀ f, decode s' f = if lo ≤ f ∧ f < hi then v else decode s f
  rest   : s' = { s with
             atpa := s'.atpa
             tables := s'.tables
             exts := s'.exts
             earlyTables := s'.earlyTables
             earlyExts := s'.earlyExts }

variable {s s' s'' : State} {lo mid hi : Nat} {v : Flag} {m : Marking}

theorem Marking.flag_ne_used (m : Marking) : m.flag ≠ .used := by
  cases m <;> simp [Marking.flag]

theorem Marks.unopened (h : Marks s s' lo hi v) (hv : v ≠ .used) (hU : Unopened s) :
    Unopened s' := by
  refine ⟨h.wf, (congrArg State.allocationAvailable h.rest :).trans hU.closed, fun f => ?_,
    (congrArg State.tablePool h.rest :).trans hU.tablePool,
    (congrArg State.extPool h.rest :).trans hU.extPool,
    (congrArg State.runs h.rest :).trans hU.runs,
    (congrArg State.overwritten h.rest :).trans hU.kept⟩
  rw [h.decode]
  split
  · exact hv
  · exact hU.idle f

theorem Marks.refl (hw : Wf s) (lo : Nat) (v : Flag) : Marks s s lo lo v :=
  ⟨hw, fun f => by rw [if_neg (by omega)], rfl⟩

theorem Marks.trans (h : Marks s s' lo mid v) (h' : Marks s' s'' mid hi v) (hlo : lo ≤ mid)
    (hhi : mid ≤ hi) : Marks s s'' lo hi v := by
  refine ⟨h'.wf, fun f => ?_, ?_⟩
  · rw [h'.decode, h.decode]
    by_cases hin : lo ≤ f ∧ f < hi
    · split_ifs <;> first | rfl | omega
    · rw [if_neg hin, if_neg (by omega), if_neg (by omega)]
  · rw [h'.rest, h.rest]

/-- A step that changes no frame can come before any other. -/
theorem Marks.after {lo' : Nat} {v' : Flag} (h : Marks s s' lo' lo' v')
    (h' : Marks s' s'' lo hi v) :
    Marks s s'' lo hi v := by
  refine ⟨h'.wf, fun f => ?_, ?_⟩
  · rw [h'.decode, h.decode f, if_neg (by omega : ¬(lo' ≤ f ∧ f < lo'))]
  · rw [h'.rest, h.rest]

theorem Changes.marks {n : Nat} (h : Changes s s' b n v) : Marks s s' b (b + n) v :=
  ⟨h.wf, h.decode, by rw [h.cells]⟩

/-! ## One slot, one entry, one flag -/

theorem setSlot_region (s : State) (i j : Nat) (u : Slot) :
    (s.setSlot i u).region j = if j = i then u.region else s.region j := by
  by_cases hj : j = i
  · subst hj
    simp [State.region, State.setSlot]
  · simp [State.region, State.setSlot, hj]

/-- A whole slot; a table it had is lost. -/
theorem setSlot_marks (hw : Wf s) (hi : i < slotCount) (m : Marking) :
    Marks s (s.setSlot i m.slot) (i * tableFrames) ((i + 1) * tableFrames) m.flag := by
  have hslot : ∀ t, m.slot.region ≠ .table t := by
    cases m <;> simp [Marking.slot, Slot.region]
  refine ⟨hw.of_sub (fun j hj => ?_) (fun j t h => ?_) rfl, fun f => ?_, rfl⟩
  · rw [setSlot_region, if_neg (by omega)]
    exact hw.outside j hj
  · rw [setSlot_region] at h
    split at h
    · exact absurd h (hslot t)
    · exact h
  · rw [show (i + 1) * tableFrames = i * tableFrames + 1 * tableFrames by rw [Nat.add_mul]]
    simp only [cover_slots]
    split
    · rw [decode, setSlot_region, if_pos (by omega)]
      cases m <;> rfl
    · exact decode_congr_at (by rw [setSlot_region, if_neg (by omega)]) fun _ _ => rfl

/-- A whole entry of the table of slot `i`. -/
theorem setEntry_marks (hw : Wf s) (hi : s.region i = .table t) (hj : j < tableEntries)
    (m : Marking) :
    Marks s (s.setEntries t j 1 m.entry) (frameAt i j 0) (frameAt i j entryFrames) m.flag := by
  refine ⟨hw.setEntries (fun x => by cases m <;> simp [Marking.entry]) fun b h => ?_,
    fun f => ?_, rfl⟩
  · cases m with
    | unusable => simp [Marking.entry] at h
    | usable => exact Entry.bitmap.inj h ▸ bmpFree_ok
  · have hcover := cover_frames (i := i) (k := 0) (n := entryFrames) (f := f) hj (by decide)
    have hlt := Nat.mod_lt f (by decide : 0 < entryFrames)
    have hend : frameAt i j entryFrames = frameAt i j 0 + entryFrames := by simp [frameAt]
    rw [decode_setEntries hw hi, hend]
    by_cases hin : frameAt i j 0 ≤ f ∧ f < frameAt i j 0 + entryFrames
    · rw [if_pos hin, if_pos (by obtain ⟨h1, h2, -⟩ := hcover.mp hin; omega)]
      cases m with
      | unusable => rfl
      | usable => simp [Marking.entry, Marking.flag, decodeEntry, bmpFree]
    · rw [if_neg hin, if_neg (fun h => hin (hcover.mpr (by omega)))]

/-! ## New tables -/

/-- Before the allocator is open no top-up is made. -/
theorem maybeTopup_unopened (h : s.allocationAvailable = false) :
    maybeTopupManagementPools nested s = some s := by
  simp [maybeTopupManagementPools, h]

theorem topupEmpty_unopened (h : s.allocationAvailable = false) (p : Pool) :
    topupEmpty nested s p = some (.success, s) := by
  simp [topupEmpty, h]

/-- The next early table. -/
theorem Unopened.newTable (hU : Unopened s) :
    NewTable { s with earlyTables := s.earlyTables + 1 } (.early s.earlyTables) := by
  refine ⟨fun j h => ?_, fun k h => ?_, fun pfn h => by simp at h⟩
  · have := hU.wf.early j _ h
    omega
  · rw [← TableRef.early.inj h]
    exact Nat.lt_succ_self _

theorem Wf.moreEarly {a : Nat} (hw : Wf s) (ha : s.earlyTables ≤ a) (hb : s.earlyExts ≤ b) :
    Wf { s with earlyTables := a, earlyExts := b } := by
  refine ⟨hw.outside, hw.tables, hw.exts, hw.bitmaps, fun i k h => (hw.early i k h).trans_le ha,
    hw.dynamic, fun i t e x h he hx => ?_, hw.nodup, hw.pooled, hw.extPooled⟩
  obtain ⟨k, hk, hlt⟩ := hw.earlyExt i t e x h he hx
  exact ⟨k, hk, hlt.trans_le hb⟩

section

variable (hU : Unopened s)
include hU

theorem installTable_marks {asFree : Bool} (hi : i < slotCount)
    (hslot : s.region i = if asFree then .free else .unusable) :
    Marks s ({ s with earlyTables := s.earlyTables + 1 }.install i (.early s.earlyTables) asFree)
      0 0 .free := by
  have hnot : ∀ t, s.region i ≠ .table t := by
    intro t h
    rw [hslot] at h
    cases asFree <;> simp at h
  have hw : Wf { s with earlyTables := s.earlyTables + 1 } :=
    hU.wf.moreEarly (Nat.le_succ _) le_rfl
  refine ⟨hw.install hi hU.newTable, fun f => ?_, ?_⟩
  · exact install_keeps (s := { s with earlyTables := s.earlyTables + 1 }) hU.newTable hslot f
  · have hkept := install_overwritten (s := { s with earlyTables := s.earlyTables + 1 })
      asFree (t := .early s.earlyTables) hnot
    rw [State.install] at hkept ⊢
    simp only at hkept ⊢
    rw [hkept]

/-- **`get_or_create_table` before the allocator is open** finds or makes a table and changes
no frame. -/
theorem getOrCreateTable_marks (hi : i < slotCount)
    (h : getOrCreateTable nested s i = some (.ok t, s')) :
    Marks s s' 0 0 .free ∧ s'.region i = .table t := by
  rw [getOrCreateTable, if_neg (by omega)] at h
  have hnew : ∀ asFree, s.region i = (if asFree then .free else .unusable) →
      createTable nested s i asFree = some (.ok t, s') → Marks s s' 0 0 .free ∧
      s'.region i = .table t := by
    intro asFree hslot h
    rw [createTable, maybeTopup_unopened hU.closed, Option.bind_some, topupEmpty_unopened hU.closed,
      Option.bind_some] at h
    simp only [checkSuccess, Bool.not_true, Bool.false_eq_true, if_false, State.newTable] at h
    split at h
    · obtain ⟨rfl, rfl⟩ := h
      exact ⟨installTable_marks hU hi hslot, by rw [install_region, if_pos rfl]⟩
    · rw [hU.tablePool] at h
      simp at h
  cases hslot : s.atpa i with
  | table t' hint =>
    rw [hslot] at h
    obtain ⟨rfl, rfl⟩ := h
    exact ⟨Marks.refl hU.wf 0 .free, by rw [State.region, hslot, Slot.region]⟩
  | hugeAlloc =>
    -- nothing has been allocated yet
    refine absurd ?_ (hU.idle (i * tableFrames))
    rw [decode, Nat.mul_div_cancel _ (by decide : 0 < tableFrames), State.region, hslot,
      Slot.region]
  | free =>
    rw [hslot] at h
    exact hnew true (by rw [State.region, hslot]; rfl) h
  | unusable =>
    rw [hslot] at h
    exact hnew false (by rw [State.region, hslot]; rfl) h

theorem Unopened.unusedExt : UnusedExt s (.early s.earlyExts) := by
  intro i t e h he hx
  obtain ⟨k, hk, hlt⟩ := hU.wf.earlyExt i t e _ h he hx
  rw [ExtRef.early.inj hk] at hlt
  omega

/-- The frames of a bitmap entry are all free: none has been allocated. -/
theorem Unopened.bitmap_free {k : Nat} {b : Bitmap} (hi : s.region i = .table t)
    (hj : j < tableEntries) (hb : s.tables t j = .bitmap b) (hk : k < entryFrames) :
    decodeEntry s.exts k (.bitmap b) = .free := by
  obtain ⟨h1, h2, h3⟩ := frameAt_slot (i := i) hj hk
  have hidle := hU.idle (frameAt i j k)
  rw [decode_table (by rw [h1, hi]), h2, h3, hb, decodeEntry] at hidle
  rw [decodeEntry]
  split
  · rename_i hbit
    rw [if_pos hbit] at hidle
    exact absurd rfl hidle
  · rfl

theorem newExt_marks {u : Bool}
    (hold : ∀ k < entryFrames,
      decodeEntry s.exts k (s.tables t j) = if u then .unusable else .free) :
    Marks s ({ s with earlyExts := s.earlyExts + 1 }.installExt t j (.early s.earlyExts) u) 0 0
      .free := by
  have hw : Wf { s with earlyExts := s.earlyExts + 1 } :=
    hU.wf.moreEarly le_rfl (Nat.le_succ _)
  refine ⟨hw.installExt hU.unusedExt (Nat.lt_succ_self _), fun f => ?_, rfl⟩
  exact installExt_keeps (s := { s with earlyExts := s.earlyExts + 1 }) hU.unusedExt hold f

/-- **`get_or_create_extentry` before the allocator is open** finds or makes an extended
entry and changes no frame. -/
theorem getOrCreateExtentry_marks (hi : s.region i = .table t) (hj : j < tableEntries)
    (h : getOrCreateExtentry nested s t j = some (.ok x, s')) :
    Marks s s' 0 0 .free ∧ s'.region i = .table t ∧ s'.tables t j = .ext x := by
  rw [getOrCreateExtentry, if_neg (by omega)] at h
  have hnew : ∀ u, (∀ k, k < entryFrames →
        decodeEntry s.exts k (s.tables t j) = if u then .unusable else .free) →
      createExt nested s t j u = some (.ok x, s') →
      Marks s s' 0 0 .free ∧ s'.region i = .table t ∧ s'.tables t j = .ext x := by
    intro u hold h
    rw [createExt, maybeTopup_unopened hU.closed, Option.bind_some, topupEmpty_unopened hU.closed,
      Option.bind_some] at h
    simp only [checkSuccess, Bool.not_true, Bool.false_eq_true, if_false, State.newExt] at h
    split at h
    · obtain ⟨rfl, rfl⟩ := h
      exact ⟨newExt_marks hU hold, hi, by rw [installExt_tables, if_pos ⟨rfl, rfl⟩]⟩
    · rw [hU.extPool] at h
      simp at h
  cases hent : s.tables t j with
  | ext x' =>
    rw [hent] at h
    obtain ⟨rfl, rfl⟩ := h
    exact ⟨Marks.refl hU.wf 0 .free, hi, hent⟩
  | unusable =>
    rw [hent] at h
    exact hnew true (fun k _ => by rw [hent]; rfl) h
  | bitmap b =>
    rw [hent] at h
    exact hnew false (fun k hk => by rw [hent]; exact hU.bitmap_free hi hj hent hk) h

end

/-- A failure is reported as one. -/
theorem getOrCreateTable_error (h : getOrCreateTable nested s i = some (.error st, s')) :
    checkSuccess st = false := by
  have hnew : ∀ asFree, createTable nested s i asFree = some (.error st, s') →
      checkSuccess st = false := by
    intro asFree h
    simp only [createTable, Option.bind_eq_some_iff, Prod.exists] at h
    obtain ⟨s1, -, st', s2, -, h⟩ := h
    split at h
    · rename_i hfail
      cases h
      simpa using hfail
    · simp only [State.newTable, Option.some.injEq] at h
      split at h
      · cases h
      · split at h <;> cases h
        rfl
  rw [getOrCreateTable] at h
  split at h
  · cases h
    rfl
  · split at h
    · cases h
    · cases h
    · exact hnew true h
    · exact hnew false h

theorem getOrCreateExtentry_error (h : getOrCreateExtentry nested s t j = some (.error st, s')) :
    checkSuccess st = false := by
  have hnew : ∀ u, createExt nested s t j u = some (.error st, s') → checkSuccess st = false := by
    intro u h
    simp only [createExt, Option.bind_eq_some_iff, Prod.exists] at h
    obtain ⟨s1, -, st', s2, -, h⟩ := h
    split at h
    · rename_i hfail
      cases h
      simpa using hfail
    · simp only [State.newExt, Option.some.injEq] at h
      split at h
      · cases h
      · split at h <;> cases h
        rfl
  rw [getOrCreateExtentry] at h
  split at h
  · cases h
    rfl
  · split at h
    · cases h
    · exact hnew true h
    · exact hnew false h

/-! ## The loops -/

/-- The loop over flags ends at the limit or at the end of the entry. -/
theorem markFrames_marks (limit : Nat) (hj : j < tableEntries) (n base : Nat) (s : State)
    (hw : Wf s)
    (hi : s.region i = .table t) (hx : s.tables t j = .ext x) (hlo : frameAt i j 0 ≤ base)
    (hhi : base ≤ frameAt i j entryFrames) (hlim : base ≤ limit + 1)
    (hn : frameAt i j entryFrames ≤ base + n) :
    ∃ s', markFrames m x j limit n base s = (min (limit + 1) (frameAt i j entryFrames), s') ∧
      Marks s s' base (min (limit + 1) (frameAt i j entryFrames)) m.flag ∧
      s'.region i = .table t := by
  induction n generalizing base s with
  | zero =>
    have hend : min (limit + 1) (frameAt i j entryFrames) = base := by omega
    exact ⟨s, by rw [markFrames, hend], hend ▸ Marks.refl hw _ _, hi⟩
  | succ n ih =>
    rw [markFrames]
    by_cases hin : base ≤ limit ∧ base < frameAt i j entryFrames
    · -- one more flag
      obtain ⟨h1, h2, hk⟩ : base / tableFrames = i ∧ base % tableFrames / entryFrames = j ∧
          frameAt i j (base % entryFrames) = base := by
        simp only [frameAt, tableFrames, entryFrames, tableEntries] at *
        omega
      have hlt := Nat.mod_lt base (by decide : 0 < entryFrames)
      rw [if_pos ⟨hin.1, h2⟩]
      have hone : Marks s (s.setFlags x (base % entryFrames) 1 m.flag) base (base + 1) m.flag := by
        have := (setFlags_changes (v := m.flag) hw hi hj (n := 1) (k := base % entryFrames)
          (by omega) hx).marks
        rwa [hk] at this
      obtain ⟨s', heq, hmarks, hi'⟩ :=
        ih (base + 1) _ hone.wf hi hx (by omega) (by omega) (by omega) (by omega)
      exact ⟨s', heq, hone.trans hmarks (by omega) (by omega), hi'⟩
    · have hend : min (limit + 1) (frameAt i j entryFrames) = base := by omega
      have hstop : ¬(base ≤ limit ∧ base % tableFrames / entryFrames = j) := by
        simp only [frameAt, tableFrames, entryFrames, tableEntries] at *
        omega
      rw [if_neg hstop]
      exact ⟨s, by rw [hend], hend ▸ Marks.refl hw _ _, hi⟩

/-- The loop over entries ends at the limit or at the end of the slot. -/
theorem markEntries_marks (n base base' : Nat) (s s' : State) (st : StStatus) (hU : Unopened s)
    (hi : s.region i = .table t) (hlo : i * tableFrames ≤ base) (hhi : base ≤ (i + 1) * tableFrames)
    (hlim : base ≤ limit + 1)
    (hn : limit < base ∨ (i + 1) * tableFrames ≤ base / entryFrames * entryFrames + n * entryFrames)
    (h : markEntries m t i limit n base s = some (st, base', s')) (hst : checkSuccess st = true) :
    base' = min (limit + 1) ((i + 1) * tableFrames) ∧
      Marks s s' base (min (limit + 1) ((i + 1) * tableFrames)) m.flag := by
  induction n generalizing base base' s s' st with
  | zero =>
    have hend : min (limit + 1) ((i + 1) * tableFrames) = base := by
      simp only [tableFrames, entryFrames] at *
      omega
    obtain ⟨-, rfl, rfl⟩ := h
    exact ⟨hend.symm, hend ▸ Marks.refl hU.wf _ _⟩
  | succ n ih =>
    rw [markEntries] at h
    by_cases hin : base ≤ limit ∧ base / tableFrames = i
    · rw [if_pos hin] at h
      have hj := entry_lt base
      set j := base % tableFrames / entryFrames with hjdef
      have hbase : frameAt i j 0 ≤ base ∧ base < frameAt i j entryFrames ∧
          frameAt i j entryFrames ≤ (i + 1) * tableFrames ∧
          (base % entryFrames = 0 → base = frameAt i j 0) := by
        simp only [frameAt, tableFrames, entryFrames] at *
        omega
      have hnext : frameAt i j entryFrames / entryFrames * entryFrames = frameAt i j entryFrames ∧
          frameAt i j entryFrames = base / entryFrames * entryFrames + entryFrames := by
        simp only [frameAt, tableFrames, entryFrames] at *
        omega
      have hn' : (n + 1) * entryFrames = n * entryFrames + entryFrames := Nat.succ_mul _ _
      by_cases hwhole : base % entryFrames = 0 ∧ limit ≥ base + entryFrames - 1
      · -- a whole entry
        rw [if_pos hwhole] at h
        have hone := setEntry_marks hU.wf hi hj m
        rw [← hbase.2.2.2 hwhole.1] at hone
        have hstep : base + entryFrames = frameAt i j entryFrames := by
          rw [hbase.2.2.2 hwhole.1]
          simp [frameAt]
        rw [hstep] at h
        have hE : frameAt i j entryFrames ≤ limit + 1 := by
          omega
        obtain ⟨hb', hmarks⟩ :=
          ih _ _ _ _ _ (hone.unopened m.flag_ne_used hU) hi (by omega) hbase.2.2.1 hE
          (by omega) h hst
        exact ⟨hb', hone.trans hmarks (by omega) (by omega)⟩
      · -- the flags of an extended entry
        rw [if_neg hwhole] at h
        rw [Option.bind_eq_some_iff] at h
        obtain ⟨⟨r, s1⟩, hext, h⟩ := h
        cases r with
        | error st' =>
          cases h
          rw [getOrCreateExtentry_error hext] at hst
          cases hst
        | ok x =>
          obtain ⟨hmade, hi1, hx⟩ := getOrCreateExtentry_marks hU hi hj hext
          have hU1 := hmade.unopened (by simp) hU
          obtain ⟨s2, heq, hflags, hi2⟩ := markFrames_marks limit (m := m) hj entryFrames base s1
            hU1.wf hi1 hx hbase.1 (by omega) (by omega) (by
              have : frameAt i j entryFrames = frameAt i j 0 + entryFrames := by simp [frameAt]
              omega)
          simp only [heq] at h
          have hU2 := hflags.unopened m.flag_ne_used hU1
          obtain ⟨hb', hmarks⟩ := ih _ _ _ _ _ hU2 hi2 (by omega) (by omega) (by omega) (by
            rcases Nat.le_total (limit + 1) (frameAt i j entryFrames) with hle | hle
            · omega
            · rw [min_eq_right hle]
              omega) h hst
          exact ⟨hb', hmade.after (hflags.trans hmarks (by omega) (by omega))⟩
    · rw [if_neg hin] at h
      have hend : min (limit + 1) ((i + 1) * tableFrames) = base := by
        simp only [tableFrames] at *
        omega
      obtain ⟨-, rfl, rfl⟩ := h
      exact ⟨hend.symm, hend ▸ Marks.refl hU.wf _ _⟩

/-- The loop over slots ends at the limit or at the end of the pointer array. -/
theorem markSlots_marks (n base : Nat) (s s' : State) (st : StStatus) (hU : Unopened s)
    (hlim : base ≤ limit + 1)
    (hn : limit < base ∨ frameLimit ≤ base / tableFrames * tableFrames + n * tableFrames)
    (h : markSlots m limit n base s = some (st, s')) (hst : checkSuccess st = true) :
    ∃ hi, Marks s s' base hi m.flag ∧ base ≤ hi ∧
    (hi = limit + 1 ∨ frameLimit ≤ hi ∧ hi ≤ limit + 1) := by
  induction n generalizing base s s' st with
  | zero =>
    obtain ⟨-, rfl⟩ := h
    refine ⟨base, Marks.refl hU.wf _ _, le_rfl, ?_⟩
    simp only [tableFrames] at hn
    omega
  | succ n ih =>
    rw [markSlots] at h
    by_cases hin : base ≤ limit ∧ base < frameLimit
    · rw [if_pos hin] at h
      have hn' : (n + 1) * tableFrames = n * tableFrames + tableFrames := Nat.succ_mul _ _
      set i := base / tableFrames with hidef
      have hi : i < slotCount := by
        simp only [slotCount, frameLimit, tableFrames] at *
        omega
      have hbase : i * tableFrames ≤ base ∧ base < (i + 1) * tableFrames ∧
          (base % tableFrames = 0 → base = i * tableFrames) := by
        simp only [tableFrames] at *
        omega
      have hnext :
          (i + 1) * tableFrames / tableFrames * tableFrames = i * tableFrames + tableFrames := by
        rw [Nat.mul_div_cancel _ (by decide : 0 < tableFrames), Nat.succ_mul]
      by_cases hwhole : base % tableFrames = 0 ∧ limit ≥ base + tableFrames - 1
      · -- a whole slot
        rw [if_pos hwhole] at h
        have hone := setSlot_marks hU.wf hi m
        rw [← hbase.2.2 hwhole.1] at hone
        have hstep : base + tableFrames = (i + 1) * tableFrames := by
          rw [Nat.succ_mul, ← hbase.2.2 hwhole.1]
        rw [hstep] at h
        obtain ⟨hi', hmarks, hle, hend⟩ :=
          ih _ _ _ _ (hone.unopened m.flag_ne_used hU) (by omega) (by omega) h hst
        exact ⟨hi', hone.trans hmarks (by omega) hle, by omega, hend⟩
      · -- entries of a table
        rw [if_neg hwhole, Option.bind_eq_some_iff] at h
        obtain ⟨⟨r, s1⟩, htable, h⟩ := h
        cases r with
        | error st' =>
          cases h
          rw [getOrCreateTable_error htable] at hst
          cases hst
        | ok t =>
          obtain ⟨hmade, hi1⟩ := getOrCreateTable_marks hU hi htable
          have hU1 := hmade.unopened (by simp) hU
          simp only [Option.bind_eq_some_iff, Prod.exists] at h
          obtain ⟨st', base2, s2, hents, h⟩ := h
          split at h
          · rename_i hfail
            cases h
            simp [hst] at hfail
          · rename_i hok
            obtain ⟨rfl, hmarks⟩ := markEntries_marks tableEntries base _ s1 s2 st' hU1 hi1 hbase.1
              (by omega) (by omega)
                (by simp only [tableFrames, entryFrames, tableEntries] at *; omega)
              hents (by simpa using hok)
            obtain ⟨hi', hmarks', hle, hend⟩ :=
              ih _ _ _ _ (hmarks.unopened m.flag_ne_used hU1) (by omega) (by
              rcases Nat.le_total (limit + 1) ((i + 1) * tableFrames) with hle | hle
              · omega
              · rw [min_eq_right hle]
                omega) h hst
            exact ⟨hi', hmade.after (hmarks.trans hmarks' (by omega) hle), by omega, hend⟩
    · rw [if_neg hin] at h
      obtain ⟨-, rfl⟩ := h
      exact ⟨base, Marks.refl hU.wf _ _, le_rfl, by omega⟩

/-! ## Sequences of calls -/

/-- One call; a frame number is a 64-bit value. -/
structure MarkCall where
  marking : Marking
  base : UInt64
  limit : UInt64

/-- The inclusive range of a call. -/
def MarkCall.Covers (c : MarkCall) (f : Nat) : Prop := c.base.toNat ≤ f ∧ f ≤ c.limit.toNat

instance (c : MarkCall) (f : Nat) : Decidable (c.Covers f) := inferInstanceAs (Decidable (_ ∧ _))

/-- The state after a sequence of calls, if all of them return `STATUS_SUCCESS`. -/
def markAll : List MarkCall → State → Option State
  | [], s => some s
  | c :: cs, s =>
    (markContiguousFrame c.marking s c.base.toNat c.limit.toNat).bind fun (st, s) =>
      if st = .success then markAll cs s else none

/-- What the last call that covers a frame made of it; `v` if there is none. -/
def lastMark (v : Flag) (calls : List MarkCall) (f : Nat) : Flag :=
  match calls.reverse.find? fun c => c.Covers f with
  | some c => c.marking.flag
  | none => v

theorem lastMark_cons (v : Flag) (c : MarkCall) (cs : List MarkCall) (f : Nat) :
    lastMark v (c :: cs) f = lastMark (if c.Covers f then c.marking.flag else v) cs f := by
  simp only [lastMark, List.reverse_cons, List.find?_append]
  cases cs.reverse.find? fun c => c.Covers f with
  | some c' => rfl
  | none =>
    by_cases hc : c.Covers f
    · simp [hc]
    · simp [hc]

theorem initialState_unopened : Unopened initialState :=
  ⟨⟨fun _ _ => rfl, fun _ _ _ h => by simp [State.region, initialState, Slot.region] at h,
    fun _ _ _ _ _ _ _ h => by simp [State.region, initialState, Slot.region] at h,
    fun _ _ _ _ h => by simp [State.region, initialState, Slot.region] at h,
    fun _ _ h => by simp [State.region, initialState, Slot.region] at h,
    fun _ _ h => by simp [State.region, initialState, Slot.region] at h,
    fun _ _ _ _ h => by simp [State.region, initialState, Slot.region] at h,
    List.nodup_nil, fun _ h => absurd h List.not_mem_nil, fun _ h => absurd h List.not_mem_nil⟩,
    rfl, fun f => by simp [decode, State.region, initialState, Slot.region], rfl, rfl, rfl, rfl⟩

/-- One call gives its range its state, as far as there are frames. -/
theorem markContiguousFrame_marks {base : Nat} (hU : Unopened s)
    (h : markContiguousFrame m s base limit = some (st, s')) (hst : checkSuccess st = true) :
    Unopened s' ∧ ∀ f, f < frameLimit →
      decode s' f = if base ≤ f ∧ f ≤ limit then m.flag else decode s f := by
  rw [markContiguousFrame] at h
  split at h
  · cases h
    simp [checkSuccess] at hst
  · by_cases hlim : base ≤ limit + 1
    · obtain ⟨hi, hmarks, hle, hend⟩ := markSlots_marks slotCount base s s' st hU hlim
        (Or.inr (by simp only [frameLimit, slotCount, tableFrames]; omega)) h hst
      refine ⟨hmarks.unopened m.flag_ne_used hU, fun f hf => ?_⟩
      rw [hmarks.decode]
      simp only [show base ≤ f ∧ f < hi ↔ base ≤ f ∧ f ≤ limit by omega]
    · -- an empty range
      rw [show slotCount = 4095 + 1 from rfl, markSlots, if_neg (by omega)] at h
      obtain ⟨-, rfl⟩ := h
      exact ⟨hU, fun f _ => by rw [if_neg (by omega)]⟩

theorem markAll_marks (calls : List MarkCall) :
    ∀ s s', Unopened s → markAll calls s = some s' →
      Unopened s' ∧ ∀ f < frameLimit, decode s' f = lastMark (decode s f) calls f := by
  induction calls with
  | nil =>
    intro s s' hU h
    cases h
    exact ⟨hU, fun f _ => rfl⟩
  | cons c cs ih =>
    intro s s' hU h
    simp only [markAll, Option.bind_eq_some_iff, Prod.exists] at h
    obtain ⟨st, s1, hcall, h⟩ := h
    split at h
    · rename_i hst
      subst hst
      obtain ⟨hU1, hdec1⟩ := markContiguousFrame_marks hU hcall rfl
      obtain ⟨hU', hdec'⟩ := ih s1 s' hU1 h
      refine ⟨hU', fun f hf => ?_⟩
      rw [hdec' f hf, hdec1 f hf, lastMark_cons]
      rfl
    · simp at h

/-- **The last call that covers a frame decides its state**, and a frame no call covers is
unusable. -/
theorem markAll_decode (calls : List MarkCall) (s : State)
    (h : markAll calls initialState = some s) :
    ∀ f, f < 4096 * 512 * 32 → decode s f = lastMark .unusable calls f :=
  fun f hf => (markAll_marks calls _ s initialState_unopened h).2 f hf

theorem markAll_decode_overlap :
    ∃ s, markAll [⟨.usable, 0, 16400⟩, ⟨.unusable, 3, 40⟩, ⟨.usable, 10, 12⟩] initialState =
      some s ∧
      decode s 11 = .free ∧ decode s 20 = .unusable ∧ decode s 16390 = .free := by
  have hsome : (markAll [⟨.usable, 0, 16400⟩, ⟨.unusable, 3, 40⟩, ⟨.usable, 10, 12⟩]
      initialState).isSome = true := by decide +kernel
  obtain ⟨s, hs⟩ := Option.isSome_iff_exists.mp hsome
  exact ⟨s, hs, markAll_decode _ s hs 11 (by decide), markAll_decode _ s hs 20 (by decide),
    markAll_decode _ s hs 16390 (by decide)⟩

/-! ## Boot -/

/-- The frames taken for the page tables of the metadata area, before there is metadata. -/
def allocatePageTables : Nat → State → Option State
  | 0, s => some s
  | n + 1, s => (stPmmAllocateContiguousFrame s ⟨1, none, afDefault⟩).bind fun (_, _, s) =>
    allocatePageTables n s

/-- Boot with the given usable ranges, where mapping the metadata area takes `n` frames for page
tables. -/
def boot (n : Nat) (ranges : List (UInt64 × UInt64)) : Option State :=
  (markAll (ranges.map fun (base, limit) => ⟨.usable, base, limit⟩) initialState).bind fun s =>
    (lateInitMark s).bind fun (st, s) =>
      if st = .success then (allocatePageTables n s).bind lateInitSeed else none

end FoliOS.Strata.Pmm
