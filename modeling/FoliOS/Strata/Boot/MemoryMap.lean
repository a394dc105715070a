import FoliOS.Strata.Pmm.Marking

/-!
# Strata — marking the boot memory map (`arch/amd64/pc/init.c`)

`_pc_init` marks the free entries of the firmware's map first, then takes away the
other entries, the frames the loader uses and the trampoline. Free ranges are rounded
inward, the others outward; the inclusive limit of an entry that ends in the first
page, the rounded base of one that starts in the last, and the range of an empty entry
go astray (`MemoryMapEntry.StrayFree`, `MemoryMapEntry.StrayTaken`).

`pcInitMark_free_iff`: the free frames are the right ones exactly when every frame
such an entry reaches is decided by another one.
-/

namespace FoliOS.Strata.Boot

open Pmm

variable {s s' : State} {c : MarkCall} {E : Type}

/-! ## The marking phase -/

/-- `BEMT_FREE` -/
def bemtFree : UInt32 := 1

/-- `BEUT_PAGETABLE` -/
def beutPagetable : UInt32 := 0

/-- `struct StLoad_BootInfoMemoryMapEntry` -/
structure MemoryMapEntry where
  base : UInt64
  size : UInt64
  type : UInt32

/-- `struct StLoad_BootInfoUnavailableFrameEntry` -/
structure UnavailableFrameEntry where
  pfnBase : UInt64
  count : UInt32
  type : UInt32

/-- `STRATA_TRAMPOLINE_LOAD_ADDR_BASE` -/
def trampolineLoad : UInt64 := 0x100000

/-- `ALIGN(v, PAGE_SIZE)` -/
def alignPage (v : UInt64) : UInt64 := v + 4095 &&& ~~~4095

/-- `ADDR_TO_PAGE` -/
def addrToPage (v : UInt64) : UInt64 := v / 4096

/-- A marking call whose failure ends in `St_Panic`. -/
def markOrPanic (s : State) (c : MarkCall) : Option State :=
  (markContiguousFrame c.marking s c.base.toNat c.limit.toNat).bind fun (st, s) =>
    if !checkSuccess st then none else some s

def usableCall (e : MemoryMapEntry) : MarkCall :=
  ⟨.usable, addrToPage (alignPage e.base), addrToPage (e.base + e.size) - 1⟩

def unusableCall (e : MemoryMapEntry) : MarkCall :=
  ⟨.unusable, addrToPage e.base, addrToPage (alignPage (e.base + e.size)) - 1⟩

def unavailableCall (u : UnavailableFrameEntry) : MarkCall :=
  ⟨.unusable, u.pfnBase, u.pfnBase + u.count.toUInt64 - 1⟩

/-- The trampoline stores its size with a 32-bit move. -/
def trampolineCall (size : UInt32) : MarkCall :=
  ⟨.unusable, addrToPage trampolineLoad,
    addrToPage (alignPage (trampolineLoad + size.toUInt64)) - 1⟩

/-- The first loop: usable frames. -/
def markUsable (s : State) (e : MemoryMapEntry) : Option State :=
  if e.type ≠ bemtFree then some s else markOrPanic s (usableCall e)

/-- The second loop: the other entries. -/
def markUnusable (s : State) (e : MemoryMapEntry) : Option State :=
  if e.type = bemtFree then some s else markOrPanic s (unusableCall e)

/-- The third loop: the loader's frames, but not its page tables. -/
def markUnavailable (s : State) (u : UnavailableFrameEntry) : Option State :=
  if u.type = beutPagetable then some s else markOrPanic s (unavailableCall u)

/-- The marking phase of `_pc_init`; `none` is a panic. -/
def pcInitMark (mm : List MemoryMapEntry) (uf : List UnavailableFrameEntry) (size : UInt32) :
    Option State :=
  (mm.foldlM markUsable initialState).bind fun s =>
  (mm.foldlM markUnusable s).bind fun s =>
  (uf.foldlM markUnavailable s).bind fun s =>
  markOrPanic s (trampolineCall size)

/-! ## What it is for -/

/-- Frame `f` lies in the entry as a whole. -/
def MemoryMapEntry.Holds (e : MemoryMapEntry) (f : Nat) : Prop :=
  e.base.toNat ≤ f * pageSize ∧ (f + 1) * pageSize ≤ e.base.toNat + e.size.toNat

/-- Some byte of the entry lies in frame `f`. -/
def MemoryMapEntry.Touches (e : MemoryMapEntry) (f : Nat) : Prop :=
  e.size ≠ 0 ∧ e.base.toNat < (f + 1) * pageSize ∧ f * pageSize < e.base.toNat + e.size.toNat

def UnavailableFrameEntry.Covers (u : UnavailableFrameEntry) (f : Nat) : Prop :=
  u.pfnBase.toNat ≤ f ∧ f < u.pfnBase.toNat + u.count.toNat

/-- The frames of the trampoline. -/
def TrampolineFrame (size : UInt32) (f : Nat) : Prop :=
  trampolineLoad.toNat / pageSize ≤ f ∧ f * pageSize < trampolineLoad.toNat + size.toNat

instance (e : MemoryMapEntry) (f : Nat) : Decidable (e.Holds f) :=
  inferInstanceAs (Decidable (_ ∧ _))

instance (e : MemoryMapEntry) (f : Nat) : Decidable (e.Touches f) :=
  inferInstanceAs (Decidable (_ ∧ _))

instance (u : UnavailableFrameEntry) (f : Nat) : Decidable (u.Covers f) :=
  inferInstanceAs (Decidable (_ ∧ _))

instance (size : UInt32) (f : Nat) : Decidable (TrampolineFrame size f) :=
  inferInstanceAs (Decidable (_ ∧ _))

section

variable (mm : List MemoryMapEntry) (uf : List UnavailableFrameEntry) (size : UInt32)

/-- A free entry holds the frame. -/
def Offered (f : Nat) : Prop := ∃ e ∈ mm, e.type = bemtFree ∧ e.Holds f

/-- Another entry, the loader or the trampoline has some of the frame. -/
def Taken (f : Nat) : Prop :=
  (∃ e ∈ mm, e.type ≠ bemtFree ∧ e.Touches f) ∨
  (∃ u ∈ uf, u.type ≠ beutPagetable ∧ u.Covers f) ∨ TrampolineFrame size f

instance (f : Nat) : Decidable (Offered mm f) := inferInstanceAs (Decidable (∃ e ∈ mm, _))

instance (f : Nat) : Decidable (Taken mm uf size f) := inferInstanceAs (Decidable (_ ∨ _))

/-- A free entry that ends in the first page, where the inclusive limit wraps, or begins in
the last one, where the rounded base does: the frames marked usable all the same. -/
def MemoryMapEntry.StrayFree (e : MemoryMapEntry) (f : Nat) : Prop :=
  (e.base.toNat + e.size.toNat < pageSize ∧ (e.base = 0 ∨ f ≠ 0)) ∨
    2 ^ 64 - pageSize < e.base.toNat

/-- An empty entry that is not free, at address 0 or inside a page: the frames marked
unusable all the same. -/
def MemoryMapEntry.StrayTaken (e : MemoryMapEntry) (f : Nat) : Prop :=
  e.size = 0 ∧ (e.base = 0 ∨ (e.base.toNat % pageSize ≠ 0 ∧ f = e.base.toNat / pageSize))

/-- Every frame an entry reaches by going astray is decided by other entries. -/
structure Undisturbed : Prop where
  free  : ∀ f, f < frameLimit → ∀ e ∈ mm, e.type = bemtFree → e.StrayFree f →
            Offered mm f ∨ Taken mm uf size f ∨ ∃ e' ∈ mm, e'.type ≠ bemtFree ∧ e'.StrayTaken f
  taken : ∀ f, f < frameLimit → ∀ e ∈ mm, e.type ≠ bemtFree → e.StrayTaken f →
            Offered mm f → Taken mm uf size f

end

/-! ## Addresses and pages -/

theorem alignPage_toNat (v : UInt64) :
    (alignPage v).toNat = (v.toNat + 4095) % 2 ^ 64 / 4096 * 4096 := by
  have hlt : (v.toNat + 4095) % 2 ^ 64 < 2 ^ 64 := Nat.mod_lt _ (by decide)
  have hmask := and_high_mask (w := 64) (k := 12) (by decide) hlt
  exact hmask

theorem addrToPage_toNat (v : UInt64) : (addrToPage v).toNat = v.toNat / 4096 :=
  UInt64.toNat_div v 4096

theorem pred_toNat (v : UInt64) : (v - 1).toNat = (v.toNat + (2 ^ 64 - 1)) % 2 ^ 64 := by
  rw [UInt64.toNat_sub, Nat.add_comm]
  rfl

theorem eq_zero_iff (v : UInt64) : v = 0 ↔ v.toNat = 0 := by
  rw [← UInt64.toNat_inj]
  rfl

variable {f : Nat}

variable {e : MemoryMapEntry}

/-- The frames a free entry marks. -/
theorem usableCall_covers (he : e.base.toNat + e.size.toNat < 2 ^ 64) (hf : f < frameLimit) :
    (usableCall e).Covers f ↔ e.Holds f ∨ e.StrayFree f := by
  simp only [MarkCall.Covers, usableCall, addrToPage_toNat, alignPage_toNat, pred_toNat,
    UInt64.toNat_add, MemoryMapEntry.Holds, MemoryMapEntry.StrayFree, pageSize, frameLimit,
    eq_zero_iff] at *
  omega

/-- The frames another entry takes away. -/
theorem unusableCall_covers (he : e.base.toNat + e.size.toNat < 2 ^ 64) (hf : f < frameLimit) :
    (unusableCall e).Covers f ↔ e.Touches f ∨ e.StrayTaken f := by
  simp only [MarkCall.Covers, unusableCall, addrToPage_toNat, alignPage_toNat, pred_toNat,
    UInt64.toNat_add, MemoryMapEntry.Touches, MemoryMapEntry.StrayTaken, pageSize, frameLimit,
    ne_eq, eq_zero_iff] at *
  omega

theorem unavailableCall_covers {u : UnavailableFrameEntry} (hu : u.count ≠ 0)
    (hf : f < frameLimit) : (unavailableCall u).Covers f ↔ u.Covers f := by
  have hcount : u.count.toNat ≠ 0 := fun h => hu (UInt32.toNat_inj.mp h)
  have hlt := u.count.toNat_lt
  simp only [MarkCall.Covers, unavailableCall, pred_toNat, UInt64.toNat_add, UInt32.toNat_toUInt64,
    UnavailableFrameEntry.Covers, frameLimit] at *
  omega

theorem trampolineCall_covers (size : UInt32) (f : Nat) :
    (trampolineCall size).Covers f ↔ TrampolineFrame size f := by
  have hlt := size.toNat_lt
  have hload : trampolineLoad.toNat = 0x100000 := rfl
  simp only [MarkCall.Covers, trampolineCall, addrToPage_toNat, alignPage_toNat, pred_toNat,
    UInt64.toNat_add, UInt32.toNat_toUInt64, TrampolineFrame, pageSize, hload]
  omega

/-! ## The passes -/

theorem markOrPanic_marks (hU : Unopened s) (h : markOrPanic s c = some s') :
    Unopened s' ∧ ∀ f, f < frameLimit →
      decode s' f = if c.Covers f then c.marking.flag else decode s f := by
  simp only [markOrPanic, Option.bind_eq_some_iff, Prod.exists] at h
  obtain ⟨st, s1, hcall, h⟩ := h
  split at h
  · simp at h
  · rename_i hst
    cases h
    exact markContiguousFrame_marks hU hcall (by simpa using hst)

/-- A loop over entries that marks the frames `P` of each. -/
theorem pass_marks {step : State → E → Option State} {P : E → Nat → Prop} {v : Flag}
    (hstep : ∀ s e s', Unopened s → step s e = some s' → Unopened s' ∧ ∀ f < frameLimit,
      (P e f → decode s' f = v) ∧ (¬P e f → decode s' f = decode s f))
    (l : List E) :
    ∀ s s', Unopened s → l.foldlM step s = some s' → Unopened s' ∧ ∀ f, f < frameLimit →
      ((∃ e ∈ l, P e f) → decode s' f = v) ∧ ((¬∃ e ∈ l, P e f) → decode s' f = decode s f) := by
  induction l with
  | nil =>
    intro s s' hU h
    cases h
    exact ⟨hU, fun f _ => ⟨fun ⟨e, he, _⟩ => absurd he List.not_mem_nil, fun _ => rfl⟩⟩
  | cons e l ih =>
    intro s s' hU h
    simp only [List.foldlM_cons, Option.bind_eq_bind, Option.bind_eq_some_iff] at h
    obtain ⟨s1, hone, h⟩ := h
    obtain ⟨hU1, hdec1⟩ := hstep s e s1 hU hone
    obtain ⟨hU', hdec'⟩ := ih s1 s' hU1 h
    refine ⟨hU', fun f hf => ⟨fun hin => ?_, fun hout => ?_⟩⟩
    · by_cases hl : ∃ e' ∈ l, P e' f
      · exact (hdec' f hf).1 hl
      · obtain ⟨e', hmem, hP⟩ := hin
        rcases List.mem_cons.mp hmem with rfl | hmem
        · rw [(hdec' f hf).2 hl, (hdec1 f hf).1 hP]
        · exact absurd ⟨e', hmem, hP⟩ hl
    · have hl : ¬∃ e' ∈ l, P e' f :=
        fun ⟨e', hmem, hP⟩ => hout ⟨e', List.mem_cons_of_mem _ hmem, hP⟩
      rw [(hdec' f hf).2 hl, (hdec1 f hf).2 fun hP => hout ⟨e, List.mem_cons_self, hP⟩]

/-- A round of one of the loops, with the entries `Q` it leaves out. -/
theorem round_marks {Q : Prop} [Decidable Q] (hU : Unopened s)
    (h : (if Q then some s else markOrPanic s c) = some s') :
    Unopened s' ∧ ∀ f, f < frameLimit →
      ((¬Q ∧ c.Covers f) → decode s' f = c.marking.flag) ∧
      (¬(¬Q ∧ c.Covers f) → decode s' f = decode s f) := by
  split at h
  · rename_i hQ
    cases h
    exact ⟨hU, fun f _ => ⟨fun hP => absurd hQ hP.1, fun _ => rfl⟩⟩
  · rename_i hQ
    obtain ⟨hU', hdec⟩ := markOrPanic_marks hU h
    refine ⟨hU', fun f hf => ⟨fun hP => ?_, fun hP => ?_⟩⟩
    · rw [hdec f hf, if_pos hP.2]
    · rw [hdec f hf, if_neg fun hc => hP ⟨hQ, hc⟩]

variable {mm : List MemoryMapEntry}

/-- What the three loops and the last call leave free. -/
theorem pcInitMark_decode {uf : List UnavailableFrameEntry} {size : UInt32}
    (h : pcInitMark mm uf size = some s) (hf : f < frameLimit) :
    decode s f = .free ↔
      (∃ e ∈ mm, e.type = bemtFree ∧ (usableCall e).Covers f) ∧
      (¬∃ e ∈ mm, e.type ≠ bemtFree ∧ (unusableCall e).Covers f) ∧
      (¬∃ u ∈ uf, u.type ≠ beutPagetable ∧ (unavailableCall u).Covers f) ∧
      ¬(trampolineCall size).Covers f := by
  simp only [pcInitMark, Option.bind_eq_some_iff] at h
  obtain ⟨s1, hfree, s2, htaken, s3, hframes, htramp⟩ := h
  obtain ⟨hU1, hdec1⟩ := pass_marks (v := .free)
    (fun _ _ _ hU h => round_marks hU h) mm _ _ initialState_unopened hfree
  obtain ⟨hU2, hdec2⟩ := pass_marks (v := .unusable)
    (fun _ _ _ hU h => round_marks hU h) mm _ _ hU1 htaken
  obtain ⟨hU3, hdec3⟩ := pass_marks (v := .unusable)
    (fun _ _ _ hU h => round_marks hU h) uf _ _ hU2 hframes
  obtain ⟨-, hdec⟩ := markOrPanic_marks hU3 htramp
  have hinit : decode initialState f ≠ .free := by
    simp [decode, State.region, initialState, Slot.region]
  simp only [ne_eq, not_not] at hdec1
  rw [hdec f hf]
  -- the last pass that reaches the frame decides
  by_cases h4 : (trampolineCall size).Covers f
  · rw [if_pos h4]
    exact ⟨fun h => by simp [trampolineCall, Marking.flag] at h, fun h => absurd h4 h.2.2.2⟩
  rw [if_neg h4]
  by_cases h3 : ∃ u ∈ uf, u.type ≠ beutPagetable ∧ (unavailableCall u).Covers f
  · rw [(hdec3 f hf).1 h3]
    simp [h3]
  rw [(hdec3 f hf).2 h3]
  by_cases h2 : ∃ e ∈ mm, e.type ≠ bemtFree ∧ (unusableCall e).Covers f
  · rw [(hdec2 f hf).1 h2]
    simp [h2]
  rw [(hdec2 f hf).2 h2]
  by_cases h1 : ∃ e ∈ mm, e.type = bemtFree ∧ (usableCall e).Covers f
  · rw [(hdec1 f hf).1 h1]
    exact ⟨fun _ => ⟨h1, h2, h3, h4⟩, fun _ => rfl⟩
  · rw [(hdec1 f hf).2 h1]
    exact ⟨fun h => absurd h hinit, fun h => absurd h.1 h1⟩

theorem exists_mem_split {l : List E} {Q A B C : E → Prop} (h : ∀ e ∈ l, (C e ↔ A e ∨ B e)) :
    (∃ e ∈ l, Q e ∧ C e) ↔ (∃ e ∈ l, Q e ∧ A e) ∨ ∃ e ∈ l, Q e ∧ B e := by
  constructor
  · rintro ⟨e, he, hQ, hC⟩
    exact ((h e he).mp hC).imp (⟨e, he, hQ, ·⟩) (⟨e, he, hQ, ·⟩)
  · rintro (⟨e, he, hQ, hA⟩ | ⟨e, he, hQ, hB⟩)
    · exact ⟨e, he, hQ, (h e he).mpr (.inl hA)⟩
    · exact ⟨e, he, hQ, (h e he).mpr (.inr hB)⟩

/-- **Which memory maps are marked as they read.** When the marking phase completes, the free
frames are those a free entry holds and nothing takes, exactly if the entries whose
ranges go astray disturb no frame. -/
theorem pcInitMark_free_iff (mm : List MemoryMapEntry) (uf : List UnavailableFrameEntry)
    (size : UInt32)
    (s : State) (hmm : ∀ e ∈ mm, e.base.toNat + e.size.toNat < 2 ^ 64) (huf : ∀ u ∈ uf, u.count ≠ 0)
    (h : pcInitMark mm uf size = some s) :
    (∀ f, f < frameLimit → (decode s f = .free ↔ Offered mm f ∧ ¬Taken mm uf size f)) ↔
      Undisturbed mm uf size := by
  have hdec : ∀ f, f < frameLimit → (decode s f = .free ↔
      (Offered mm f ∨ ∃ e ∈ mm, e.type = bemtFree ∧ e.StrayFree f) ∧ ¬Taken mm uf size f ∧
        ¬∃ e ∈ mm, e.type ≠ bemtFree ∧ e.StrayTaken f) := by
    intro f hf
    have h1 := exists_mem_split (l := mm) (Q := (·.type = bemtFree)) fun e he =>
      usableCall_covers (hmm e he) hf
    have h2 := exists_mem_split (l := mm) (Q := (·.type ≠ bemtFree)) fun e he =>
      unusableCall_covers (hmm e he) hf
    have h3 : (∃ u ∈ uf, u.type ≠ beutPagetable ∧ (unavailableCall u).Covers f) ↔
        ∃ u ∈ uf, u.type ≠ beutPagetable ∧ u.Covers f :=
      exists_congr fun u => and_congr_right fun hu =>
        and_congr_right fun _ => unavailableCall_covers (huf u hu) hf
    rw [pcInitMark_decode h hf, h1, h2, h3, trampolineCall_covers, Taken]
    simp only [not_or]
    exact ⟨fun ⟨ha, ⟨hb, hc⟩, hd, he⟩ => ⟨ha, ⟨hb, hd, he⟩, hc⟩,
      fun ⟨ha, ⟨hb, hd, he⟩, hc⟩ => ⟨ha, ⟨hb, hc⟩, hd, he⟩⟩
  constructor
  · intro hall
    refine ⟨fun f hf e he ht hs => ?_, fun f hf e he ht hs hoff => ?_⟩
    · by_contra hne
      simp only [not_or] at hne
      obtain ⟨hoff, htaken, hstray⟩ := hne
      have hfree := (hdec f hf).mpr ⟨.inr ⟨e, he, ht, hs⟩, htaken, hstray⟩
      exact hoff ((hall f hf).mp hfree).1
    · by_contra htaken
      exact ((hdec f hf).mp ((hall f hf).mpr ⟨hoff, htaken⟩)).2.2 ⟨e, he, ht, hs⟩
  · intro hund f hf
    rw [hdec f hf]
    constructor
    · rintro ⟨hoff | ⟨e, he, ht, hs⟩, htaken, hstray⟩
      · exact ⟨hoff, htaken⟩
      · rcases hund.free f hf e he ht hs with hoff | h | h
        · exact ⟨hoff, htaken⟩
        · exact absurd h htaken
        · exact absurd h hstray
    · rintro ⟨hoff, htaken⟩
      exact ⟨.inl hoff, htaken, fun ⟨e, he, ht, hs⟩ => htaken (hund.taken f hf e he ht hs hoff)⟩

/-- No entry goes astray if free entries end past the first page and start before the last,
and the others are not empty. -/
theorem undisturbed_of_proper (uf : List UnavailableFrameEntry) (size : UInt32)
    (hfree : ∀ e ∈ mm, e.type = bemtFree → pageSize ≤ e.base.toNat + e.size.toNat ∧
      e.base.toNat ≤ 2 ^ 64 - pageSize)
    (htaken : ∀ e ∈ mm, e.type ≠ bemtFree → e.size ≠ 0) : Undisturbed mm uf size := by
  refine ⟨fun f _ e he ht hs => ?_, fun f _ e he ht hs => absurd hs.1 (htaken e he ht)⟩
  obtain ⟨h1, h2⟩ := hfree e he ht
  rcases hs with hs | hs <;> omega

/-- The low memory of a PC, with the loader's frames in it. -/
theorem pcInitMark_free_iff_low :
    ∃ s, pcInitMark [⟨0, 0x9fc00, 1⟩, ⟨0x9fc00, 0x400, 2⟩, ⟨0x100000, 0x100000, 1⟩]
      [⟨0x120, 4, 1⟩, ⟨0x8, 1, 0⟩]
        0x3000 = some s ∧
        (decode s 0x9e = .free ∧ decode s 0x9f ≠ .free ∧ decode s 0x121 ≠ .free) := by
  have hsome : (pcInitMark [⟨0, 0x9fc00, 1⟩, ⟨0x9fc00, 0x400, 2⟩, ⟨0x100000, 0x100000, 1⟩]
      [⟨0x120, 4, 1⟩, ⟨0x8, 1, 0⟩] 0x3000).isSome = true := by decide +kernel
  obtain ⟨s, hs⟩ := Option.isSome_iff_exists.mp hsome
  have hall := (pcInitMark_free_iff _ _ _ s (by decide) (by decide) hs).mpr
    (undisturbed_of_proper _ _ (by decide) (by decide))
  exact ⟨s, hs, (hall 0x9e (by decide)).mpr (by decide), mt (hall 0x9f (by decide)).mp (by decide),
    mt (hall 0x121 (by decide)).mp (by decide)⟩

/-- A free entry of 1 KiB at address 0 makes every frame free, here the one at 2 GiB. -/
theorem tiny_free_entry_diverges :
    ∃ s, pcInitMark [⟨0, 0x400, 1⟩] [] 0x3000 = some s ∧ decode s 0x80000 = .free ∧
      ¬Offered [⟨0, 0x400, 1⟩] 0x80000 := by
  have hsome : (pcInitMark [⟨0, 0x400, 1⟩] [] 0x3000).isSome = true := by decide +kernel
  obtain ⟨s, hs⟩ := Option.isSome_iff_exists.mp hsome
  refine ⟨s, hs, (pcInitMark_decode hs (by decide)).mpr (by decide), ?_⟩
  rintro ⟨e, he, -, -, hend⟩
  obtain rfl := List.mem_singleton.mp he
  exact absurd hend (by decide)

end FoliOS.Strata.Boot
