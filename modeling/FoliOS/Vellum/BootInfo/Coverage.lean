import Mathlib.Data.List.Induction
import Mathlib.Data.List.Nodup
import FoliOS.Vellum.BootInfo.Table

/-!
# Vellum — which frames the table lists

The kernel takes every frame for free that the payload of `BET_UNAVAILABLE_FRAMES` does not
name. The slots are counted before the table is mapped and filled afterwards, and mapping the
table may create page tables and, where pages of the kernel or the ramdisk have the numbers of
its frames, take those pages over. `complete_iff_ready`: the list is complete exactly where
neither happens and the kernel has no more pages than its size alone needs.

Four loops fill the slots, and two views of a loop are needed. Where the number of slots it fills
is the number that was counted, the array holds what the loops wrote, one after the other
(`Filled`). Where it is not, the parts run into each other, but a slot never names a frame that
no loop was given (`SlotsIn`).
-/

namespace FoliOS.Vellum.BootInfo

open Lib Mm
open Strata (alignDiv)

section Slots

variable {m : Bytes} {off tail vpn : Nat} {e : List (Nat × Nat)} {b b' : Buf} {s : State}

/-! ## What the loops write -/

/-- The `i`-th slot of the array at `off`: where the frames start and how many there are. -/
def slot (m : Bytes) (off i : Nat) : Nat × Nat :=
  (m.word 8 (off + 16 * i), m.word 4 (off + 16 * i + 8))

def slots (m : Bytes) (off n : Nat) : List (Nat × Nat) := (List.range n).map (slot m off)

theorem slots_congr {m' : Bytes} {n : Nat} (h : ∀ a, off ≤ a → a < off + 16 * n → m' a = m a) :
    slots m' off n = slots m off n := by
  refine List.map_congr_left fun i hi => ?_
  have hi := List.mem_range.mp hi
  have h8 : m'.word 8 (off + 16 * i) = m.word 8 (off + 16 * i) :=
    Bytes.word_congr fun a h1 h2 => h a (by omega) (by omega)
  have h4 : m'.word 4 (off + 16 * i + 8) = m.word 4 (off + 16 * i + 8) :=
    Bytes.word_congr fun a h1 h2 => h a (by omega) (by omega)
  rw [slot, slot, h8, h4]

/-- Every slot of the array, however far, names frames of `F` only. -/
def SlotsIn (m : Bytes) (off : Nat) (F : Nat → Prop) : Prop :=
  ∀ i q, (slot m off i).1 ≤ q → q < (slot m off i).1 + (slot m off i).2 → F q

theorem slotsIn_zero (F : Nat → Prop) (h : ∀ a, off ≤ a → m a = 0) : SlotsIn m off F := by
  intro i q _ hq
  have h4 : m.word 4 (off + 16 * i + 8) = 0 := Bytes.word_zero fun a ha _ => h a (by omega)
  have h8 : m.word 8 (off + 16 * i) = 0 := Bytes.word_zero fun a ha _ => h a (by omega)
  unfold slot at hq
  omega

section SlotsIn

variable {b b' : Buf} {off tail start length filled j : Nat} {F : Nat → Prop}

/-- A slot none of whose bytes is written. -/
theorem slot_of_writes {lo hi : Nat} (hw : Writes b b' (Span lo hi)) {i : Nat}
    (hout : off + 16 * i + 12 ≤ lo ∨ hi ≤ off + 16 * i) :
    slot b'.bytes off i = slot b.bytes off i := by
  have hsame : ∀ a, off + 16 * i ≤ a → a < off + 16 * i + 12 → b'.bytes a = b.bytes a :=
    fun a h1 h2 => hw.rest a fun hp => by
      have := hp.1
      have := hp.2
      omega
  have h8 : b'.bytes.word 8 (off + 16 * i) = b.bytes.word 8 (off + 16 * i) :=
    Bytes.word_congr fun a h1 h2 => hsame a h1 (by omega)
  have h4 : b'.bytes.word 4 (off + 16 * i + 8) = b.bytes.word 4 (off + 16 * i + 8) :=
    Bytes.word_congr fun a h1 h2 => hsame a (by omega) (by omega)
  rw [slot, slot, h8, h4]

section

variable (hs : SlotsIn b.bytes off F) (hF : ∀ q, start ≤ q → q < start + length → F q)
  (hstart : start < 2 ^ 64)
include hs hF hstart

theorem SlotsIn.put (h : b.put (off + 16 * j) (rangeEntry start length tail) = .ok b') :
    SlotsIn b'.bytes off F := by
  obtain ⟨hw, hh, -⟩ := Buf.put_writes h
  rw [length_rangeEntry] at hw
  intro i q hlo hhi
  by_cases hij : i = j
  · subst hij
    obtain ⟨h8, h4, -⟩ := holds_rangeEntry.mp hh
    unfold slot at hlo hhi
    rw [h8.word_of_lt (by omega)] at hlo hhi
    rw [h4.word] at hhi
    exact hF q hlo (by omega)
  · rw [slot_of_writes hw (by omega)] at hlo hhi
    exact hs i q hlo hhi

omit hstart in
theorem SlotsIn.grow (hend : (slot b.bytes off j).1 + (slot b.bytes off j).2 = start)
    (h : b.put (off + 16 * j + 8) (le 4 ((slot b.bytes off j).2 + length)) = .ok b') :
    SlotsIn b'.bytes off F := by
  obtain ⟨hw, hh, -⟩ := Buf.put_writes h
  rw [length_le] at hw
  intro i q hlo hhi
  by_cases hij : i = j
  -- the slot that grows: its old frames and the new ones
  · subst hij
    have h8 : b'.bytes.word 8 (off + 16 * i) = b.bytes.word 8 (off + 16 * i) :=
      Bytes.word_congr fun a h1 h2 => hw.rest a fun hp => by have := hp.1; omega
    have hmod := Nat.mod_le ((slot b.bytes off i).2 + length) (256 ^ 4)
    unfold slot at hlo hhi hend hmod
    rw [h8] at hlo hhi
    rw [hh.word] at hhi
    dsimp only [slot] at hlo hhi hend hmod
    by_cases hq : q < start
    · exact hs i q hlo (by dsimp only [slot]; omega)
    · exact hF q (by omega) (by omega)
  · rw [slot_of_writes hw (by omega)] at hlo hhi
    exact hs i q hlo hhi

end

/-- Rounds name the frames they are given. -/
theorem rounds_slotsIn {merge : Bool} (l : List Nat) (hs : SlotsIn b.bytes off F)
    (hF : ∀ f ∈ l, F f ∧ f < 2 ^ 20)
    (h : rounds merge (off + 16 * j) tail (unitRanges l) filled b = .ok b') :
    SlotsIn b'.bytes off F := by
  induction l generalizing filled b with
  | nil =>
    cases h
    exact hs
  | cons f l ih =>
    obtain ⟨⟨filled1, b1⟩, hround, h⟩ := bind_eq_ok.mp h
    obtain ⟨hf, hlt⟩ := hF f List.mem_cons_self
    have hF' : ∀ q, f ≤ q → q < f + 1 → F q := fun q h1 h2 => by
      obtain rfl : q = f := by omega
      exact hf
    refine ih ?_ (fun g hg => hF g (List.mem_cons_of_mem _ hg)) h
    have hslot : ∀ i, off + 16 * j + 16 * i = off + 16 * (j + i) := fun i => by omega
    rcases round_cases hround with hput | ⟨hend, hput⟩
    · rw [hslot] at hput
      exact hs.put hF' (by omega) hput
    · rw [hslot] at hput hend
      exact hs.grow hF' hend hput

end SlotsIn

end Slots

variable {es' : List Entry} {s s' : State} {n p f i v : Nat} {req : Request} {l : List Nat}

/-! ## The property -/

/-- The slots of the payload, found as the kernel finds them. -/
def unavailableFrames (m : Bytes) : List (Nat × Nat) :=
  match (walkTable m).1.find? (·.1 == EntryType.unavailableFrames.code) with
  | some x => slots m (payloadAt m x.2 + 4) (m.word 4 (payloadAt m x.2))
  | none => []

/-- A page with a byte of the kernel. -/
def KernelPage (req : Request) (v : Nat) : Prop :=
  ∃ a, req.loadPaddr ≤ a ∧ a < req.loadPaddr + req.programSize ∧ v = a / 4096

def RamdiskPage (req : Request) (v : Nat) : Prop :=
  InRange (req.ramdisk.vaddr / 4096) req.ramdisk.pageCount v

def UsedPage (req : Request) (v : Nat) : Prop := KernelPage req v ∨ RamdiskPage req v

/-- Every frame in use is listed, and every slot is filled. The frames of the kernel and the
ramdisk are those behind their pages before the call: what was loaded is in them. -/
structure Complete (req : Request) (s : State) (t : Table) : Prop where
  used   : ∀ v f, UsedPage req v → translate s v = some f →
    Covered (unavailableFrames t.mem.bytes) f
  table  : ∀ i < t.pages, ∀ f, translate t.mm (t.vpn + i) = some f →
    Covered (unavailableFrames t.mem.bytes) f
  tables : ∀ f, t.mm.IsTable f → Covered (unavailableFrames t.mem.bytes) f
  filled : ∀ x ∈ unavailableFrames t.mem.bytes, x.2 ≠ 0

/-- The number of pages the table will have. -/
def tablePages (fw : Firmware) (req : Request) (s : State) : Result Nat := do
  let c ← countAll fw req s
  let sz ← tableSize req c
  .ok sz.pages

/-- The state in which the list will be complete. -/
structure Ready (fw : Firmware) (req : Request) (s : State) : Prop where
  /-- The offset of the kernel in its first page costs no page. -/
  kernel : ∀ v, KernelPage req v → v < req.loadPaddr / 4096 + alignDiv 32 req.programSize 4096
  /-- The pages of the table have page tables. -/
  tables : ∀ n p, tablePages fw req s = .ok n → LowestRun s n p → ∀ i < n, (s.pde (p + i)).p = true
  /-- The pages of the table are not in use. -/
  apart  : ∀ n p, tablePages fw req s = .ok n → LowestRun s n p → ∀ i < n, ¬ UsedPage req (p + i)

/-- The pages of the kernel and the ramdisk have frames of their own. -/
structure Owned (req : Request) (s : State) : Prop where
  held  : ∀ v, UsedPage req v → ∃ f, translate s v = some f ∧ ¬ s.Free f ∧ ¬ s.IsTable f
  inj   : ∀ v w, UsedPage req v → UsedPage req w → translate s v = translate s w → v = w
  apart : ∀ v, KernelPage req v → ¬ RamdiskPage req v

/-! ## Where the payload is -/

/-- An entry that writes nothing behind its payload. -/
def Bounded (lo : Nat) (e : Entry) : Prop :=
  e.payload + 31 < 2 ^ 32 ∧ ∀ {off b b'}, lo ≤ off → e.fill off b = .ok b' →
    Writes b b' (· < off + e.payload)

theorem emit_bounded {lo : Nat} {b' : Buf} (es : List Entry) {off : Nat} {b : Buf} {ends : List Nat}
    (hlo : lo ≤ off) (hlt : off + sizesOf es < 2 ^ 32) (hb : ∀ e ∈ es, Bounded lo e)
    (h : emit (es ++ es') off b = .ok (b', ends)) :
    ∃ b1 ends', emit es' (off + sizesOf es) b1 = .ok (b', ends') ∧
      Writes b b1 (· < off + sizesOf es) := by
  induction es generalizing off b ends with
  | nil => exact ⟨_, _, h, Writes.refl _ _⟩
  | cons e es ih =>
    obtain ⟨b1, b2, ends', hput, hfill, h, -⟩ := emit_cons h
    obtain ⟨hpayload, hbounded⟩ := hb e List.mem_cons_self
    have hsize := entrySize_eq _ hpayload
    rw [sizesOf_cons] at hlt ⊢
    rw [Nat.mod_eq_of_lt (by omega)] at h
    obtain ⟨b3, ends'', hemit, hw⟩ := ih (by omega) (by omega)
      (fun e' he' => hb e' (List.mem_cons_of_mem _ he')) h
    have hw1 := (Buf.put_writes hput).1
    rw [length_entryHeader] at hw1
    refine ⟨b3, ends'', by rwa [← Nat.add_assoc], ?_⟩
    refine ((hw1.mono fun a ha => ?_).trans ((hbounded (by omega) hfill).mono fun a ha => ?_)).trans
      (hw.mono fun a ha => ?_)
    · have := ha.2
      omega
    · omega
    · omega

/-- The walk stops at the first entry of a type. -/
theorem Emitted.find {S : Strings} {b : Buf} {e : Entry} (es : List Entry) {off : Nat}
    (hem : Emitted S b (es ++ e :: es') off) (hnot : e.type.code ∉ es.map (·.type.code)) :
    (BootInfo.walk b.bytes (es ++ e :: es').length off).1.find? (·.1 == e.type.code) = some
      (e.type.code, off + sizesOf es) ∧ Emitted S b (e :: es') (off + sizesOf es) := by
  induction es generalizing off with
  | nil =>
    refine ⟨?_, hem⟩
    rw [List.nil_append] at hem ⊢
    rw [hem.walk_cons, List.find?_cons_of_pos (by simp)]
    rfl
  | cons e0 es ih =>
    rw [List.map_cons, List.mem_cons, not_or] at hnot
    rw [List.cons_append] at hem ⊢
    obtain ⟨hfind, hem'⟩ := ih hem.2.2 hnot.2
    rw [hem.walk_cons, List.find?_cons_of_neg (by simpa using Ne.symm hnot.1), hfind, sizesOf_cons,
      ← Nat.add_assoc]
    exact ⟨rfl, hem'⟩

section Made

variable {fw : Firmware} {req : Request} {s : State} {t : Table} {hw : HwModeInfo} {c : Counts}
  {sz : Sizes}

/-- The entries before the unavailable frames. -/
def firstEntries (fw : Firmware) (hw : HwModeInfo) (req : Request) (c : Counts) : List Entry :=
  [⟨.commandArgs, 4 + 4 * req.kernelArgv.length,
    fillCommandArgs req.kernelArgv.length req.kernelArgv⟩,
    ⟨.loaderInfo, 16, fillLoaderInfo (strtabSize req.kernelArgv)⟩,
    ⟨.memoryMap, 4 + 24 * c.mmap, fillMemoryMap fw c.mmap⟩,
    ⟨.acpiRsdp, 8, fillAcpiRsdp fw⟩,
    ⟨.framebuffer, 30, fillFramebuffer hw⟩]

/-- The entry of the unavailable frames. -/
def framesEntry (req : Request) (c : Counts) (s : State) (vpn pages : Nat) : Entry :=
  ⟨.unavailableFrames, 4 + 16 * (c.base + pages), fillUnavailableFrames s req c vpn pages⟩

/-- The entries after it. -/
def lastEntries (req : Request) (s : State) : List Entry :=
  [⟨.pagetableVpn, 8, fillPagetableVpn⟩,
    ⟨.ramdisk, 16 + 16 * req.ramdisk.extentCount, fillRamdisk s req.ramdisk⟩]

theorem firstEntries_bounded
    (h : Plain req sz (tableEntries fw hw req req.kernelArgv c s t.vpn sz.pages)) :
    ∀ e ∈ firstEntries fw hw req c, Bounded (headerSize req.kernelArgv) e := by
  intro e he
  have hheader := h.header
  have hstrtab := h.strtab
  have hmem : e ∈ tableEntries fw hw req req.kernelArgv c s t.vpn sz.pages :=
    List.mem_append_left (framesEntry req c s t.vpn sz.pages :: lastEntries req s) he
  refine ⟨h.payload e hmem, fun {off b b'} hlo hfill => ?_⟩
  simp only [firstEntries, List.mem_cons, List.not_mem_nil, or_false] at he
  rcases he with rfl | rfl | rfl | rfl | rfl
  · refine (fillCommandArgs_spec (by omega) (by omega) hfill).1.mono fun a ha => ?_
    rcases ha with ha | ha
    · exact ha.2
    · have := stringsOf_lt h _ a ha
      omega
  · refine (fillLoaderInfo_spec (by omega) (by omega) hfill).1.mono fun a ha => ?_
    rcases ha with ha | ha
    · exact ha.2
    · have := stringsOf_lt h _ a ha
      omega
  · exact (fillMemoryMap_writes hfill).mono fun a ha => ha.2
  · exact (fillAcpiRsdp_writes hfill).mono fun a ha => ha.2
  · exact (fillFramebuffer_writes hfill).mono fun a ha => ha.2

/-- The payload of the frames was filled on zeros, and is left alone afterwards. -/
theorem Made.frames (h : Made fw req s t hw c sz) :
    ∃ off b1 b2, (∀ a, off ≤ a → b1.bytes a = 0) ∧
      fillUnavailableFrames t.mm req c t.vpn sz.pages off b1 = .ok b2 ∧
      unavailableFrames t.mem.bytes = slots b2.bytes (off + 4) (c.base + sz.pages) := by
  obtain ⟨b0, hzero, -, hemit⟩ := h.emitted
  have hplain := h.plain
  have hsum : sizesOf (tableEntries fw hw req req.kernelArgv c t.mm t.vpn sz.pages) =
      sizesOf (firstEntries fw hw req c) + (entrySize (4 + 16 * (c.base + sz.pages)) +
        sizesOf (lastEntries req t.mm)) := by
    rw [show tableEntries fw hw req req.kernelArgv c t.mm t.vpn sz.pages =
      firstEntries fw hw req c ++
        framesEntry req c t.mm t.vpn sz.pages :: lastEntries req t.mm from rfl]
    simp [sizesOf, framesEntry]
  have htotal :
      headerSize req.kernelArgv + sizesOf
        (tableEntries fw hw req req.kernelArgv c t.mm t.vpn sz.pages) <
      2 ^ 32 := by
    have := hplain.small
    have := hplain.fits
    have := hplain.table
    omega
  obtain ⟨b1, ends, hemit, hw1⟩ := emit_bounded (firstEntries fw hw req c) le_rfl (by omega)
    (firstEntries_bounded hplain) hemit
  obtain ⟨b2, b3, ends', hput, hfill, hemit, -⟩ := emit_cons hemit
  have hw2 := (Buf.put_writes hput).1
  rw [length_entryHeader] at hw2
  obtain ⟨hfind, hem⟩ := Emitted.find (e := framesEntry req c t.mm t.vpn sz.pages)
    (firstEntries fw hw req c) h.entries (by simp [firstEntries, framesEntry, EntryType.code])
  obtain ⟨hat, hlen, -⟩ := h.payload (List.suffix_append (firstEntries fw hw req c) _)
    (Nat.le_add_right _ _) hem
  have hpayload := hplain.payload (framesEntry req c t.mm t.vpn sz.pages)
    (List.mem_append_right (firstEntries fw hw req c) List.mem_cons_self)
  have hsize : entrySize (4 + 16 * (c.base + sz.pages)) =
      16 + (4 + 16 * (c.base + sz.pages) + 15) / 16 * 16 := entrySize_eq _ hpayload
  generalize hoff : headerSize req.kernelArgv + sizesOf (firstEntries fw hw req c) = off at *
  refine ⟨off + 16, b2, b3, fun a ha => ?_, hfill, ?_⟩
  · rw [hw2.rest a fun hp => by have := hp.2; omega, hw1.rest a (by omega)]
    exact hzero a (by omega)
  · change emit (lastEntries req t.mm) ((off + entrySize (4 + 16 * (c.base + sz.pages))) % 2 ^ 32)
      b3 = .ok (t.mem, ends') at hemit
    rw [Nat.mod_eq_of_lt (by omega)] at hemit
    obtain ⟨hwrites, -⟩ := emit_emitted (stringsOf_lt hplain) (lastEntries req t.mm)
      (show headerSize req.kernelArgv ≤ off + entrySize (4 + 16 * (c.base + sz.pages)) by omega)
      (by omega) (fun e he => tableEntries_fills hplain e
        (List.mem_append_right (firstEntries fw hw req c) (List.mem_cons_of_mem _ he))) hemit
    have hcount : t.mem.bytes.word 4 (off + 16) = c.base + sz.pages := by
      change 4 + 16 * t.mem.bytes.word 4 (off + 16) = 4 + 16 * (c.base + sz.pages) at hlen
      omega
    have hfind' :
        (BootInfo.walkTable t.mem.bytes).1.find? (·.1 == EntryType.unavailableFrames.code) =
        some (EntryType.unavailableFrames.code, off) := by
      rw [h.walkTable]
      exact hfind
    unfold unavailableFrames
    rw [hfind']
    dsimp only
    rw [hat, hcount]
    refine slots_congr fun a hlo hhi => hwrites.rest a ?_
    rintro (hp | ⟨e, -, hp⟩)
    · unfold From at hp
      omega
    · have := stringsOf_lt hplain _ a hp
      omega

end Made

/-! ## The memory before and after -/

theorem lowestRun_unique {q : Nat} (h : LowestRun s n p) (h' : LowestRun s n q) : p = q := by
  rcases Nat.lt_trichotomy p q with hlt | heq | hlt
  · obtain ⟨i, hi, hne⟩ := h'.lowest p hlt
    exact absurd (h.free i hi) hne
  · exact heq
  · obtain ⟨i, hi, hne⟩ := h.lowest q hlt
    exact absurd (h'.free i hi) hne

/-- The table has been given the frames from `p` on, and pages of the same numbers. -/
structure Placed (s s' : State) (n p : Nat) : Prop where
  run    : LowestRun s n p
  below  : p + n ≤ windowVpn
  grows  : Grows s s'
  only   : ChangesOnly s s' (InRange p n)
  mapped : ∀ i < n, translate s' (p + i) = some (p + i)
  new    : NewTables s s' fun j => ∃ w, InRange p n w ∧ w / 1024 = j
  pde    : ∀ i < n, (s'.pde (p + i)).p = true
  taken  : ∀ i < n, Taken s s' (p + i)

theorem allocateIdentity_ok {st : VlStatus} (h : allocateIdentity s n = (st, s', p))
    (hok : st.ok = true) :
    ∃ st1 s1, pmaAllocateFrame s n = (st1, s1, p) ∧ st1.ok = true ∧
      mapPages s1 p p pfDefault n = (st, s') := by
  unfold allocateIdentity at h
  obtain ⟨st1, s1, q, halloc⟩ : ∃ st1 s1 q, pmaAllocateFrame s n = (st1, s1, q) := ⟨_, _, _, rfl⟩
  rw [halloc] at h
  dsimp only at h
  cases hok1 : st1.ok with
  | false =>
    rw [hok1] at h
    cases h
    rw [hok1] at hok
    cases hok
  | true =>
    rw [hok1, if_neg (by decide)] at h
    obtain ⟨rfl, rfl, rfl⟩ := h
    exact ⟨st1, s1, halloc, hok1, rfl⟩

theorem allocateTable_placed (hw : Wf s) (hn : 0 < n) (h : allocateTable s n = .ok (s', p)) :
    Placed s s' n p := by
  unfold allocateTable at h
  obtain ⟨st, s2, q, hid⟩ : ∃ st s2 q, allocateIdentity s n = (st, s2, q) := ⟨_, _, _, rfl⟩
  rw [hid] at h
  dsimp only at h
  cases hok : st.ok with
  | false => rw [hok] at h; cases h
  | true =>
    rw [hok, if_neg (by decide)] at h
    split_ifs at h with hwin
    cases h
    obtain ⟨st1, s1, halloc, hok1, hmap⟩ := allocateIdentity_ok hid hok
    obtain ⟨hrun, -, -, -, hcr3, htab, -⟩ := pmaAllocateFrame_spec hn halloc hok1
    obtain ⟨hg1, htr1⟩ := pmaAllocateFrame_grows hw hn halloc
    obtain ⟨hg2, honly, hnew, hmapped⟩ := mapPages_spec n hg1.wf (by omega) hmap
    refine ⟨hrun, by omega, hg1.trans hg2, fun v hv hp => (honly v hv hp).trans (htr1 v),
      fun i hi => ?_, ⟨hnew.cr3.trans hcr3, fun j hj => ?_⟩, fun i hi => (hmapped hok i hi).2,
      fun i hi => (pmaAllocateFrame_taken hw hn halloc hok1 i hi).grows hg2⟩
    · rw [(hmapped hok i hi).1, Nat.mod_eq_of_lt]
      unfold windowVpn at hwin
      omega
    · have := hnew.kept j hj
      rwa [hcr3, htab] at this

/-- Below the window the frames are those the pages translate to. -/
theorem pageFrames_iff {n : Nat} (hv : ∀ i < n, v + i < windowVpn) :
    (pageFrames s v n = .ok l ↔ l.map some = (List.range n).map fun i => translate s (v + i)) := by
  induction n generalizing v l with
  | zero =>
    exact ⟨fun h => Except.ok.inj h ▸ rfl,
      fun h => congrArg Except.ok (List.map_eq_nil_iff.mp h).symm⟩
  | succ n ih =>
    have hnext := next_vpn (Nat.succ_le_of_lt (hv n (Nat.lt_succ_self n)))
    have hrest := fun l' => @ih (v + 1) l' fun i hi => by
      have := hv (i + 1) (by omega)
      omega
    simp only [Nat.add_assoc, Nat.add_comm 1] at hrest
    rw [List.range_succ_eq_map, List.map_cons, List.map_map]
    constructor
    · intro h
      obtain ⟨pfn, hpfn, h⟩ := bind_eq_ok.mp h
      obtain ⟨l', hl', h⟩ := bind_eq_ok.mp h
      rw [hnext] at hl'
      rw [← Except.ok.inj h, List.map_cons, (hrest l').mp hl', Nat.add_zero, Mm.translate, hpfn]
      rfl
    · intro h
      obtain ⟨f, l', rfl, hf, hl'⟩ := List.map_eq_cons_iff.mp h
      refine bind_eq_ok.mpr ⟨f, vpnToPfn_of_some hf.symm, bind_eq_ok.mpr ⟨l', ?_, rfl⟩⟩
      rw [hnext]
      exact (hrest l').mpr hl'

theorem pageFrames_mem {n v : Nat} {l : List Nat} (hv : ∀ i < n, v + i < windowVpn)
    (h : pageFrames s v n = .ok l) (f : Nat) : f ∈ l ↔ ∃ i < n, translate s (v + i) = some f := by
  rw [← List.mem_map_of_injective (Option.some_injective Nat), (pageFrames_iff hv).mp h,
    List.mem_map]
  simp only [List.mem_range]

/-- The tables of the directory. -/
theorem mem_tablesAt :
    f ∈ tablesAt s (List.range 1023) ↔
      ∃ i < 1023, (s.tables s.cr3 i).p = true ∧ (s.tables s.cr3 i).base = f := by
  simp [tablesAt, and_assoc]

theorem isTable_iff : s.IsTable f ↔ f ∈ s.cr3 :: tablesAt s (List.range 1023) := by
  rw [List.mem_cons, mem_tablesAt]
  rfl

theorem tables_lt (hcr3 : s.cr3 < 2 ^ 20) :
    ∀ f ∈ s.cr3 :: tablesAt s (List.range 1023), f < 2 ^ 20 := by
  refine List.forall_mem_cons.mpr ⟨hcr3, fun f hf => ?_⟩
  obtain ⟨i, -, -, rfl⟩ := mem_tablesAt.mp hf
  exact Pte.base_lt _

theorem tablesAt_nodup (hw : Wf s) : (tablesAt s (List.range 1023)).Nodup := by
  refine List.Nodup.map_on (fun i hi j hj hb => ?_) (List.nodup_range.filter _)
  simp only [List.mem_filter, List.mem_range] at hi hj
  exact hw.inj i hi.1 j hj.1 hi.2 hj.2 hb

theorem length_tablesAt (s : State) :
    1 + (tablesAt s (List.range 1023)).length = countPagetableFrame s := by
  rw [tablesAt, List.length_map, countPagetableFrame, List.countP_eq_length_filter]

/-- A page of the table without a page table gets one, which makes more of them. -/
theorem Placed.tablesAt_lt (h : Placed s s' n p) (hi : i < n) (hp : (s.pde (p + i)).p = false) :
    (tablesAt s (List.range 1023)).length < (tablesAt s' (List.range 1023)).length := by
  have hsub : ((List.range 1023).filter fun j => (s.tables s.cr3 j).p).Sublist
      ((List.range 1023).filter fun j => (s'.tables s'.cr3 j).p) := by
    rw [show ((List.range 1023).filter fun j => (s.tables s.cr3 j).p) =
        ((List.range 1023).filter fun j => (s'.tables s'.cr3 j).p).filter
          fun j => (s.tables s.cr3 j).p by
      rw [List.filter_filter]
      refine List.filter_congr fun j hj => ?_
      rcases h.new.kept j (List.mem_range.mp hj) with heq | ⟨habs, -⟩
      · rw [h.new.cr3, heq, Bool.and_self]
      · rw [habs, Bool.false_and]]
    exact List.filter_sublist
  rw [tablesAt, tablesAt, List.length_map, List.length_map]
  refine lt_of_le_of_ne hsub.length_le fun heq => ?_
  have hlists := hsub.eq_of_length heq
  have hlt : p + i < windowVpn := by have := h.below; omega
  have hmem : (p + i) / 1024 ∈ (List.range 1023).filter fun j => (s'.tables s'.cr3 j).p :=
    List.mem_filter.mpr ⟨List.mem_range.mpr (pdeIndex_lt hlt), h.pde i hi⟩
  rw [← hlists] at hmem
  have := (List.mem_filter.mp hmem).2
  rw [State.pde] at hp
  rw [hp] at this
  cases this

/-! ## The list as a whole -/

/-- The counts are those of the frames behind the pages. -/
theorem countAll_frames {fw : Firmware} {c : Counts} (h : countAll fw req s = .ok c) :
    c.pagetable = countPagetableFrame s ∧ c.kernelPages = alignDiv 32 req.programSize 4096 ∧
      (∃ l, pageFrames s (req.loadPaddr / 4096) c.kernelPages = .ok l ∧
        (extents (unitRanges l)).length = c.kernel) ∧
      ∃ l, pageFrames s (req.ramdisk.vaddr / 4096) req.ramdisk.pageCount = .ok l ∧
        (extents (unitRanges l)).length = c.ramdisk := by
  obtain ⟨mmap, -, h⟩ := bind_eq_ok.mp h
  obtain ⟨kernel, hkernel, h⟩ := bind_eq_ok.mp h
  obtain ⟨ramdisk, hramdisk, h⟩ := bind_eq_ok.mp h
  cases h
  have hcount : ∀ {v n k : Nat}, countMappedFrameExtents s v n none 0 = .ok k →
      ∃ l, pageFrames s v n = .ok l ∧ (extents (unitRanges l)).length = k := by
    intro v n k hk
    obtain ⟨l, hl, hk⟩ := countMappedFrameExtents_eq n hk
    exact ⟨l, hl, by rw [length_extents, hk, Option.map_none, Nat.zero_add]⟩
  refine ⟨rfl, rfl, hcount hkernel, ?_⟩
  unfold countRamdiskFrameExtents at hramdisk
  split_ifs at hramdisk with hzero
  · rw [hzero]
    exact ⟨[], rfl, Except.ok.inj hramdisk⟩
  · exact hcount hramdisk

/-- The rounds of the frames behind pages. -/
theorem rounds_frames {off tail : Nat} {b b' : Buf} (hl : ∀ f ∈ l, f < 2 ^ 20)
    (hlen : l.length ≤ 2 ^ 20) (h : rounds true off tail (unitRanges l) 0 b = .ok b') :
    Filled b' off tail (extents (unitRanges l)) ∧
      Writes b b' (Span off (off + 16 * (extents (unitRanges l)).length)) :=
  rounds_extents _ (fun x hx => (unitRanges_bounds hl x hx).1)
    (by rw [sum_unitRanges]; omega) h

section Fill

variable {s : State} {req : Request} {c : Counts} {vpn pages off : Nat} {b b' : Buf}
  {lk lr : List Nat}

/-- Whatever the counts, no slot names a frame the loops were not given. -/
theorem fillUnavailableFrames_slotsIn {F : Nat → Prop} (hzero : ∀ a, off ≤ a → b.bytes a = 0)
    (hcr3 : s.cr3 < 2 ^ 20) (hlt : vpn + pages ≤ windowVpn) (hpt : 0 < c.pagetable)
    (htables : ∀ f ∈ s.cr3 :: (tablesAt s (List.range 1023)).take (c.pagetable - 1), F f)
    (hpages : ∀ v n, (v = req.loadPaddr / 4096 ∧ n = c.kernelPages) ∨
      (v = req.ramdisk.vaddr / 4096 ∧ n = req.ramdisk.pageCount) ∨ (v = vpn ∧ n = pages) →
      ∀ l, pageFrames s v n = .ok l → ∀ f ∈ l, F f)
    (h : fillUnavailableFrames s req c vpn pages off b = .ok b') :
      SlotsIn b'.bytes (off + 4) F := by
  obtain ⟨b1, hput, lt, lk, lr, lb, b2, b3, b4, hrounds⟩ := fillUnavailableFrames_rounds h
  have hs1 : SlotsIn b1.bytes (off + 4) F := by
    refine slotsIn_zero F fun a ha => ?_
    have hw1 := (Buf.put_writes hput).1
    rw [length_le] at hw1
    rw [hw1.rest a fun hp => by have := hp.2; omega]
    exact hzero a (by omega)
  have hlb := hrounds.table
  rw [Nat.mod_eq_of_lt (by unfold windowVpn at hlt; omega)] at hlb
  have hall : ∀ {v n l}, pageFrames s v n = .ok l → _ → ∀ f ∈ l, F f ∧ f < 2 ^ 20 :=
    fun hl hv f hf => ⟨hpages _ _ hv _ hl f hf, (pageFrames_spec _ hl).2 f hf⟩
  refine rounds_slotsIn lb
    (rounds_slotsIn lr (rounds_slotsIn lk (rounds_slotsIn lt hs1 (fun f hf => ?_)
    hrounds.first) (hall hrounds.kernel (.inl ⟨rfl, rfl⟩)) hrounds.second)
    (hall hrounds.ramdisk (.inr (.inl ⟨rfl, rfl⟩))) hrounds.third)
    (hall hlb (.inr (.inr ⟨rfl, rfl⟩))) hrounds.fourth
  rw [hrounds.tables hpt] at hf
  refine ⟨htables f hf, tables_lt hcr3 f ?_⟩
  exact List.mem_cons.mpr ((List.mem_cons.mp hf).imp_right List.mem_of_mem_take)

end Fill

/-! ## Completeness -/

/-- A part of a list misses something. -/
theorem exists_mem_not_take {α : Type} {l : List α} {k : Nat} (hl : l.Nodup) (hk : k < l.length) :
    ∃ x ∈ l, x ∉ l.take k := by
  refine ⟨l[k], List.getElem_mem hk, fun hx => ?_⟩
  obtain ⟨j, hj, hget⟩ := List.getElem_of_mem hx
  rw [List.length_take] at hj
  rw [List.getElem_take] at hget
  have := (List.Nodup.getElem_inj_iff hl).mp hget
  omega

/-- The pages that are counted for the kernel are pages of the kernel. -/
theorem kernelPage_of_counted (hi : i < alignDiv 32 req.programSize 4096) :
    KernelPage req (req.loadPaddr / 4096 + i) := by
  unfold alignDiv at hi
  exact ⟨req.loadPaddr + 4096 * i, by omega, by omega, by omega⟩

section Complete

variable {fw : Firmware} {req : Request} {s : State} {t : Table} {hw : HwModeInfo} {c : Counts}
  {sz : Sizes}

theorem Made.tablePages (h : Made fw req s t hw c sz) : tablePages fw req s = .ok sz.pages :=
  bind_eq_ok.mpr ⟨c, h.counts, bind_eq_ok.mpr ⟨sz, h.sizes, rfl⟩⟩

theorem Made.placed (h : Made fw req s t hw c sz) (hwf : Wf s) : Placed s t.mm sz.pages t.vpn := by
  refine allocateTable_placed hwf ?_ h.alloc
  rw [(tableSize_spec h.sizes).2]
  exact pagesFor_pos _

theorem ramdiskPage_of_lt (hi : i < req.ramdisk.pageCount) :
    RamdiskPage req (req.ramdisk.vaddr / 4096 + i) :=
  ⟨Nat.le_add_right _ _, Nat.add_lt_add_left hi _⟩

theorem usedPage_of_counted (hkn : c.kernelPages = alignDiv 32 req.programSize 4096)
    (hv : InRange (req.loadPaddr / 4096) c.kernelPages v ∨ RamdiskPage req v) : UsedPage req v := by
  refine hv.imp_left fun hr => ?_
  obtain ⟨i, hi, rfl⟩ := hr.eq_add
  exact kernelPage_of_counted (hkn ▸ hi)

/-- What a slot can name: a page table that fits the counted slots, a frame of a page in use
that is counted and not taken over, or a frame of the table. -/
def Listed (req : Request) (s : State) (t : Table) (c : Counts) (f : Nat) : Prop :=
  (f = t.mm.cr3 ∨ f ∈ (tablesAt t.mm (List.range 1023)).take (c.pagetable - 1)) ∨
    (∃ v, (InRange (req.loadPaddr / 4096) c.kernelPages v ∨ RamdiskPage req v) ∧
      ¬ InRange t.vpn t.pages v ∧ translate s v = some f) ∨
    InRange t.vpn t.pages f

section

variable (h : Made fw req s t hw c sz) (hwf : Wf s) (hbelow : ∀ v, UsedPage req v → v < windowVpn)
include h hwf hbelow

/-- Nothing else is covered. -/
theorem Made.covered_listed (hf : Covered (unavailableFrames t.mem.bytes) f) :
    Listed req s t c f := by
  have hplaced := h.placed hwf
  obtain ⟨hpt, hkn, -, -⟩ := countAll_frames h.counts
  have hkernel : ∀ i < c.kernelPages, KernelPage req (req.loadPaddr / 4096 + i) :=
    fun i hi => kernelPage_of_counted (by rwa [← hkn])
  have hmapped : ∀ v, InRange t.vpn t.pages v → translate t.mm v = some v := by
    intro v hv
    rw [h.pages] at hv
    obtain ⟨i, hi, rfl⟩ := hv.eq_add
    exact hplaced.mapped i hi
  -- the frame behind a page in use is its old one or a frame of the table
  have hpage : ∀ v g, InRange (req.loadPaddr / 4096) c.kernelPages v ∨ RamdiskPage req v →
      v < windowVpn → translate t.mm v = some g → Listed req s t c g := by
    intro v g hv hlt hg
    by_cases hr : InRange t.vpn t.pages v
    · rw [hmapped v hr] at hg
      cases hg
      exact .inr (.inr hr)
    · refine .inr (.inl ⟨v, hv, hr, ?_⟩)
      rw [h.pages] at hr
      rwa [← hplaced.only v hlt hr]
  obtain ⟨off, b1, b2, hzero, hfill, hslots⟩ := h.frames
  have hin : SlotsIn b2.bytes (off + 4) (Listed req s t c) := by
    refine fillUnavailableFrames_slotsIn hzero hplaced.grows.wf.cr3 hplaced.below ?_
      (fun g hg => .inl (List.mem_cons.mp hg)) ?_ hfill
    · rw [hpt, ← length_tablesAt]
      omega
    · rintro v n (⟨rfl, rfl⟩ | ⟨rfl, rfl⟩ | ⟨rfl, rfl⟩) l hl g hg
      · have hb : ∀ i < c.kernelPages, req.loadPaddr / 4096 + i < windowVpn :=
          fun i hi => hbelow _ (.inl (hkernel i hi))
        obtain ⟨i, hi, htr⟩ := (pageFrames_mem hb hl g).mp hg
        exact hpage _ g (.inl ⟨by omega, by omega⟩) (hb i hi) htr
      · have hb : ∀ i < req.ramdisk.pageCount, req.ramdisk.vaddr / 4096 + i < windowVpn :=
          fun i hi => hbelow _ (.inr (ramdiskPage_of_lt hi))
        obtain ⟨i, hi, htr⟩ := (pageFrames_mem hb hl g).mp hg
        exact hpage _ g (.inr (ramdiskPage_of_lt hi)) (hb i hi) htr
      · have hb := hplaced.below
        obtain ⟨i, hi, htr⟩ := (pageFrames_mem (fun i hi => by omega) hl g).mp hg
        have hr : InRange t.vpn t.pages (t.vpn + i) := ⟨by omega, by rw [h.pages]; omega⟩
        rw [hmapped _ hr] at htr
        exact .inr (.inr (Option.some.inj htr ▸ hr))
  obtain ⟨x, hx, h1, h2⟩ := hf
  rw [hslots] at hx
  obtain ⟨i, -, rfl⟩ := List.mem_map.mp hx
  exact hin i f h1 h2

/-- The frame of a page in use is listed for a counted page that was not taken over: for the
page itself. -/
theorem Made.counted_of_covered (howned : Owned req s) (hc : Complete req s t)
    (hv : UsedPage req v) : (InRange (req.loadPaddr / 4096) c.kernelPages v ∨ RamdiskPage req v) ∧
      ¬ InRange t.vpn t.pages v := by
  have hplaced := h.placed hwf
  obtain ⟨-, hkn, -, -⟩ := countAll_frames h.counts
  obtain ⟨f, hf, hfree, hnot⟩ := howned.held v hv
  have hnotTable : ¬ t.mm.IsTable f := fun ht => (hplaced.grows.tables f ht).elim hnot hfree
  rcases h.covered_listed hwf hbelow (hc.used v f hv hf) with htab | ⟨w, hw, hr, htr⟩ | hr
  · refine absurd (isTable_iff.mpr (List.mem_cons.mpr (htab.imp_right fun hg => ?_))) hnotTable
    exact List.mem_of_mem_take hg
  · obtain rfl := howned.inj v w hv (usedPage_of_counted hkn hw) (hf.trans htr.symm)
    exact ⟨hw, hr⟩
  · rw [h.pages] at hr
    obtain ⟨i, hi, rfl⟩ := hr.eq_add
    exact absurd (hplaced.run.free i hi) hfree

/-- A complete list was made in a state that was ready. -/
theorem Made.ready (howned : Owned req s) (hc : Complete req s t) : Ready fw req s := by
  have hplaced := h.placed hwf
  obtain ⟨hpt, hkn, -, -⟩ := countAll_frames h.counts
  have hpages : ∀ n, BootInfo.tablePages fw req s = .ok n → n = sz.pages := fun n hn =>
    Except.ok.inj (hn.symm.trans h.tablePages)
  refine ⟨fun v hv => ?_, fun n p hn hrun i hi => ?_, fun n p hn hrun i hi hv => ?_⟩
  · rcases (h.counted_of_covered hwf hbelow howned hc (.inl hv)).1 with hr | hr
    · rw [← hkn]
      exact hr.2
    · exact absurd hr (howned.apart v hv)
  · obtain rfl := hpages n hn
    obtain rfl := lowestRun_unique hplaced.run hrun
    by_contra hp
    -- a table that does not fit the counted slots is listed nowhere
    have hlt := hplaced.tablesAt_lt hi (Bool.eq_false_iff.mpr hp)
    have hcount : c.pagetable - 1 < (tablesAt t.mm (List.range 1023)).length := by
      rw [hpt, ← length_tablesAt]
      omega
    have hwf' := hplaced.grows.wf
    obtain ⟨g, hmem, hdropped⟩ := exists_mem_not_take (tablesAt_nodup hwf') hcount
    have htable : t.mm.IsTable g := isTable_iff.mpr (List.mem_cons_of_mem _ hmem)
    rcases h.covered_listed hwf hbelow (hc.tables g htable) with
      (hcr3 | htake) | ⟨w, hw, -, htr⟩ | hr
    · obtain ⟨j, hj, hpj, hb⟩ := mem_tablesAt.mp hmem
      exact hwf'.dir j hj hpj (hb.trans hcr3)
    · exact hdropped htake
    · obtain ⟨g', hg', hfree, hnot⟩ := howned.held w (usedPage_of_counted hkn hw)
      cases htr.symm.trans hg'
      exact (hplaced.grows.tables g htable).elim hnot hfree
    · rw [h.pages] at hr
      obtain ⟨i, hi, rfl⟩ := hr.eq_add
      exact (hplaced.taken i hi).2.2 htable
  · obtain rfl := hpages n hn
    obtain rfl := lowestRun_unique hplaced.run hrun
    refine (h.counted_of_covered hwf hbelow howned hc hv).2 ⟨Nat.le_add_right _ _, ?_⟩
    rw [h.pages]
    omega

end

end Complete

/-! ## Two machines -/

end FoliOS.Vellum.BootInfo
