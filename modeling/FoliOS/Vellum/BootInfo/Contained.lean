import FoliOS.Vellum.BootInfo.Coverage

/-!
# Vellum — what is written for an entry lies inside it

The table is mapped at the page numbers of its own frames, after the extents were counted. A page
of the kernel or the ramdisk with such a number is taken over and has another frame from then on,
so that the loops may find more extents than were counted, and none of them looks where its entry
ends. `makeBootInfoTable_wellFormed`: a table is as the kernel expects it exactly if the extents
that are found afterwards have room.
-/

namespace FoliOS.Vellum.BootInfo

open Lib Mm

/-! ## Entries that end where they should -/

/-- An entry that is filled within its size exactly if `room`. -/
def Exact (lo : Nat) (e : Entry) (room : Prop) : Prop :=
  ∀ off b b', lo ≤ off → b.top ≤ off → e.fill off b = .ok b' →
    (b'.top + 16 ≤ off + entrySize e.payload ↔ room)

theorem Bounded.exact {lo : Nat} {e : Entry} (h : Bounded lo e) : Exact lo e True := by
  intro off b b' hlo htop hfill
  have hsize := entrySize_eq _ h.1
  have hle := (h.2 hlo hfill).top_le (fun a ha => ha) (by omega)
  exact iff_true_intro (by omega)

section Fill

variable {s : State} {req : Request} {c : Counts} {vpn pages off : Nat} {b b' : Buf}

/-- The frames of the kernel and of the ramdisk have no more extents than there are slots from
their first one on. -/
def FramesFit (s : State) (req : Request) (c : Counts) (pages : Nat) : Prop :=
  (∀ l, pageFrames s (req.loadPaddr / 4096) c.kernelPages = .ok l →
      (extents (unitRanges l)).length ≤ c.kernel + c.ramdisk + pages) ∧
    ∀ l, pageFrames s (req.ramdisk.vaddr / 4096) req.ramdisk.pageCount = .ok l →
      (extents (unitRanges l)).length ≤ c.ramdisk + pages

/-- The ramdisk has no more extents than were counted when it was loaded. -/
def ImageFits (s : State) (image : RamdiskImage) : Prop :=
  ∀ l, pageFrames s (image.vaddr / 4096) image.pageCount = .ok l →
    (extents (byteRanges l image.size)).length ≤ image.extentCount

theorem fillUnavailableFrames_top (hpt : 0 < c.pagetable) (hkn : c.kernelPages ≤ 2 ^ 20)
    (htop : b.top ≤ off) (h : fillUnavailableFrames s req c vpn pages off b = .ok b') :
    b'.top ≤ off + 16 * (c.pagetable + c.kernel + c.ramdisk + pages) + 16 ↔
      FramesFit s req c pages := by
  obtain ⟨b1, hput, lt, lk, lr, lb, b2, b3, b4, hrounds⟩ := fillUnavailableFrames_rounds h
  have hlk := pageFrames_spec _ hrounds.kernel
  have hlr := pageFrames_spec _ hrounds.ramdisk
  have hlb := pageFrames_spec _ hrounds.table
  have hrn := req.ramdisk.pages
  have hfit : FramesFit s req c pages ↔
      (extents (unitRanges lk)).length ≤ c.kernel + c.ramdisk + pages ∧
      (extents (unitRanges lr)).length ≤ c.ramdisk + pages := by
    rw [FramesFit, hrounds.kernel, hrounds.ramdisk]
    simp only [Except.ok.injEq, forall_eq']
  have hw1 := (Buf.put_writes hput).1
  rw [length_le] at hw1
  have hw2 := (rounds_append _ (filled_nil _ _ _) hrounds.first).2
  obtain ⟨hf3, hw3⟩ := rounds_frames hlk.2 (by omega) hrounds.second
  obtain ⟨hf4, hw4⟩ := rounds_frames hlr.2 (by omega) hrounds.third
  have hw5 := (rounds_append _ (filled_nil _ _ _) hrounds.fourth).2
  have hlt : (unitRanges lt).length ≤ c.pagetable := by
    rw [unitRanges, List.length_map, hrounds.tables hpt, List.length_cons, List.length_take]
    omega
  have hlen5 : (unitRanges lb).length = pages := by
    rw [unitRanges, List.length_map, hlb.1]
  rw [List.nil_append] at hw2 hw5
  unfold slotAt at hw2 hf3 hw3 hf4 hw4 hw5
  rw [hfit]
  constructor
  -- the last slot of a part was written
  · intro htop'
    have h3 := hf3.reaches
    have h4 := hf4.reaches
    rw [← List.length_eq_zero_iff] at h3 h4
    have := hw4.grows
    have := hw5.grows
    omega
  · rintro ⟨hk, hr⟩
    have ht1 : b1.top ≤ off + 4 := hw1.top_le (fun a ha => ha.2) (by omega)
    have ht2 : b2.top ≤ off + 4 + 16 * c.pagetable :=
      hw2.top_le (fun a ha => by have := ha.2; omega) (by omega)
    have ht3 : b3.top ≤ off + 4 + 16 * (c.pagetable + c.kernel + c.ramdisk + pages) :=
      hw3.top_le (fun a ha => by have := ha.2; omega) (by omega)
    have ht4 : b4.top ≤ off + 4 + 16 * (c.pagetable + c.kernel + c.ramdisk + pages) :=
      hw4.top_le (fun a ha => by have := ha.2; omega) (by omega)
    have ht5 : b'.top ≤ off + 4 + 16 * (c.pagetable + c.kernel + c.ramdisk + pages) :=
      hw5.top_le (fun a ha => by have := ha.2; omega) ht4
    omega

theorem fillRamdisk_top {image : RamdiskImage} (htop : b.top ≤ off)
    (h : fillRamdisk s image off b = .ok b') :
    b'.top ≤ off + 16 + 16 * image.extentCount ↔ ImageFits s image := by
  obtain ⟨b1, l, hput, hl, hrounds⟩ := fillRamdisk_rounds h
  have hfit : ImageFits s image ↔
      (extents (byteRanges l image.size)).length ≤ image.extentCount := by
    rw [ImageFits, hl]
    simp only [Except.ok.injEq, forall_eq']
  obtain ⟨hstart, hsum⟩ := @byteRanges_spec l image.size
  obtain ⟨hf, hw⟩ := rounds_extents _ hstart (lt_of_le_of_lt hsum image.bytes) hrounds
  have ht1 : b1.top ≤ off + 16 := by
    refine (Buf.put_writes hput).1.top_le (fun a ha => ?_) (by omega)
    simpa using ha.2
  rw [hfit]
  constructor
  · intro htop'
    have h3 := hf.reaches
    rw [← List.length_eq_zero_iff] at h3
    omega
  · exact fun hle => hw.top_le (fun a ha => by have := ha.2; omega) (by omega)

end Fill

/-! ## The table -/

/-- What an entry of the table needs. -/
def roomFor (req : Request) (c : Counts) (t : Table) : EntryType → Prop
  | .unavailableFrames => FramesFit t.mm req c t.pages
  | .ramdisk => ImageFits t.mm req.ramdisk
  | _ => True

section Made

variable {fw : Firmware} {req : Request} {s : State} {t : Table} {hw : HwModeInfo} {c : Counts}
  {sz : Sizes}

section

variable (h : Made fw req s t hw c sz)
include h

theorem Made.exact : ∀ e ∈ tableEntries fw hw req req.kernelArgv c t.mm t.vpn sz.pages,
    16 ≤ entrySize e.payload ∧ Exact (headerSize req.kernelArgv) e (roomFor req c t e.type) := by
  intro e he
  have hpayload := h.plain.payload e he
  have hsize := entrySize_eq _ hpayload
  refine ⟨by omega, ?_⟩
  rcases List.mem_append.mp
    (show e ∈ firstEntries fw hw req c ++ framesEntry req c t.mm t.vpn sz.pages ::
    lastEntries req t.mm from he) with hfirst | hlast
  · have hroom : roomFor req c t e.type = True := by
      simp only [firstEntries, List.mem_cons, List.not_mem_nil, or_false] at hfirst
      rcases hfirst with rfl | rfl | rfl | rfl | rfl <;> rfl
    rw [hroom]
    exact (firstEntries_bounded h.plain e hfirst).exact
  · obtain ⟨hpt, hkn, -, -⟩ := countAll_frames h.counts
    obtain ⟨hbase, -⟩ := (countAll_small h.counts).base_eq
    simp only [lastEntries, List.mem_cons, List.not_mem_nil, or_false] at hlast
    rcases hlast with rfl | rfl | rfl
    · intro off b b' _ htop hfill
      have hiff := fillUnavailableFrames_top (by rw [hpt, countPagetableFrame]; omega)
        (by rw [hkn]; unfold Strata.alignDiv; omega) htop hfill
      rw [← h.pages] at hiff
      refine Iff.trans ?_ hiff
      dsimp only [framesEntry] at hsize ⊢
      rw [hsize, hbase, ← h.pages]
      omega
    · refine Bounded.exact ⟨hpayload, fun {off b b'} _ hfill => ?_⟩
      refine (Buf.put_writes hfill).1.mono fun a ha => ?_
      simpa using ha.2
    · intro off b b' _ htop hfill
      refine Iff.trans ?_ (fillRamdisk_top htop hfill)
      dsimp only at hsize ⊢
      rw [hsize]
      omega

end

/-! ## Tables on pages of their own -/

/-- The image as it was loaded: all its pages but the last are full, and its extents were counted
in the state at hand. -/
structure RamdiskImage.Loaded (image : RamdiskImage) (s : State) : Prop where
  pages   : (image.pageCount - 1) * 4096 ≤ image.size
  extents : countRamdiskFrameExtents s image = .ok image.extentCount

end Made

end FoliOS.Vellum.BootInfo
