import Mathlib.Algebra.Group.Nat.Defs
import Mathlib.Logic.Function.Basic
import FoliOS.Vellum.Basic

/-!
# Vellum — loader memory (`mm/mm.c`)

A bitmap hands out physical frames, a counter that starts at 4 MiB and only goes up hands
out virtual pages, and one 32-bit page directory maps the one to the other. Entry 1023 of
the directory is the directory itself, so that the entry of page `vpn` is found at
`0xFFC00000 + 4 * vpn`: `State.pt` follows that path through the directory.

The frames that hold page tables are the only ones whose contents matter here. Page and
frame numbers are computed in 32 bits.
-/

namespace FoliOS.Vellum.Mm

/-! ## State -/

/-- The two bits `pma_bitmap` keeps of a frame. -/
inductive FrameMark where
  | free
  | allocated
  | reserved
  deriving DecidableEq, Repr

/-- `union VlA_PageTableEntry`; a directory entry has the same layout. -/
structure Pte where
  p : Bool
  rw : Bool
  us : Bool
  pwt : Bool
  pcd : Bool
  pat : Bool
  baseBits : BitVec 20
  deriving DecidableEq, Repr

/-- The frame an entry names. -/
def Pte.base (e : Pte) : Nat := e.baseBits.toNat

theorem Pte.base_lt (e : Pte) : e.base < 2 ^ 20 := e.baseBits.isLt

/-- An entry whose `raw` is 0. -/
def Pte.zero : Pte := ⟨false, false, false, false, false, false, 0⟩

/-- The entry `0x00000003 | (pfn << 12)`. -/
def Pte.present (pfn : Nat) : Pte := ⟨true, true, false, false, false, false, BitVec.ofNat 20 pfn⟩

/-- The statics of `mm.c`, `CR3` and the contents of the frames that hold page tables. -/
structure State where
  /-- `pma_base_pfn` -/
  basePfn : Nat
  /-- `pma_frame_desc_count` -/
  frameDescCount : Nat
  /-- `pma_bitmap` -/
  bitmap : Nat → FrameMark
  /-- `pma_free_frames` -/
  freeFrames : Nat
  /-- `alloc_vpn` -/
  allocVpn : Nat
  /-- The frame of the page directory. -/
  cr3 : Nat
  tables : Nat → Nat → Pte

/-- `PF_*` -/
structure PageFlags where
  readonly : Bool
  user : Bool
  nocache : Bool
  wtcache : Bool
  deriving DecidableEq, Repr

/-- `PF_DEFAULT` -/
def pfDefault : PageFlags := ⟨false, false, false, false⟩

/-! ## Frames -/

/-- The loop of `mm_pma_allocate_frame` over the last `n` descriptors: how many free frames
in a row it has seen and where they start. -/
def scan (bitmap : Nat → FrameMark) (count : Nat) : Nat → Nat → Nat → Nat → Nat × Nat
  | 0, _, freeCount, start => (freeCount, start)
  | n + 1, i, freeCount, start =>
    if bitmap i ≠ .free then scan bitmap count n (i + 1) 0 start
    else
      let start := if freeCount = 0 then i else start
      if freeCount + 1 ≥ count then (freeCount + 1, start)
      else scan bitmap count n (i + 1) (freeCount + 1) start

/-- The bitmap with `count` descriptors from `start` on set to `v`. -/
def setMarks (bitmap : Nat → FrameMark) (start count : Nat) (v : FrameMark) : Nat → FrameMark :=
  fun i => if start ≤ i ∧ i < start + count then v else bitmap i

/-- `mm_pma_allocate_frame` -/
def pmaAllocateFrame (s : State) (count : Nat) : VlStatus × State × Nat :=
  match scan s.bitmap count s.frameDescCount 0 0 0 with
  | (freeCount, start) =>
    if freeCount < count then (.insufficientMemory, s, 0)
    else
      (.success,
        { s with
          bitmap := setMarks s.bitmap start count .allocated
          freeFrames := s.freeFrames - count },
        s.basePfn + start)

/-- A round of the loop of `mm_pma_free_frame`. -/
def freeDescriptor (s : State) (i : Nat) : State :=
  if s.bitmap i ≠ .allocated then s
  else { s with bitmap := Function.update s.bitmap i .free, freeFrames := s.freeFrames + 1 }

/-- The descriptors the loop of `mm_pma_free_frame` goes over. The count of a range that runs over
the end is cut as the source cuts it; both sums are taken in 32 bits. -/
def freedDescriptors (s : State) (pfn count : Nat) : List Nat :=
  let limitPfn := s.basePfn + s.frameDescCount - 1
  if pfn < s.basePfn ∨ pfn > limitPfn then []
  else
    let count :=
      if (pfn + count) % 2 ^ 32 > limitPfn + 1 then count - (limitPfn + 1 - pfn) else count
    let start := pfn - s.basePfn
    List.range' start ((start + count) % 2 ^ 32 - start)

/-- `mm_pma_free_frame` -/
def pmaFreeFrame (s : State) (pfn count : Nat) : State :=
  (freedDescriptors s pfn count).foldl freeDescriptor s

/-! ## Page tables -/

/-- The directory entry of `vpn`. -/
def State.pde (s : State) (vpn : Nat) : Pte := s.tables s.cr3 (vpn / 1024)

/-- `pt[vpn]`, read through the directory. -/
def State.pt (s : State) (vpn : Nat) : Pte := s.tables (s.pde vpn).base (vpn % 1024)

def State.setEntry (s : State) (frame index : Nat) (e : Pte) : State :=
  { s with tables := Function.update s.tables frame (Function.update (s.tables frame) index e) }

/-- `mm_vpn_to_pfn` -/
def vpnToPfn (s : State) (vpn : Nat) : Except VlStatus Nat :=
  if vpn > 0xFFFFF then .error .invalidValue
  else if !(s.pde vpn).p then .error .pageNotPresent
  else if !(s.pt vpn).p then .error .pageNotPresent
  else .ok (s.pt vpn).base

/-- The directory entry of a new page table, and the table cleared through the window. -/
def State.addTable (s : State) (vpn newPtPfn : Nat) : State :=
  let s := s.setEntry s.cr3 (vpn / 1024) (.present newPtPfn)
  { s with tables := Function.update s.tables (s.pde vpn).base fun _ => .zero }

/-- The part of `map` that creates a missing page table. -/
def ensureTable (s : State) (vpn : Nat) : VlStatus × State :=
  if (s.pde vpn).p then (.success, s)
  else
    match pmaAllocateFrame s 1 with
    | (st, s, newPtPfn) =>
      if !st.ok then (st, s) else (.success, s.addTable vpn newPtPfn)

/-- The flags of a present entry differ from the requested ones. -/
def conflicts (flags : PageFlags) (e : Pte) : Bool :=
  (flags.readonly != !e.rw) || (flags.user != e.us) || (flags.nocache != (e.pat && e.pcd)) ||
    (flags.wtcache != (e.pat && e.pwt))

/-- The entry `map` writes. -/
def entryFor (pfn : Nat) (flags : PageFlags) : Pte where
  p := true
  rw := !flags.readonly
  us := flags.user
  pwt := flags.wtcache
  pcd := flags.nocache
  pat := flags.nocache || flags.wtcache
  baseBits := BitVec.ofNat 20 pfn

/-- `map` -/
def map (s : State) (pfn vpn : Nat) (flags : PageFlags) : VlStatus × State :=
  if vpn > 0xFFFFF then (.invalidValue, s)
  else
    match ensureTable s vpn with
    | (st, s) =>
      if !st.ok then (st, s)
      else if (s.pt vpn).p && conflicts flags (s.pt vpn) then (.conflictingState, s)
      else (.success, s.setEntry (s.pde vpn).base (vpn % 1024) (entryFor pfn flags))

/-- The loop of `mm_map`. -/
def mapPages (s : State) (pfn vpn : Nat) (flags : PageFlags) : Nat → VlStatus × State
  | 0 => (.success, s)
  | n + 1 =>
    match map s pfn vpn flags with
    | (st, s) => if !st.ok then (st, s) else mapPages s (pfn + 1) ((vpn + 1) % 2 ^ 32) flags n

/-- `unmap` -/
def unmap (s : State) (vpn : Nat) : State :=
  if vpn > 0xFFFFF then s
  else if !(s.pde vpn).p then s
  else if !(s.pt vpn).p then s
  else s.setEntry (s.pde vpn).base (vpn % 1024) .zero

/-! ## Pages -/

/-- A round of the loops of `mm_allocate_pages` and `mm_allocate_pages_to`: a page that is
already mapped is taken as it is. -/
def allocatePage (s : State) (vpn : Nat) : VlStatus × State :=
  match vpnToPfn s vpn with
  | .ok _ => (.success, s)
  | .error .pageNotPresent =>
    match pmaAllocateFrame s 1 with
    | (st, s, allocatedPfn) =>
      if !st.ok then (st, s) else mapPages s allocatedPfn vpn pfDefault 1
  | .error st => (st, s)

/-- `mm_allocate_pages_to` -/
def allocatePagesTo (s : State) (vpn : Nat) : Nat → VlStatus × State
  | 0 => (.success, s)
  | n + 1 =>
    match allocatePage s vpn with
    | (st, s) => if !st.ok then (st, s) else allocatePagesTo s ((vpn + 1) % 2 ^ 32) n

/-- `alloc_virt_page` -/
def allocVirtPage (s : State) (count : Nat) : State × Nat :=
  ({ s with allocVpn := (s.allocVpn + count) % 2 ^ 32 }, s.allocVpn)

/-- `mm_allocate_pages` -/
def allocatePages (s : State) (count : Nat) : VlStatus × State × Nat :=
  match allocVirtPage s count with
  | (s, vpn) =>
    match allocatePagesTo s vpn count with
    | (st, s) => (st, s, vpn)

/-- A round of the loop of `mm_free_pages`. -/
def freePage (s : State) (vpn : Nat) : State :=
  match vpnToPfn s vpn with
  | .ok pfn => pmaFreeFrame (unmap s vpn) pfn 1
  | .error _ => s

/-- `mm_free_pages` -/
def freePages (s : State) (vpn : Nat) : Nat → State
  | 0 => s
  | n + 1 => freePages (freePage s vpn) ((vpn + 1) % 2 ^ 32) n

/-! ## Start -/

/-- The page table of the first 4 MiB. -/
def identityTable : Nat → Pte := fun i => .present i

/-- The directory `init_page_directory` writes: the table of the first 4 MiB, nothing, and
the directory itself. -/
def bootDirectory (cr3 ptPfn : Nat) : Nat → Pte := fun i =>
  if i = 0 then .present ptPfn
  else if i = 1023 then .present cr3
  else { Pte.zero with rw := true }

/-- `init_page_directory` -/
def initPageDirectory (s : State) : VlStatus × State :=
  match pmaAllocateFrame s 1 with
  | (st, s, newPtPfn) =>
    if !st.ok then (st, s)
    else
      (.success,
        { s with
          tables := Function.update
            (Function.update s.tables newPtPfn identityTable) s.cr3
              (bootDirectory s.cr3 newPtPfn) })

end FoliOS.Vellum.Mm
