import FoliOS.Strata.Basic
import FoliOS.Vellum.BootInfo.Frames
import FoliOS.Vellum.Mm.Runs

/-!
# Vellum — the boot information table (`load_folios/bootinfo.c`)

`Lf_MakeBootInfoTable` computes the size of the table, allocates it and fills it. The table is
a header with the string table, and eight entries, each a header and a payload. Two things
make the size depend on more than the inputs: frames that are in use are listed in runs, so
their number depends on the page tables, and the frames of the table are listed in the table.

Offsets are from the start of the table. Sizes are computed in 32 bits; `ALIGN` and
`ALIGN_DIV` are the macros of `macros.h`, which are those of the kernel. The table is mapped
over whatever pages have the numbers of its frames; the arguments are read again after that.
-/

namespace FoliOS.Vellum.BootInfo

open Lib Mm
open Strata (align alignDiv)

/-! ## Inputs -/

/-- `struct smap_entry`, its halves put together. -/
structure SmapEntry where
  base : Nat
  length : Nat
  type : Nat

/-- `struct video_hw_mode_info` -/
structure HwModeInfo where
  framebuffer : Nat
  width : Nat
  height : Nat
  pitch : Nat
  bpp : Nat
  memoryModel : Nat
  rmask : Nat
  rpos : Nat
  gmask : Nat
  gpos : Nat
  bmask : Nat
  bpos : Nat

/-- What the calls outside this file return. A query of the memory map depends on its cursor
only, so that asking twice gives the same entries. -/
structure Firmware where
  /-- The mode of `video0`: the device, its interface, the mode and its information. -/
  hwMode : Except VlStatus HwModeInfo
  /-- `VlBiosP_QueryMemoryMap`: an entry and the next cursor. -/
  queryMemoryMap : Nat → Except VlStatus (SmapEntry × Nat)
  /-- `VlAcpi_FindRsdp` -/
  findRsdp : Except VlStatus Nat

/-- The arguments of `Lf_MakeBootInfoTable`. -/
structure Request where
  programSize : Nat
  kernelArgv : List (List UInt8)
  /-- The pages the array and the strings lie on. -/
  argPages : List Nat
  /-- What `kernel_argv` reads as when `pages` pages from `vpn` on are those of the table. -/
  argvUnder : Nat → Nat → List (List UInt8)
  argvUnder_eq : ∀ vpn pages, (∀ p ∈ argPages, ¬ InRange vpn pages p) →
    argvUnder vpn pages = kernelArgv
  loadPaddr : Nat
  ramdisk : RamdiskImage
  argc : kernelArgv.length < 2 ^ 31
  strings : ∀ a ∈ kernelArgv, (0 : UInt8) ∉ a

/-! ## Counting -/

/-- The loop of `count_smap_entry`. -/
def countSmapEntryLoop (fw : Firmware) : Nat → Nat → Nat → Result Nat
  | 0, _, _ => .error .diverges
  | fuel + 1, cursor, count => do
    let (_, cursor) ← ofStatus (fw.queryMemoryMap cursor)
    if cursor = 0 then .ok (count + 1) else countSmapEntryLoop fw fuel cursor (count + 1)

/-- `count_smap_entry` -/
def countSmapEntry (fw : Firmware) : Result Nat := countSmapEntryLoop fw (2 ^ 31) 0 0

/-- `count_pagetable_frame` -/
def countPagetableFrame (s : State) : Nat :=
  1 + (List.range 1023).countP fun i => (s.tables s.cr3 i).p

/-- What is counted before the table is allocated. -/
structure Counts where
  /-- `mmap_entry_count` -/
  mmap : Nat
  /-- `pagetable_frame_count` -/
  pagetable : Nat
  /-- `kernel_page_count` -/
  kernelPages : Nat
  /-- `kernel_ufent_count` -/
  kernel : Nat
  /-- `ramdisk_ufent_count` -/
  ramdisk : Nat
  deriving DecidableEq, Repr

/-- `base_ufent_count` -/
def Counts.base (c : Counts) : Nat := (c.pagetable + c.kernel + c.ramdisk) % 2 ^ 32

def countAll (fw : Firmware) (req : Request) (s : State) : Result Counts := do
  let mmap ← countSmapEntry fw
  let kernelPages := alignDiv 32 req.programSize 4096
  let kernel ← countMappedFrameExtents s (req.loadPaddr / 4096) kernelPages none 0
  let ramdisk ← countRamdiskFrameExtents s req.ramdisk
  .ok ⟨mmap, countPagetableFrame s, kernelPages, kernel, ramdisk⟩

/-! ## Sizes -/

/-- The strings with their terminators. -/
def strtabSize (argv : List (List UInt8)) : Nat := (argv.map fun a => a.length + 1).sum

/-- `btblhdrsize`: the header, the arguments, and the strings of the loader. -/
def headerSize (argv : List (List UInt8)) : Nat :=
  align 32 (16 + strtabSize argv + 7 + 6 + 8) 16

/-- An entry of that many bytes of payload. -/
def entrySize (payload : Nat) : Nat := (16 + align 32 payload 16) % 2 ^ 32

/-- The payloads, in the order of the entries. -/
def payloadSizes (req : Request) (c : Counts) (bootinfo : Nat) : List Nat :=
  [4 + 4 * req.kernelArgv.length, 16, 4 + 24 * c.mmap, 8, 30, 4 + 16 * (c.base + bootinfo), 8,
    16 + 16 * req.ramdisk.extentCount]

/-- The sizes the table is allocated with. -/
structure Sizes where
  /-- `btblsize` -/
  table : Nat
  /-- `btbl_page_count`, which is `bootinfo_ufent_count` too -/
  pages : Nat
  deriving DecidableEq, Repr

/-- The loop that makes room for the frames of the table. -/
def sizeLoop (header base : Nat) : Nat → Nat → Nat → Nat → Result Sizes
  | 0, _, _, _ => .error .diverges
  | fuel + 1, entsize, unavailable, bootinfo =>
    let size := (header + entsize) % 2 ^ 32
    let pages := if alignDiv 32 size 4096 = 0 then 1 else alignDiv 32 size 4096
    if pages = bootinfo then .ok ⟨size, pages⟩
    else
      let unavailable' := align 32 (4 + 16 * base + 16 * pages) 16
      sizeLoop header base fuel ((entsize + (2 ^ 32 + unavailable' - unavailable)) % 2 ^ 32)
        unavailable' pages

/-- The size of the table. -/
def tableSize (req : Request) (c : Counts) : Result Sizes :=
  sizeLoop (headerSize req.kernelArgv) c.base (2 ^ 32)
    (((payloadSizes req c 0).map entrySize).sum % 2 ^ 32) (align 32 (4 + 16 * c.base) 16) 0

/-! ## Filling -/

/-- `BET_*`, those that are emitted -/
inductive EntryType where
  | commandArgs
  | loaderInfo
  | memoryMap
  | acpiRsdp
  | framebuffer
  | unavailableFrames
  | pagetableVpn
  | ramdisk
  deriving DecidableEq, Repr

def EntryType.code : EntryType → Nat
  | .commandArgs => 0
  | .loaderInfo => 1
  | .memoryMap => 2
  | .acpiRsdp => 4
  | .framebuffer => 5
  | .unavailableFrames => 8
  | .pagetableVpn => 9
  | .ramdisk => 10

/-- `struct StLoad_BootInfoTableHeader` -/
def tableHeader (headerSize entryCount size : Nat) : List UInt8 :=
  le 2 0 ++ le 2 0 ++ le 4 headerSize ++ le 2 entryCount ++ le 2 0 ++ le 4 size

/-- `struct StLoad_BootInfoEntryHeader`, with `BEF_REQUIRED` -/
def entryHeader (type : EntryType) (payload : Nat) : List UInt8 :=
  le 4 type.code ++ le 2 1 ++ le 2 16 ++ le 4 (entrySize payload)

/-- The loop over the arguments: the string goes to the string table, its offset to the
`i`-th place from `off` on. -/
def fillArgs (off : Nat) : List (List UInt8) → Nat → Nat → Buf → Result Buf
  | [], _, _, b => .ok b
  | a :: argv, i, cursor, b => do
    let b ← b.put (16 + cursor) (a ++ [0])
    let b ← b.put (off + 4 * i) (le 4 cursor)
    fillArgs off argv (i + 1) ((cursor + (a.length + 1)) % 2 ^ 32) b

def fillCommandArgs (argc : Nat) (argv : List (List UInt8)) (off : Nat) (b : Buf) : Result Buf := do
  let b ← b.put off (le 4 argc)
  fillArgs (off + 4) argv 0 0 b

def ascii (l : List Char) : List UInt8 := l.map fun c => UInt8.ofNat c.toNat

def loaderName : List UInt8 := ascii ['v', 'e', 'l', 'l', 'u', 'm']

def loaderVersion : List UInt8 := ascii ['0', '.', '0', '.', '1']

def loaderAuthor : List UInt8 := ascii ['k', 'm', 's', '1', '2', '1', '2']

/-- The strings of the loader follow those of the arguments. -/
def fillLoaderInfo (cursor off : Nat) (b : Buf) : Result Buf := do
  let b ← b.put off (le 4 0)
  fillArgs (off + 4) [loaderName, loaderVersion, loaderAuthor] 0 (cursor % 2 ^ 32) b

/-- The loop over the memory map. -/
def fillMemoryMapLoop (fw : Firmware) (off : Nat) : Nat → Nat → Nat → Buf → Result Buf
  | 0, _, _, b => .ok b
  | n + 1, i, cursor, b => do
    let (e, cursor) ← ofStatus (fw.queryMemoryMap cursor)
    let b ← b.put (off + 24 * i) (le 8 e.base ++ le 8 e.length ++ le 4 e.type)
    fillMemoryMapLoop fw off n (i + 1) cursor b

def fillMemoryMap (fw : Firmware) (count off : Nat) (b : Buf) : Result Buf := do
  let b ← b.put off (le 4 count)
  fillMemoryMapLoop fw (off + 4) count 0 0 b

def fillAcpiRsdp (fw : Firmware) (off : Nat) (b : Buf) : Result Buf := do
  let rsdp ← ofStatus fw.findRsdp
  b.put off (le 8 rsdp)

/-- `VMM_DIRECT` is 6. -/
def fillFramebuffer (hw : HwModeInfo) (off : Nat) (b : Buf) : Result Buf := do
  let b ← b.put off (le 8 hw.framebuffer ++ le 4 hw.width ++ le 4 hw.pitch ++ le 4 hw.height ++
    le 1 hw.bpp)
  if hw.memoryModel = 6 then
    let b ← b.put (off + 21) (le 1 1)
    b.put (off + 24) (le 1 hw.rpos ++ le 1 hw.rmask ++ le 1 hw.gpos ++ le 1 hw.gmask ++
      le 1 hw.bpos ++ le 1 hw.bmask)
  else b.put (off + 21) (le 1 0)

/-- The loop of `fill_pagetable_frame_entries` over the entries `is` of the directory. -/
def fillPagetableLoop (s : State) (off : Nat) : List Nat → Nat → Nat → Buf → Result Buf
  | [], _, _, b => .ok b
  | i :: is, filled, maxCount, b =>
    if !(s.tables s.cr3 i).p then fillPagetableLoop s off is filled maxCount b
    else if maxCount = 0 then .ok b
    else do
      let b ← b.put (off + 16 * filled) (rangeEntry (s.tables s.cr3 i).base 1 0)
      fillPagetableLoop s off is (filled + 1) (maxCount - 1) b

/-- `fill_pagetable_frame_entries` -/
def fillPagetableFrameEntries (s : State) (off maxCount : Nat) (b : Buf) : Result Buf :=
  if 0 < maxCount then do
    let b ← b.put off (rangeEntry s.cr3 1 0)
    fillPagetableLoop s off (List.range 1023) 1 (maxCount - 1) b
  else fillPagetableLoop s off (List.range 1023) 0 maxCount b

/-- The loop of `fill_bootinfo_frame_entries`. -/
def fillBootinfoFrameEntries (s : State) (off vpn : Nat) : Nat → Nat → Buf → Result Buf
  | 0, _, b => .ok b
  | n + 1, i, b => do
    let pfn ← ofStatus (vpnToPfn s ((vpn + i) % 2 ^ 32))
    let b ← b.put (off + 16 * i) (rangeEntry pfn 1 5)
    fillBootinfoFrameEntries s off vpn n (i + 1) b

/-- `&entries[i]` of a payload at `off` -/
def slotAt (off i : Nat) : Nat := off + 4 + 16 * i

/-- The four kinds of frames, each from the slot on that the counts leave for it. -/
def fillUnavailableFrames (s : State) (req : Request) (c : Counts) (vpn pages off : Nat) (b : Buf) :
    Result Buf := do
  let b ← b.put off (le 4 (c.base + pages))
  let b ← fillPagetableFrameEntries s (slotAt off 0) c.pagetable b
  let b ← fillFrameEntries s (slotAt off c.pagetable) 1 (req.loadPaddr / 4096) c.kernelPages 0 b
  let b ← fillRamdiskFrameEntries s req.ramdisk (slotAt off (c.pagetable + c.kernel)) b
  fillBootinfoFrameEntries s (slotAt off (c.pagetable + c.kernel + c.ramdisk)) vpn pages 0 b

/-- `_pc_page_dir` is `0xFFFFF000`. -/
def fillPagetableVpn (off : Nat) (b : Buf) : Result Buf := b.put off (le 8 0xFFFFF)

def fillRamdisk (s : State) (image : RamdiskImage) (off : Nat) (b : Buf) : Result Buf := do
  let b ← b.put off (le 1 0 ++ le 3 0 ++ le 4 image.size ++ le 4 image.extentCount ++ le 4 0)
  fillRamdiskExtents s image (off + 16) b

/-! ## The table -/

/-- An entry as it is emitted: `fill` writes the payload, given the offset of the payload. -/
structure Entry where
  type : EntryType
  payload : Nat
  fill : Nat → Buf → Result Buf

/-- The entries from `off` on, each after the other, and how far was written with each. -/
def emit : List Entry → Nat → Buf → Result (Buf × List Nat)
  | [], _, b => .ok (b, [])
  | e :: es, off, b => do
    let b ← b.put off (entryHeader e.type e.payload)
    let b ← e.fill (off + 16) b
    let (b', ends) ← emit es ((off + entrySize e.payload) % 2 ^ 32) b
    .ok (b', b.top :: ends)

/-- The entries, with the arguments as they read now. -/
def tableEntries (fw : Firmware) (hw : HwModeInfo) (req : Request) (argv : List (List UInt8))
    (c : Counts) (s : State) (vpn pages : Nat) : List Entry :=
  [⟨.commandArgs, 4 + 4 * req.kernelArgv.length, fillCommandArgs req.kernelArgv.length argv⟩,
    ⟨.loaderInfo, 16, fillLoaderInfo (strtabSize argv)⟩,
    ⟨.memoryMap, 4 + 24 * c.mmap, fillMemoryMap fw c.mmap⟩,
    ⟨.acpiRsdp, 8, fillAcpiRsdp fw⟩,
    ⟨.framebuffer, 30, fillFramebuffer hw⟩,
    ⟨.unavailableFrames, 4 + 16 * (c.base + pages), fillUnavailableFrames s req c vpn pages⟩,
    ⟨.pagetableVpn, 8, fillPagetableVpn⟩,
    ⟨.ramdisk, 16 + 16 * req.ramdisk.extentCount, fillRamdisk s req.ramdisk⟩]

/-- The table in memory, and the state of the memory it was made in. `ends` tells for each entry how
far had been written when it was done. -/
structure Table where
  mm : State
  vpn : Nat
  pages : Nat
  mem : Buf
  ends : List Nat

/-- The frames and pages of the table. -/
def allocateTable (s : State) (pages : Nat) : Result (State × Nat) :=
  match allocateIdentity s pages with
  | (st, s, vpn) =>
    if !st.ok then .error (.status st)
    else if windowVpn < vpn + pages then .error .inWindow
    else .ok (s, vpn)

/-- The loop of `main` and `_pc_init` over the entries: their types and offsets, and the
offset after the last. -/
def walk (m : Bytes) : Nat → Nat → List (Nat × Nat) × Nat
  | 0, off => ([], off)
  | n + 1, off =>
    let (l, stop) := walk m n (off + m.word 4 (off + 8))
    ((m.word 4 off, off) :: l, stop)

/-- The walk from the header on. -/
def walkTable (m : Bytes) : List (Nat × Nat) × Nat := walk m (m.word 2 8) (m.word 4 4)

end FoliOS.Vellum.BootInfo
