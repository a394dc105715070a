import FoliOS.Lib.Bitmap
import FoliOS.Strata.Basic

/-!
# Strata — the physical frame allocator (`mm/pmm.c`)

Frames are kept in three levels: 4096 slots of the pointer array, each for 16384
frames; a table of 512 entries for a slot that is neither wholly free nor wholly
unusable nor wholly allocated; and for each entry a buddy bitmap of its 32 frames or,
where some of them are unusable, 32 flags. Tables and extended entries come from two
early arrays, later from frames the allocator takes from itself: a call that needs a
new table may first call the allocator again to top up its pools.

Pointers become references (`TableRef`, `ExtRef`), the free lists lists of these. A
call that reaches `St_Panic` has no result. Two fields are not in the source: `runs`,
the runs handed out, and `overwritten`, the number of times a
table pointer was stored over another one.
-/

namespace FoliOS.Strata.Pmm

open Function Lib

/-! ## Constants -/

/-- `PAGES_PER_ALLOCTABLE_ENTRY` -/
def entryFrames : Nat := 32

/-- `ALLOC_TABLE_ENTRY_COUNT` -/
def tableEntries : Nat := 512

/-- `ALLOC_TABLE_COVERAGE_PAGES` -/
def tableFrames : Nat := 16384

/-- `ALLOC_TABLE_PTR_ARRAY_SIZE` -/
def slotCount : Nat := 4096

/-- `ATPA_COVERAGE_PAGES` -/
def frameLimit : Nat := 2 ^ 26

/-- `EARLY_ALLOC_TABLE_POOL_COUNT` and `EARLY_EXTENDED_ENTRY_POOL_COUNT` -/
def earlyCount : Nat := 128

/-- `PAGE_SIZE / sizeof(struct extended_entry)` -/
def extsPerFrame : Nat := 128

/-- `METADATA_BLOCK_COVERAGE_PAGES` -/
def metadataBlockFrames : Nat := 64

/-- `PMM_MAX_ORDER` -/
def maxOrder : Nat := 26

def sizeLimit : Nat := 2 ^ 64

/-- `(St_PhysFrame)-1` -/
def noFrame : Nat := sizeLimit - 1

def afPmmBelowNone : AllocFlags := 0x0
def afPmmBelow1M : AllocFlags := 0x1
def afPmmBelow16M : AllocFlags := 0x2
def afPmmBelow4G : AllocFlags := 0x3
def afDefault : AllocFlags := 0x0

/-! ## Buddy bitmaps -/

abbrev Bitmap := BitVec 64

/-- `ALLOCENT_BMP_FREE` -/
def bmpFree : Bitmap := 0x0

/-- `ALLOCENT_BMP_FULL_ALLOC` -/
def bmpFullAlloc : Bitmap := 0x7FFFFFFFFFFFFFFF

/-- `ALLOCENT_BMP_1P_POS` to `ALLOCENT_BMP_32P_POS` -/
def levelPos : Nat → Nat
  | 0 => 0
  | 1 => 32
  | 2 => 48
  | 3 => 56
  | 4 => 60
  | _ => 62

/-- `ALLOCENT_BMP_1P_MASK` to `ALLOCENT_BMP_32P_MASK` -/
def levelMask : Nat → Option Bitmap
  | 0 => some 0x00000000FFFFFFFF
  | 1 => some 0x0000FFFF00000000
  | 2 => some 0x00FF000000000000
  | 3 => some 0x0F00000000000000
  | 4 => some 0x3000000000000000
  | 5 => some 0x4000000000000000
  | _ => none

/-- `alloc_masks` -/
def allocMasks : List Bitmap := [
  0x0000000000000001, 0x0000000000000002, 0x0000000000000004, 0x0000000000000008,
  0x0000000000000010, 0x0000000000000020, 0x0000000000000040, 0x0000000000000080,
  0x0000000000000100, 0x0000000000000200, 0x0000000000000400, 0x0000000000000800,
  0x0000000000001000, 0x0000000000002000, 0x0000000000004000, 0x0000000000008000,
  0x0000000000010000, 0x0000000000020000, 0x0000000000040000, 0x0000000000080000,
  0x0000000000100000, 0x0000000000200000, 0x0000000000400000, 0x0000000000800000,
  0x0000000001000000, 0x0000000002000000, 0x0000000004000000, 0x0000000008000000,
  0x0000000010000000, 0x0000000020000000, 0x0000000040000000, 0x0000000080000000,
  0x0000000100000003, 0x000000020000000C, 0x0000000400000030, 0x00000008000000C0,
  0x0000001000000300, 0x0000002000000C00, 0x0000004000003000, 0x000000800000C000,
  0x0000010000030000, 0x00000200000C0000, 0x0000040000300000, 0x0000080000C00000,
  0x0000100003000000, 0x000020000C000000, 0x0000400030000000, 0x00008000C0000000,
  0x000100030000000F, 0x0002000C000000F0, 0x0004003000000F00, 0x000800C00000F000,
  0x00100300000F0000, 0x00200C0000F00000, 0x004030000F000000, 0x0080C000F0000000,
  0x0103000F000000FF, 0x020C00F00000FF00, 0x04300F0000FF0000, 0x08C0F000FF000000,
  0x130F00FF0000FFFF, 0x2CF0FF00FFFF0000,
  bmpFullAlloc]

/-- The mask of a run, as the two `switch` statements choose it. -/
def runMask (index : Nat) : Nat → Option Bitmap
  | 0 => allocMasks[index]?
  | 1 => allocMasks[32 + index / 2]?
  | 2 => allocMasks[48 + index / 4]?
  | 3 => allocMasks[56 + index / 8]?
  | 4 => allocMasks[60 + index / 16]?
  | 5 => allocMasks[62]?
  | _ => none

/-- The loop of `propagate_up`, `n` levels up from node `idx` of level `o`. -/
def propagateUp (set : Bool) : Nat → Nat → Nat → Bitmap → Bitmap
  | 0, _, _, e => e
  | n + 1, o, idx, e =>
    let parent := levelPos (o + 1) + idx / 2
    let sibling := levelPos o + (idx ^^^ 1)
    if set then propagateUp set n (o + 1) (idx / 2) (e ||| 1#64 <<< parent)
    else if e &&& 1#64 <<< sibling = 0 then
      propagateUp set n (o + 1) (idx / 2) (e &&& ~~~(1#64 <<< parent))
    else e

/-- `find_free_frame_idx_bitmap_entry`; `none` is -1. -/
def findFreeFrameIdxBitmapEntry (entry : Bitmap) (alignOrder : Nat) : Option Nat :=
  match levelMask alignOrder with
  | none => none
  | some mask =>
    let inverted := ~~~entry &&& mask
    if inverted = 0 then none
    else some ((ctz inverted - levelPos alignOrder) * 2 ^ alignOrder)

/-- `allocate_from_bitmap_entry` -/
def allocateFromBitmapEntry (entry : Bitmap) (index order : Nat) : Bitmap :=
  match runMask index order with
  | none => entry
  | some mask => propagateUp true (5 - order) order (index / 2 ^ order) (entry ||| mask)

/-- `free_to_bitmap_entry` -/
def freeToBitmapEntry (entry : Bitmap) (index order : Nat) : Bitmap :=
  match runMask index order with
  | none => entry
  | some mask => propagateUp false (5 - order) order (index / 2 ^ order) (entry &&& ~~~mask)

/-! ## State -/

/-- A table of the early array, or one that fills a frame. -/
inductive TableRef where
  | early (k : Nat)
  | frame (pfn : Nat)
  deriving DecidableEq, Repr

/-- An extended entry of the early array, or the `k`-th one in a frame. -/
inductive ExtRef where
  | early (k : Nat)
  | frame (pfn k : Nat)
  deriving DecidableEq, Repr

/-- `EE_FREE`, `EE_USED`, `EE_UNUSABLE`, also the decoded state of a frame. -/
inductive Flag where
  | free
  | used
  | unusable
  deriving DecidableEq, Repr

/-- `union alloc_table_entry` -/
inductive Entry where
  | bitmap (b : Bitmap)
  | ext (x : ExtRef)
  | unusable
  deriving DecidableEq, Repr

/-- The hint bits of a slot with a table, by `ATPA_ORDER_BMP_IDX`. -/
abbrev Hint := BitVec 12

/-- A slot of `alloc_table_ptr_array`. -/
inductive Slot where
  | unusable
  | hugeAlloc
  | free
  | table (t : TableRef) (hint : Hint)
  deriving DecidableEq, Repr

/-- The two management pools. -/
inductive Pool where
  | tables
  | exts
  deriving DecidableEq, Repr

/-- `struct pmm_metadata` -/
structure Metadata where
  refcount : Nat
  order : Nat
  owner : Option Nat

/-- What the allocator reads and writes of a `struct StAllocationOwner`. -/
structure Owner where
  closed : Bool
  refs : Nat
  pageUsageCount : Nat
  pageUsagePeakCount : Nat

/-- What a run was handed out for. -/
inductive Holder where
  | client
  | pool (p : Pool)
  | pageTable
  deriving DecidableEq, Repr

/-- `2 ^ order` frames from `base` on. -/
structure Run where
  base : Nat
  order : Nat
  holder : Holder
  deriving DecidableEq, Repr

structure State where
  atpa : Nat → Slot
  tables : TableRef → Nat → Entry
  exts : ExtRef → Nat → Flag
  earlyTables : Nat
  earlyExts : Nat
  tablePool : List Nat
  extPool : List ExtRef
  topping : Pool → Bool
  totalFrames : Nat
  freeFrames : Nat
  allocationAvailable : Bool
  remarkingUnavailable : Bool
  metadataAvailable : Bool
  metadata : Nat → Metadata
  owners : Nat → Owner
  runs : List Run
  overwritten : Nat

def State.setSlot (s : State) (i : Nat) (v : Slot) : State :=
  { s with atpa := update s.atpa i v }

/-- Entries `j` to `j + n - 1` of a table become `v`. -/
def State.setEntries (s : State) (t : TableRef) (j n : Nat) (v : Entry) : State :=
  { s with tables := update s.tables t fun e =>
      if j ≤ e ∧ e < j + n then v else s.tables t e }

/-- Flags `k` to `k + n - 1` of an extended entry become `v`. -/
def State.setFlags (s : State) (x : ExtRef) (k n : Nat) (v : Flag) : State :=
  { s with exts := update s.exts x fun e =>
      if k ≤ e ∧ e < k + n then v else s.exts x e }

/-! ## Hints -/

/-- `ATPA_ORDER_BMP_IDX` -/
def hintIdx (order : Nat) : Nat := if order ≤ 2 then 0 else order - 2

/-- `ATPA_ORDER_BMP_GET` -/
def hintGet (h : Hint) (order : Nat) : Bool := h.getLsbD (hintIdx order)

/-- `ATPA_ORDER_BMP_CLR`: this order and all above it. -/
def hintClear (h : Hint) (order : Nat) : Hint := h &&& (1#12 <<< hintIdx order - 1)

/-- `ATPA_ORDER_BMP_MASK` -/
def hintAll : Hint := 0xFFF

/-! ## Management pools -/

/-- The result of a call of the allocator: a status, the frame number written to the
caller's variable if one was, and the state; `none` is `St_Panic`. -/
abbrev Outcome := Option (StStatus × Option Nat × State)

/-- `get_alloctbl_pool_remaining` and `get_extentry_pool_remaining` -/
def State.remaining (s : State) : Pool → Nat
  | .tables => (earlyCount - s.earlyTables) + s.tablePool.length
  | .exts => (earlyCount - s.earlyExts) + s.extPool.length

/-- `ALLOC_TABLE_POOL_LOW_WATERMARK` and `EXTENTRY_POOL_LOW_WATERMARK` -/
def lowWatermark : Pool → Nat
  | .tables => 8
  | .exts => 16

/-- The latest run, if it starts at `pfn`, now belongs to a pool. -/
def relabel (pfn : Nat) (p : Pool) : List Run → List Run
  | [] => []
  | r :: rest => if r.base = pfn then { r with holder := .pool p } :: rest else r :: rest

/-- `push_dynamic_alloc_table`, and `push_dynamic_extentry` for all that fit in a frame. -/
def State.fill (s : State) (pfn : Nat) : Pool → State
  | .tables => { s with tablePool := pfn :: s.tablePool, runs := relabel pfn .tables s.runs }
  | .exts =>
    { s with
      extPool := ((List.range extsPerFrame).map (ExtRef.frame pfn)).reverse ++ s.extPool
      runs := relabel pfn .exts s.runs }

/-- `topup_alloc_table_pool` and `topup_extentry_pool`; `nested` is the allocator. -/
def topup (nested : State → Outcome) (s : State) (p : Pool) : Option (StStatus × State) :=
  if !s.allocationAvailable then some (.conflictingState, s)
  else if s.topping p then some (.success, s)
  else
    match nested { s with topping := update s.topping p true } with
    | none => none
    | some (st, pfn, s) =>
      let s := if checkSuccess st then s.fill (pfn.getD noFrame) p else s
      some (st, { s with topping := update s.topping p false })

/-- A pool that `maybe_topup_management_pools` tops up. -/
def State.due (s : State) (p : Pool) : Bool :=
  !s.topping p && decide (s.remaining p ≤ lowWatermark p)

/-- One half of `maybe_topup_management_pools`; a failure is only logged. -/
def maybeTopup (nested : State → Outcome) (s : State) (p : Pool) : Option State :=
  if s.due p then (topup nested s p).map (·.2) else some s

/-- `maybe_topup_management_pools` -/
def maybeTopupManagementPools (nested : State → Outcome) (s : State) : Option State :=
  if !s.allocationAvailable then some s
  else (maybeTopup nested s .tables).bind fun s => maybeTopup nested s .exts

/-- The second try for a pool that is still empty. -/
def topupEmpty (nested : State → Outcome) (s : State) (p : Pool) : Option (StStatus × State) :=
  if s.remaining p = 0 ∧ s.topping p = false ∧ s.allocationAvailable = true then topup nested s p
  else some (.success, s)

/-- The end of `get_or_create_table`: a new table for slot `i`. -/
def State.install (s : State) (i : Nat) (t : TableRef) (asFree : Bool) : State :=
  { s with
    tables := update s.tables t fun _ => if asFree then .bitmap bmpFree else .unusable
    atpa := update s.atpa i (.table t hintAll)
    overwritten := match s.atpa i with
      | .table _ _ => s.overwritten + 1
      | _ => s.overwritten }

/-- Where the pointer of a slot of a huge allocation leads. -/
def wildTable : TableRef := .frame sizeLimit

/-- The next table of the pools, for slot `i`. -/
def State.newTable (s : State) (i : Nat) (asFree : Bool) : Except StStatus TableRef × State :=
  if s.earlyTables < earlyCount then
    let t := .early s.earlyTables
    (.ok t, { s with earlyTables := s.earlyTables + 1 }.install i t asFree)
  else
    match s.tablePool with
    | pfn :: rest => (.ok (.frame pfn), { s with tablePool := rest }.install i (.frame pfn) asFree)
    | [] => (.error .insufficientMemory, s)

/-- `get_or_create_table` for a slot without a table. -/
def createTable (nested : State → Outcome) (s : State) (i : Nat) (asFree : Bool) :
    Option (Except StStatus TableRef × State) :=
  (maybeTopupManagementPools nested s).bind fun s =>
  (topupEmpty nested s .tables).bind fun (st, s) =>
  if !checkSuccess st then some (.error st, s) else some (s.newTable i asFree)

/-- `get_or_create_table` -/
def getOrCreateTable (nested : State → Outcome) (s : State) (i : Nat) :
    Option (Except StStatus TableRef × State) :=
  if i ≥ slotCount then some (.error .invalidValue, s)
  else
    match s.atpa i with
    | .table t _ => some (.ok t, s)
    | .hugeAlloc => some (.ok wildTable, s)
    | .free => createTable nested s i true
    | .unusable => createTable nested s i false

/-- The end of `get_or_create_extentry`: a new extended entry for entry `j` of a table. -/
def State.installExt (s : State) (t : TableRef) (j : Nat) (x : ExtRef) (asUnusable : Bool) :
    State :=
  { s with exts := update s.exts x fun _ => if asUnusable then .unusable else .free
    }.setEntries t j 1 (.ext x)

/-- The next extended entry of the pools, for entry `j` of a table. -/
def State.newExt (s : State) (t : TableRef) (j : Nat) (asUnusable : Bool) :
    Except StStatus ExtRef × State :=
  if s.earlyExts < earlyCount then
    let x := .early s.earlyExts
    (.ok x, { s with earlyExts := s.earlyExts + 1 }.installExt t j x asUnusable)
  else
    match s.extPool with
    | x :: rest => (.ok x, { s with extPool := rest }.installExt t j x asUnusable)
    | [] => (.error .insufficientMemory, s)

/-- `get_or_create_extentry` for an entry that is not extended yet. -/
def createExt (nested : State → Outcome) (s : State) (t : TableRef) (j : Nat) (asUnusable : Bool) :
    Option (Except StStatus ExtRef × State) :=
  (maybeTopupManagementPools nested s).bind fun s =>
  (topupEmpty nested s .exts).bind fun (st, s) =>
  if !checkSuccess st then some (.error st, s) else some (s.newExt t j asUnusable)

/-- `get_or_create_extentry` -/
def getOrCreateExtentry (nested : State → Outcome) (s : State) (t : TableRef) (j : Nat) :
    Option (Except StStatus ExtRef × State) :=
  if j ≥ tableEntries then some (.error .invalidValue, s)
  else
    match s.tables t j with
    | .ext x => some (.ok x, s)
    | .unusable => createExt nested s t j true
    | .bitmap _ => createExt nested s t j false

/-! ## Allocation: the request -/

/-- `get_order`; `none` is -1. -/
def getOrder (count : Nat) : Option Nat :=
  if count = 0 then none
  else if count ≤ 1 then some 0
  else some (Nat.log2 (count - 1) + 1)

structure Request where
  count : Nat
  owner : Option Nat
  flags : AllocFlags

/-- What the argument checks work out: the order, and where the two searches start and
how far they step. -/
structure Plan where
  order : Nat
  alignOrder : Nat
  slotStart : Nat
  slotJump : Nat
  entryStart : Nat
  entryJump : Nat

/-- `max(order, alignment - 12)` -/
def alignOrderOf (order : Nat) (flags : AllocFlags) : Nat :=
  let a := (flags &&& afAlignMask).toNat / 16 - 12
  if a < order then order else a

/-- The limits of a `AF_PMM_BELOW_*` value: the largest order, the number of slots and the
last entry of a table. -/
def belowLimits (flags : AllocFlags) : Option (Nat × Nat × Nat) :=
  let below := flags &&& afPmmBelowMask
  if below = afPmmBelowNone then some (maxOrder, slotCount, tableEntries)
  else if below = afPmmBelow1M then some (8, 1, 8)
  else if below = afPmmBelow16M then some (12, 1, 128)
  else if below = afPmmBelow4G then some (20, 64, tableEntries)
  else none

/-- The checks at the head of `StPmm_AllocateContiguousFrame`. -/
def makePlan (s : State) (r : Request) : Except StStatus Plan :=
  if !s.allocationAvailable then .error .conflictingState
  else
    match getOrder r.count with
    | none => .error .invalidValue
    | some order =>
      if order > maxOrder then .error .insufficientMemory
      else if r.owner.any fun o => (s.owners o).closed then .error .conflictingState
      else
        let alignOrder := alignOrderOf order r.flags
        if alignOrder > maxOrder then .error .insufficientMemory
        else
          match belowLimits r.flags with
          | none => .error .invalidValue
          | some (top, slots, lastEntry) =>
            if order > top then .error .insufficientMemory
            else
              let slotJump := if alignOrder > 13 then 2 ^ (alignOrder - 13) else 1
              let entryJump := if alignOrder > 5 then 2 ^ (alignOrder - 5) else 1
              let entryStart := (tableEntries - 1) / entryJump * entryJump
              .ok {
                order
                alignOrder
                slotStart := (slots - 1) / slotJump * slotJump
                slotJump
                entryStart := if entryStart > lastEntry then lastEntry else entryStart
                entryJump }

/-! ## Allocation: the searches -/

/-- The values of `for (i = start; i >= 0; i -= jump)`. -/
def downFrom (start jump : Nat) : List Nat :=
  (List.range (start / jump + 1)).map fun k => start - k * jump

/-- Where a search for less than a slot ended: at a free slot, which needs a table, or
in entry `j` of a table, from frame `k` on. -/
inductive Target where
  | fresh (i : Nat)
  | inside (i : Nat) (t : TableRef) (j k : Nat)
  deriving DecidableEq, Repr

/-- The loop over slots of a normal and of a small allocation. A table without room
loses its hints for this order and those above. -/
def scanSlots (order : Nat) (takeFree : Bool) (room : State → TableRef → Option (Nat × Nat)) :
    List Nat → State → State × Option Target
  | [], s => (s, none)
  | i :: is, s =>
    match s.atpa i with
    | .free =>
      if takeFree then (s, some (.fresh i)) else scanSlots order takeFree room is s
    | .hugeAlloc => scanSlots order takeFree room is s
    | .unusable => scanSlots order takeFree room is s
    | .table t hint =>
      if !hintGet hint order then scanSlots order takeFree room is s
      else
        match room s t with
        | some (j, k) => (s, some (.inside i t j k))
        | none => scanSlots order takeFree room is (s.setSlot i (.table t (hintClear hint order)))

/-- `n` free slots from `i` on. -/
def freeSlots (s : State) (n i : Nat) : Bool :=
  decide (i + n ≤ slotCount) && (List.range n).all fun j => s.atpa (i + j) = .free

/-- `n` free entries from `j` on. -/
def freeEntries (s : State) (t : TableRef) (n j : Nat) : Bool :=
  decide (j + n ≤ tableEntries) && (List.range n).all fun k => s.tables t (j + k) = .bitmap bmpFree

/-- `n` free flags from `k` on. -/
def freeFlags (s : State) (x : ExtRef) (n k : Nat) : Bool :=
  decide (k + n ≤ entryFrames) && (List.range n).all fun e => s.exts x (k + e) = .free

/-- The entries of a table a normal allocation takes. -/
def entryRoom (p : Plan) (start : Nat) (s : State) (t : TableRef) : Option (Nat × Nat) :=
  ((downFrom start p.entryJump).find? (freeEntries s t (2 ^ (p.order - 5)))).map (·, 0)

/-- The frames of an extended entry a small allocation takes. -/
def extRoom (p : Plan) (s : State) (x : ExtRef) : Option Nat :=
  let jump := if p.alignOrder > 12 then 2 ^ (p.alignOrder - 12) else 1
  (downFrom ((entryFrames - 1) / jump * jump) jump).find? (freeFlags s x (2 ^ p.order))

/-- The frames of an entry a small allocation takes. -/
def frameRoomAt (p : Plan) (s : State) (t : TableRef) (j : Nat) : Option (Nat × Nat) :=
  match s.tables t j with
  | .unusable => none
  | .ext x => (extRoom p s x).map (j, ·)
  | .bitmap b => (findFreeFrameIdxBitmapEntry b p.alignOrder).map (j, ·)

/-- The frames of a table a small allocation takes. -/
def frameRoom (p : Plan) (s : State) (t : TableRef) : Option (Nat × Nat) :=
  (downFrom p.entryStart p.entryJump).findSome? (frameRoomAt p s t)

/-- `normal_table_search_start` -/
def normalStart (p : Plan) : Nat :=
  let last := tableEntries - 2 ^ (p.order - 5)
  if p.entryStart > last then last / p.entryJump * p.entryJump else p.entryStart

/-- The search of a normal allocation. -/
def normalSearch (p : Plan) (s : State) : State × Option Target :=
  scanSlots p.order (decide (normalStart p + 2 ^ (p.order - 5) ≤ tableEntries))
    (entryRoom p (normalStart p)) (downFrom p.slotStart p.slotJump) s

/-- The search of a small allocation. -/
def smallSearch (p : Plan) (s : State) : State × Option Target :=
  scanSlots p.order true (frameRoom p) (downFrom p.slotStart p.slotJump) s

/-! ## Allocation: taking what was found -/

/-- `create_metadata` -/
def createMetadata (s : State) (pfn : Nat) (owner : Option Nat) (order : Nat) : State :=
  if !s.metadataAvailable then s
  else
    let s := { s with metadata := update s.metadata pfn ⟨1, order, owner⟩ }
    match owner with
    | none => s
    | some o =>
      let w := s.owners o
      let usage := w.pageUsageCount + 2 ^ order
      let peak := if w.pageUsagePeakCount < usage then usage else w.pageUsagePeakCount
      { s with owners := update s.owners o ⟨w.closed, w.refs + 1, usage, peak⟩ }

/-- The common end of the three paths. -/
def finish (s : State) (pfn : Nat) (owner : Option Nat) (order : Nat) : Outcome :=
  let s := createMetadata s pfn owner order
  some (.success, some pfn, { s with
    freeFrames := (s.freeFrames + sizeLimit - 2 ^ order) % sizeLimit
    runs := ⟨pfn, order, if s.metadataAvailable then .client else .pageTable⟩ :: s.runs })

/-- A huge allocation: `2 ^ (order - 14)` whole slots. -/
def allocateHuge (s : State) (owner : Option Nat) (p : Plan) : Outcome :=
  let n := 2 ^ (p.order - 14)
  if n > slotCount then some (.insufficientMemory, none, s)
  else
    match (downFrom p.slotStart p.slotJump).find? (freeSlots s n) with
    | none => some (.insufficientMemory, none, s)
    | some i =>
      finish { s with atpa := fun j => if i ≤ j ∧ j < i + n then .hugeAlloc else s.atpa j }
        (i * tableFrames) owner p.order

/-- Entries `j` on of the table of slot `i`. -/
def takeEntries (s : State) (owner : Option Nat) (p : Plan) (i : Nat) (t : TableRef) (j : Nat) :
    Outcome :=
  finish (s.setEntries t j (2 ^ (p.order - 5)) (.bitmap bmpFullAlloc))
    (i * tableFrames + j * entryFrames) owner p.order

/-- A normal allocation: `2 ^ (order - 5)` whole entries of a table. -/
def allocateNormal (nested : State → Outcome) (s : State) (owner : Option Nat) (p : Plan) :
    Outcome :=
  if 2 ^ (p.order - 5) > tableEntries then some (.insufficientMemory, none, s)
  else
    match normalSearch p s with
    | (s, none) => some (.insufficientMemory, none, s)
    | (s, some (.inside i t j _)) => takeEntries s owner p i t j
    | (s, some (.fresh i)) =>
      (getOrCreateTable nested s i).bind fun
        | (.error st, s) => some (st, none, s)
        | (.ok t, s) => takeEntries s owner p i t (normalStart p)

/-- Frames `k` on of entry `j` of the table of slot `i`. -/
def takeFrames (s : State) (owner : Option Nat) (p : Plan) (i : Nat) (t : TableRef) (j k : Nat) :
    Outcome :=
  let s := match s.tables t j with
    | .ext x => s.setFlags x k (2 ^ p.order) .used
    | .bitmap b => s.setEntries t j 1 (.bitmap (allocateFromBitmapEntry b k p.order))
    | .unusable => s
  finish s (i * tableFrames + j * entryFrames + k) owner p.order

/-- A small allocation: frames of one entry. A search that ends without a target falls
through to `success`. -/
def allocateSmall (nested : State → Outcome) (s : State) (owner : Option Nat) (p : Plan) :
    Outcome :=
  if p.entryStart ≥ tableEntries then some (.insufficientMemory, none, s)
  else
    match smallSearch p s with
    | (s, none) => some (.success, none, s)
    | (s, some (.inside i t j k)) => takeFrames s owner p i t j k
    | (s, some (.fresh i)) =>
      (getOrCreateTable nested s i).bind fun
        | (.error st, s) => some (st, none, s)
        | (.ok t, s) =>
          match s.tables t p.entryStart with
          | .bitmap b =>
            match findFreeFrameIdxBitmapEntry b p.alignOrder with
            | some k => takeFrames s owner p i t p.entryStart k
            | none => none
          | _ => none

/-- The body of `StPmm_AllocateContiguousFrame`; `nested` stands for the calls it makes
to itself through the top-ups. -/
def allocateWith (nested : State → Outcome) (s : State) (r : Request) : Outcome :=
  match makePlan s r with
  | .error st => some (st, none, s)
  | .ok p =>
    if p.order ≥ 14 then allocateHuge s r.owner p
    else if p.order ≥ 5 then allocateNormal nested s r.owner p
    else allocateSmall nested s r.owner p

/-- One frame, for a pool. -/
def topupRequest : Request := ⟨1, none, afDefault⟩

/-- The calls made by a top-up. Each call inside another one finds one more pool being
topped up, so that the third makes no calls. -/
def allocateNested : Nat → State → Outcome
  | 0, s => some (.conflictingState, none, s)
  | d + 1, s => allocateWith (allocateNested d) s topupRequest

/-- `StPmm_AllocateContiguousFrame` -/
def stPmmAllocateContiguousFrame (s : State) (r : Request) : Outcome :=
  allocateWith (allocateNested 2) s r

/-! ## Marking -/

/-- `StPmm_Init`, on the zeroed variables of a fresh kernel. -/
def initialState : State where
  atpa _ := .unusable
  tables _ _ := .bitmap bmpFree
  exts _ _ := .free
  earlyTables := 0
  earlyExts := 0
  tablePool := []
  extPool := []
  topping _ := false
  totalFrames := 0
  freeFrames := 0
  allocationAvailable := false
  remarkingUnavailable := false
  metadataAvailable := false
  metadata _ := ⟨0, 0, none⟩
  owners _ := ⟨false, 0, 0, 0⟩
  runs := []
  overwritten := 0

/-- What a range is marked as. -/
inductive Marking where
  | usable
  | unusable
  deriving DecidableEq, Repr

def Marking.slot : Marking → Slot
  | .usable => .free
  | .unusable => .unusable

def Marking.entry : Marking → Entry
  | .usable => .bitmap bmpFree
  | .unusable => .unusable

def Marking.flag : Marking → Flag
  | .usable => .free
  | .unusable => .unusable

/-- The loop over the frames of an extended entry. -/
def markFrames (m : Marking) (x : ExtRef) (entry limit : Nat) : Nat → Nat → State → Nat × State
  | 0, base, s => (base, s)
  | n + 1, base, s =>
    if base ≤ limit ∧ base % tableFrames / entryFrames = entry then
      markFrames m x entry limit n (base + 1) (s.setFlags x (base % entryFrames) 1 m.flag)
    else (base, s)

/-- The loop over the entries of a table. -/
def markEntries (m : Marking) (t : TableRef) (slot limit : Nat) :
    Nat → Nat → State → Option (StStatus × Nat × State)
  | 0, base, s => some (.success, base, s)
  | n + 1, base, s =>
    if base ≤ limit ∧ base / tableFrames = slot then
      let entry := base % tableFrames / entryFrames
      if base % entryFrames = 0 ∧ limit ≥ base + entryFrames - 1 then
        markEntries m t slot limit n (base + entryFrames) (s.setEntries t entry 1 m.entry)
      else
        (getOrCreateExtentry (allocateNested 2) s t entry).bind fun
          | (.error st, s) => some (st, base, s)
          | (.ok x, s) =>
            let (base, s) := markFrames m x entry limit entryFrames base s
            markEntries m t slot limit n base s
    else some (.success, base, s)

/-- The loop over slots. -/
def markSlots (m : Marking) (limit : Nat) : Nat → Nat → State → Option (StStatus × State)
  | 0, _, s => some (.success, s)
  | n + 1, base, s =>
    if base ≤ limit ∧ base < frameLimit then
      if base % tableFrames = 0 ∧ limit ≥ base + tableFrames - 1 then
        markSlots m limit n (base + tableFrames) (s.setSlot (base / tableFrames) m.slot)
      else
        (getOrCreateTable (allocateNested 2) s (base / tableFrames)).bind fun
          | (.error st, s) => some (st, s)
          | (.ok t, s) =>
            (markEntries m t (base / tableFrames) limit tableEntries base s).bind
              fun (st, base, s) =>
            if !checkSuccess st then some (st, s) else markSlots m limit n base s
    else some (.success, s)

/-- `StPmm_MarkUsableContiguousFrame` and `StPmm_MarkUnusableContiguousFrame`. The first keeps
the table it is at between rounds; a round never goes back to the table of the one before. -/
def markContiguousFrame (m : Marking) (s : State) (base limit : Nat) : Option (StStatus × State) :=
  if s.remarkingUnavailable then some (.conflictingState, s)
  else markSlots m limit slotCount base s

/-- `StPmm_MarkUsableContiguousFrame` -/
def stPmmMarkUsableContiguousFrame : State → Nat → Nat → Option (StStatus × State) :=
  markContiguousFrame .usable

/-- `StPmm_MarkUnusableContiguousFrame` -/
def stPmmMarkUnusableContiguousFrame : State → Nat → Nat → Option (StStatus × State) :=
  markContiguousFrame .unusable

/-! ## Late initialisation -/

/-- The metadata blocks of a slot: one for 64 frames unless all are unusable. -/
def slotMetadataBlocks (s : State) (i : Nat) : Nat :=
  match s.atpa i with
  | .unusable => 0
  | .free => tableFrames / metadataBlockFrames
  | .hugeAlloc => 0
  | .table t _ =>
    (List.range (tableEntries / 2)).countP fun j =>
      !(decide (s.tables t (2 * j) = .unusable) && decide (s.tables t (2 * j + 1) = .unusable))

def requiredMetadataBlocks (s : State) : Nat :=
  ((List.range slotCount).map (slotMetadataBlocks s)).sum

/-- The loop over the entries of a table in the search for the metadata area: the length
of the free stretch it is at, and the end of the area. -/
def scanMetadataEntries (s : State) (t : TableRef) (i required : Nat) :
    List Nat → Nat → Nat → Nat × Nat
  | [], cont, areaEnd => (cont, areaEnd)
  | j :: js, cont, areaEnd =>
    if s.tables t j ≠ .bitmap bmpFree then scanMetadataEntries s t i required js 0 areaEnd
    else
      let areaEnd :=
        if cont = 0 then (i * tableFrames + j * entryFrames + sizeLimit - 1) % sizeLimit
        else areaEnd
      if cont + entryFrames ≥ required then (cont + entryFrames, areaEnd)
      else scanMetadataEntries s t i required js (cont + entryFrames) areaEnd

/-- The search for the metadata area: its first frame and its last one. -/
def findMetadataArea (s : State) (required : Nat) : List Nat → Nat → Nat × Nat
  | [], areaEnd => (0, areaEnd)
  | i :: is, areaEnd =>
    match s.atpa i with
    | .unusable => findMetadataArea s required is areaEnd
    | .hugeAlloc => findMetadataArea s required is areaEnd
    | .free => (i * tableFrames, i * tableFrames + required)
    | .table t _ =>
      let (cont, areaEnd) :=
        scanMetadataEntries s t i required (downFrom (tableEntries - 1) 1) 0 areaEnd
      if cont ≥ required then ((areaEnd + 1 + sizeLimit - required) % sizeLimit, areaEnd)
      else findMetadataArea s required is areaEnd

/-- The frames of an entry that are not unusable. -/
def entryUsable (s : State) : Entry → Nat
  | .unusable => 0
  | .bitmap _ => entryFrames
  | .ext x => (List.range entryFrames).countP fun k => decide (s.exts x k ≠ .unusable)

/-- The frames of a slot that are not unusable. -/
def slotUsable (s : State) (i : Nat) : Nat :=
  match s.atpa i with
  | .unusable => 0
  | .hugeAlloc => 0
  | .free => tableFrames
  | .table t _ => ((List.range tableEntries).map fun j => entryUsable s (s.tables t j)).sum

/-- `StPmm_LateInit` up to the mapping of the metadata area: the area is marked, the frames
are counted, and the allocator opens. -/
def lateInitMark (s : State) : Option (StStatus × State) :=
  let required := requiredMetadataBlocks s
  if required > tableFrames then some (.tooLarge, s)
  else
    let (areaBegin, areaEnd) := findMetadataArea s required (downFrom (slotCount - 1) 1) 0
    (stPmmMarkUnusableContiguousFrame s areaBegin areaEnd).bind fun (st, s) =>
    if !checkSuccess st then some (st, s)
    else
      let usable := ((List.range slotCount).map (slotUsable s)).sum
      some (.success, { s with
        totalFrames := s.totalFrames + usable
        freeFrames := s.freeFrames + usable
        remarkingUnavailable := true
        allocationAvailable := true })

/-- `StPmm_LateInit` after the mapping of the metadata area: the pools are seeded. -/
def lateInitSeed (s : State) : Option State :=
  let s := { s with metadataAvailable := true }
  (topup (allocateNested 2) s .tables).bind fun (_, s) =>
  (topup (allocateNested 2) s .exts).map (·.2)

end FoliOS.Strata.Pmm
