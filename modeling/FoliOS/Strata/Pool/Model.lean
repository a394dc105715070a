import FoliOS.Lib.Bitmap
import FoliOS.Strata.Basic
import Mathlib.Tactic.Ring

/-!
# Strata — the kernel pool allocator (`mm/pool.c`)

Small blocks are carved out of 16-page *subpools*: one header page prefix with
a bitmap, followed by equally sized objects. A table of classes (object size,
alignment) heads two intrusive lists each, all subpools of the class and those
with a free object. Larger blocks get a page range of their own.

Header pointers are the first page number of the subpool, so the heap of
headers is a map `Nat → SubpoolHeader`. The virtual memory manager is seen
through the page ranges the pool holds (`ranges`) and through a `PageSource`
answering `StMm_AllocateGlobalSparse`. Block contents are not modelled.

* `normalizeObjectSize_spec` — a normalised size holds the request and is a
  multiple of the alignment.
* `subpoolLayout_class` — for every class the layout loop settles, within two
  rounds, on a header that leaves room for the bitmap and an object area filled
  up to less than one object.
-/

namespace FoliOS.Strata.Pool

open Lib

/-! ## Build configuration -/

/-- `STRATA_MM_POOL_MIN_ALIGN_BITS` -/
def minAlignBits : Nat := 4

/-- `STRATA_MM_POOL_MANTISSA_BITS` -/
def mantissaBits : Nat := 4

/-- `STRATA_MM_POOL_SUBPOOL_PAGE_COUNT` -/
def subpoolPages : Nat := 16

/-- `PAGE_SIZE_ALIGNMENT_BITS` -/
def pageSizeAlignmentBits : Nat := 12

/-- `SUBPOOL_SIZE_CLASS_COUNT` -/
def subpoolSizeClassCount : Nat :=
  (pageSizeAlignmentBits - minAlignBits - mantissaBits + 2) <<< (mantissaBits - 1)

/-- `SUBPOOL_ALIGNMENT_CLASS_COUNT` -/
def subpoolAlignmentClassCount : Nat := pageSizeAlignmentBits - minAlignBits + 1

/-- `ARRAY_SIZE(subpool_table)` -/
def subpoolTableSize : Nat := subpoolSizeClassCount * subpoolAlignmentClassCount

/-- `sizeof(struct subpool_header)` without the bitmap. -/
def headerStructSize : Nat := 48

/-! ## State -/

/-- `struct subpool_header`; links are first page numbers, null is `none`. -/
structure SubpoolHeader where
  prev : Option Nat
  next : Option Nat
  prevFree : Option Nat
  nextFree : Option Nat
  objectSize : Nat
  objectCount : Nat
  headerSize : Nat
  subpoolPageCount : Nat
  usedCount : Nat
  alignmentBits : Nat
  bitmap : Nat → BitVec 64

/-- A header on freshly zeroed pages. -/
def SubpoolHeader.zeroed : SubpoolHeader :=
  ⟨none, none, none, none, 0, 0, 0, 0, 0, 0, fun _ => 0⟩

/-- `struct subpool_entry` -/
structure SubpoolEntry where
  objectSize : Nat
  alignmentBits : Nat
  first : Option Nat
  last : Option Nat
  nextFree : Option Nat
  deriving DecidableEq, Repr

/-- The map flag a page range was allocated with. -/
inductive RangeKind where
  | subpool      -- MF_POOL_SUBPOOL
  | largeAlloc   -- MF_POOL_LARGE_ALLOC
  deriving DecidableEq, Repr

/-- A page range the pool holds in `VMM_DOMAIN_KERNEL_SLOW`. -/
structure PoolRange where
  beginVpn : Nat
  pageCount : Nat
  kind : RangeKind
  deriving DecidableEq, Repr

/-- Whether page `vpn` belongs to the range. -/
def PoolRange.contains (r : PoolRange) (vpn : Nat) : Bool :=
  decide (r.beginVpn ≤ vpn) && decide (vpn < r.beginVpn + r.pageCount)

/-- Two ranges share no page. -/
def PoolRange.Apart (r r' : PoolRange) : Prop :=
  r.beginVpn + r.pageCount ≤ r'.beginVpn ∨ r'.beginVpn + r'.pageCount ≤ r.beginVpn

structure State where
  table : Nat → SubpoolEntry
  headers : Nat → SubpoolHeader
  ranges : List PoolRange

/-- `StMm_AllocateGlobalSparse` as the pool sees it: given the ranges the pool
holds, a page count and the allocation flags it fails, or hands out a fresh
zeroed range. -/
structure PageSource where
  allocate : List PoolRange → Nat → Nat → Except StStatus Nat
  fresh : ∀ rs n fl v, allocate rs n fl = .ok v →
    0 < n ∧ 0 < v ∧ v + n ≤ pageLimit ∧
      ∀ r ∈ rs, v + n ≤ r.beginVpn ∨ r.beginVpn + r.pageCount ≤ v
  failure : ∀ rs n fl e, allocate rs n fl = .error e → checkSuccess e = false

/-- The pool at boot: the class table is zero-initialised. -/
def initial : State where
  table := fun _ => ⟨0, 0, none, none, none⟩
  headers := fun _ => SubpoolHeader.zeroed
  ranges := []

def State.modEntry (s : State) (t : Nat) (f : SubpoolEntry → SubpoolEntry) : State :=
  { s with table := Function.update s.table t (f (s.table t)) }

def State.modHeader (s : State) (h : Nat) (f : SubpoolHeader → SubpoolHeader) : State :=
  { s with headers := Function.update s.headers h (f (s.headers h)) }

/-- A write guarded by a null check of the header pointer. -/
def State.modHeader? (s : State) (p : Option Nat) (f : SubpoolHeader → SubpoolHeader) : State :=
  match p with
  | some h => s.modHeader h f
  | none => s

/-- Release of a range (`StMm_FreeGlobal`). -/
def State.freeRange (s : State) (vpn : Nat) : State :=
  { s with ranges := s.ranges.filter fun r => decide (r.beginVpn ≠ vpn) }

/-! ## Size classes -/

/-- `get_subpool_span_size` -/
def getSubpoolSpanSize : Nat := subpoolPages * pageSize

/-- `get_subpool_bitmap_word_count` -/
def getSubpoolBitmapWordCount (objectCount : Nat) : Nat := alignDiv 32 objectCount 64

/-- `normalize_alignment_bits` -/
def normalizeAlignmentBits (alignmentBits : Int) : Nat :=
  if alignmentBits < minAlignBits then minAlignBits else alignmentBits.toNat % 256

/-- `normalize_object_size` -/
def normalizeObjectSize (objectSize alignmentBits : Nat) : Nat :=
  let minimumAlignmentBits := max minAlignBits alignmentBits
  if objectSize ≤ 2 ^ minimumAlignmentBits then 2 ^ minimumAlignmentBits % 65536
  else
    let msb := Nat.log 2 objectSize
    let quantumBits := if msb + 1 > mantissaBits then msb + 1 - mantissaBits else 0
    let quantumBits := if quantumBits < minimumAlignmentBits then minimumAlignmentBits
      else quantumBits
    align 32 objectSize (2 ^ quantumBits) % 65536

/-- `get_object_entry`: the slot of a class, claiming the first empty slot when
the class has none. -/
def getObjectEntry (s : State) (objectSize alignmentBits : Nat) : Option Nat × State :=
  match (List.range subpoolTableSize).find? fun i =>
      decide ((s.table i).objectSize = objectSize) &&
        decide ((s.table i).alignmentBits = alignmentBits) with
  | some i => (some i, s)
  | none =>
    match (List.range subpoolTableSize).find? fun i => decide ((s.table i).objectSize = 0) with
    | some i =>
      (some i, s.modEntry i fun e =>
        { e with objectSize := objectSize, alignmentBits := alignmentBits })
    | none => (none, s)

/-! ## The free list of a class -/

/-- `remove_from_free_list` -/
def removeFromFreeList (s : State) (t h : Nat) : State :=
  let hd := s.headers h
  let s := s.modHeader? hd.prevFree fun x => { x with nextFree := hd.nextFree }
  let s := if hd.prevFree = none ∧ (s.table t).nextFree = some h then
      s.modEntry t fun e => { e with nextFree := hd.nextFree }
    else s
  let s := s.modHeader? hd.nextFree fun x => { x with prevFree := hd.prevFree }
  s.modHeader h fun x => { x with prevFree := none, nextFree := none }

/-- `push_to_free_list` -/
def pushToFreeList (s : State) (t h : Nat) : State :=
  if (s.headers h).prevFree ≠ none ∨ (s.headers h).nextFree ≠ none ∨
      (s.table t).nextFree = some h then s
  else
    let nf := (s.table t).nextFree
    let s := s.modHeader h fun x => { x with prevFree := none, nextFree := nf }
    let s := s.modHeader? nf fun x => { x with prevFree := some h }
    s.modEntry t fun e => { e with nextFree := some h }

/-- `subpool_is_completely_full` -/
def subpoolIsCompletelyFull (x : SubpoolHeader) : Bool := decide (x.usedCount ≥ x.objectCount)

/-- `subpool_is_completely_empty` -/
def subpoolIsCompletelyEmpty (x : SubpoolHeader) : Bool := decide (x.usedCount = 0)

/-! ## From a pointer back to its subpool or range -/

/-- `validate_subpool_header_metadata` -/
def validateSubpoolHeaderMetadata (x : SubpoolHeader) : Bool :=
  let bitmapBytes := getSubpoolBitmapWordCount x.objectCount * 8
  let objectBytes := x.objectSize * x.objectCount
  let objectAreaBytes := getSubpoolSpanSize - x.headerSize
  decide (x.subpoolPageCount = subpoolPages) &&
  decide (x.objectSize ≠ 0) && decide (x.objectCount ≠ 0) &&
  decide (x.usedCount ≤ x.objectCount) &&
  decide (minAlignBits ≤ x.alignmentBits) && decide (x.alignmentBits ≤ pageSizeAlignmentBits) &&
  decide (headerStructSize + bitmapBytes ≤ x.headerSize) &&
  decide (x.headerSize < getSubpoolSpanSize) &&
  decide (x.headerSize % 2 ^ x.alignmentBits = 0) &&
  decide (x.objectSize % 2 ^ x.alignmentBits = 0) &&
  decide (objectBytes ≤ objectAreaBytes) &&
  decide (objectAreaBytes - objectBytes < x.objectSize)

/-- `get_subpool_object_index` for the header at page `h`. -/
def getSubpoolObjectIndex (x : SubpoolHeader) (h ptr : Nat) : Option Nat :=
  if ptr = 0 ∨ validateSubpoolHeaderMetadata x = false then none
  else
    let objectStart := h * pageSize + x.headerSize
    let objectEnd := objectStart + x.objectSize * x.objectCount
    if ptr < objectStart ∨ ptr ≥ objectEnd then none
    else
      let offset := ptr - objectStart
      if offset % x.objectSize ≠ 0 then none
      else
        let objectIndex := offset / x.objectSize % 65536
        if objectIndex ≥ x.objectCount then none else some objectIndex

/-- `StMm_GetGlobalPageMapFlags` and `StVmm_GetGlobalReservedRange` for the
page of a pool pointer. -/
def getReservedRange (s : State) (vpn : Nat) : Option PoolRange :=
  s.ranges.find? fun r => r.contains vpn

/-- `find_subpool_header_from_ptr` -/
def findSubpoolHeaderFromPtr (s : State) (ptr : Nat) : Option (Nat × Nat) :=
  if ptr = 0 then none
  else
    match getReservedRange s (ptr / pageSize) with
    | none => none
    | some r =>
      if r.kind ≠ .subpool ∨ r.pageCount ≠ subpoolPages then none
      else (getSubpoolObjectIndex (s.headers r.beginVpn) r.beginVpn ptr).map
        fun k => (r.beginVpn, k)

/-- `find_large_allocation_range_from_ptr` -/
def findLargeAllocationRangeFromPtr (s : State) (ptr : Nat) : Option PoolRange :=
  if ptr = 0 then none
  else
    match getReservedRange s (ptr / pageSize) with
    | none => none
    | some r =>
      if r.kind ≠ .largeAlloc ∨ ptr ≠ r.beginVpn * pageSize ∨ r.pageCount = 0 then none
      else some r

/-! ## Creating and destroying subpools -/

/-- The loop of `allocate_subpool` that settles object count and header size:
the bitmap shrinks the object area, which shrinks the bitmap. `none` when the
loop is still running after `fuel` rounds. -/
def layoutLoop (objectSize alignmentBits : Nat) : Nat → Nat → Nat → Option (Nat × Nat)
  | _, 0, headerSize => some (0, headerSize)
  | 0, _ + 1, _ => none
  | fuel + 1, oc + 1, _ =>
    let minimumHeaderSize := headerStructSize + getSubpoolBitmapWordCount (oc + 1) * 8
    let headerSize := align 64 minimumHeaderSize (2 ^ alignmentBits) % 65536
    let newObjectCount := (getSubpoolSpanSize - headerSize) / objectSize % 65536
    if newObjectCount = oc + 1 then some (oc + 1, headerSize)
    else layoutLoop objectSize alignmentBits fuel newObjectCount headerSize

/-- Object count and header size of a new subpool. The round bound is far above
what any class needs (`subpoolLayout_class`). -/
def subpoolLayout (objectSize alignmentBits : Nat) : Option (Nat × Nat) :=
  layoutLoop objectSize alignmentBits 65536 (getSubpoolSpanSize / objectSize % 65536) 0

/-- The bitmap of a new subpool: padding bits of the last word are set. -/
def initialBitmap (objectCount : Nat) : Nat → BitVec 64 :=
  if objectCount % 64 ≠ 0 then
    Function.update (fun _ => 0) (getSubpoolBitmapWordCount objectCount - 1)
      (~~~(1#64 <<< (objectCount % 64) - 1#64))
  else fun _ => 0

/-- Appending the subpool at page `h` to the list of class slot `t`. -/
def appendSubpool (s : State) (t h : Nat) : State :=
  let last := (s.table t).last
  let s := s.modHeader h fun x =>
    { x with prev := last, next := none, prevFree := none, nextFree := none }
  let s := s.modHeader? last fun x => { x with next := some h }
  let s := if last = none then s.modEntry t fun e => { e with first := some h } else s
  s.modEntry t fun e => { e with last := some h }

/-- `AF_ALIGN(a)` for a power of two `a = 2 ^ bits`. -/
def afAlign (bits : Nat) : Nat := (bits <<< 4) &&& 0x3F0

/-- `allocate_subpool` -/
def allocateSubpool (mm : PageSource) (s : State) (objectSize alignmentBits : Nat) :
    Except StStatus Nat × State :=
  match getObjectEntry s objectSize alignmentBits with
  | (none, s) => (.error .tooLarge, s)
  | (some t, s) =>
    match mm.allocate s.ranges subpoolPages (afAlign 16) with
    | .error e => (.error e, s)
    | .ok vpn =>
      let s := { s with ranges := ⟨vpn, subpoolPages, .subpool⟩ :: s.ranges }
      match subpoolLayout objectSize alignmentBits with
      | none => (.error .unknownError, s)   -- the layout loop never settles
      | some (objectCount, headerSize) =>
        if objectCount = 0 then (.error .insufficientSpace, s.freeRange vpn)
        else
          let s := s.modHeader vpn fun _ =>
            { SubpoolHeader.zeroed with
              objectSize, objectCount, headerSize, subpoolPageCount := subpoolPages,
              usedCount := 0, alignmentBits, bitmap := initialBitmap objectCount }
          (.ok vpn, pushToFreeList (appendSubpool s t vpn) t vpn)

/-- The unlinking part of `unlink_subpool_locked`: `h` leaves the class list.
The source does not check the successor of a subpool that is not the last one;
an intact list has one. -/
def detachSubpool (s : State) (t h : Nat) : State :=
  let hd := s.headers h
  let s := if (s.table t).first = some h then s.modEntry t fun e => { e with first := hd.next }
    else s.modHeader? hd.prev fun x => { x with next := hd.next }
  if (s.table t).last = some h then s.modEntry t fun e => { e with last := hd.prev }
  else s.modHeader? hd.next fun x => { x with prev := hd.prev }

/-- The clearing part of `unlink_subpool_locked`: an empty class slot becomes
available again and the header is zeroed. -/
def clearSubpool (s : State) (t h : Nat) : State :=
  let s := if (s.table t).first = none then
      s.modEntry t fun e => { e with objectSize := 0, alignmentBits := 0, nextFree := none }
    else s
  s.modHeader h fun x => { SubpoolHeader.zeroed with bitmap := x.bitmap }

/-- `unlink_subpool_locked`; the result is the page to free, 0 on failure. -/
def unlinkSubpoolLocked (s : State) (h : Nat) : Nat × State :=
  let hd := s.headers h
  if validateSubpoolHeaderMetadata hd = false then (0, s)
  else
    match getObjectEntry s hd.objectSize hd.alignmentBits with
    | (none, s) => (0, s)
    | (some t, s) => (h, clearSubpool (detachSubpool (removeFromFreeList s t h) t h) t h)

/-! ## The public operations -/

/-- `allocate_large` -/
def allocateLarge (mm : PageSource) (s : State) (size alignmentBits : Nat) :
    StStatus × Nat × State :=
  let pageCount := alignDiv 64 size pageSize
  let flags := if alignmentBits > pageSizeAlignmentBits then afAlign alignmentBits else 0
  match mm.allocate s.ranges pageCount flags with
  | .error e => (e, 0, s)
  | .ok vpn =>
    (.success, vpn * pageSize, { s with ranges := ⟨vpn, pageCount, .largeAlloc⟩ :: s.ranges })

/-- The bitmap search of `allocate_internal`: word and bit of the first object
that is not taken. -/
def findFreeObject (x : SubpoolHeader) : Option (Nat × Nat) :=
  ((List.range (getSubpoolBitmapWordCount x.objectCount)).find? fun i =>
    decide (x.bitmap i ≠ BitVec.allOnes 64)).map fun i => (i, ctz (~~~x.bitmap i))

/-- Taking an object of subpool `h` in class slot `t`. -/
def takeObject (s : State) (t h i b : Nat) : State :=
  let s := s.modHeader h fun x =>
    { x with bitmap := setWordBit x.bitmap i b, usedCount := (x.usedCount + 1) % 65536 }
  if subpoolIsCompletelyFull (s.headers h) then removeFromFreeList s t h else s

/-- The end of `allocate_internal`: an object of subpool `h`. -/
def allocateFromSubpool (s : State) (t h normalizedSize : Nat) : StStatus × Nat × State :=
  match findFreeObject (s.headers h) with
  | none => (.insufficientSpace, 0, s)
  | some (i, b) =>
    let objectIndex := (i * 64 + b) % 65536
    (.success, h * pageSize + (s.headers h).headerSize + objectIndex * normalizedSize,
      takeObject s t h i b)

/-- `allocate_internal` -/
def allocateInternal (mm : PageSource) (s : State) (size : Nat) (alignmentBits : Int) :
    StStatus × Nat × State :=
  let size := if size = 0 then 1 else size
  if alignmentBits < 0 ∨ alignmentBits ≥ 64 then (.invalidValue, 0, s)
  else
    let normalizedAlignmentBits := normalizeAlignmentBits alignmentBits
    if size > pageSize ∨ normalizedAlignmentBits > pageSizeAlignmentBits then
      allocateLarge mm s size normalizedAlignmentBits
    else
      let normalizedSize := normalizeObjectSize (size % 65536) normalizedAlignmentBits
      if normalizedSize > pageSize then allocateLarge mm s size normalizedAlignmentBits
      else
        match getObjectEntry s normalizedSize normalizedAlignmentBits with
        | (none, s) => (.tooLarge, 0, s)
        | (some t, s) =>
          match (s.table t).nextFree with
          | some h => allocateFromSubpool s t h normalizedSize
          | none =>
            match allocateSubpool mm s normalizedSize normalizedAlignmentBits with
            | (.error e, s) => (e, 0, s)
            | (.ok h, s) => allocateFromSubpool s t h normalizedSize

/-- `StPool_Allocate` -/
def stPoolAllocate (mm : PageSource) (s : State) (size : Nat) : StStatus × Nat × State :=
  allocateInternal mm s size minAlignBits

/-- `StPool_AllocateAligned` -/
def stPoolAllocateAligned (mm : PageSource) (s : State) (size : Nat) (alignment : Int) :
    StStatus × Nat × State :=
  allocateInternal mm s size alignment

/-- `StPool_AllocateClearAligned`; what the block holds is not modelled. -/
def stPoolAllocateClearAligned (mm : PageSource) (s : State) (size : Nat) (alignment : Int) :
    StStatus × Nat × State :=
  match stPoolAllocateAligned mm s size alignment with
  | (status, ptr, s) => if checkSuccess status then (.success, ptr, s) else (status, ptr, s)

/-- Giving object `k` of subpool `h` in class slot `t` back. -/
def releaseObject (s : State) (t h k : Nat) : State :=
  if (s.headers h).bitmap (k / 64) &&& 1#64 <<< (k % 64) = 0 then s
  else
    let wasFull := subpoolIsCompletelyFull (s.headers h)
    let s := s.modHeader h fun x =>
      { x with bitmap := clearWordBit x.bitmap (k / 64) (k % 64), usedCount := x.usedCount - 1 }
    if subpoolIsCompletelyEmpty (s.headers h) then
      match unlinkSubpoolLocked s h with
      | (0, s) => s
      | (vpn + 1, s) => s.freeRange (vpn + 1)
    else if wasFull then pushToFreeList s t h
    else s

/-- `StPool_Free` -/
def stPoolFree (s : State) (ptr : Nat) : State :=
  if ptr = 0 then s
  else
    match findLargeAllocationRangeFromPtr s ptr with
    | some r => s.freeRange r.beginVpn
    | none =>
      match findSubpoolHeaderFromPtr s ptr with
      | none => s
      | some (h, k) =>
        match getObjectEntry s (s.headers h).objectSize (s.headers h).alignmentBits with
        | (none, s) => s
        | (some t, s) => releaseObject s t h k

/-- Moving a block that no longer fits: allocate, copy, free the old one. -/
def moveBlock (mm : PageSource) (s : State) (ptr size : Nat) (alignmentBits : Nat) :
    StStatus × Nat × State :=
  match stPoolAllocateAligned mm s size alignmentBits with
  | (status, allocated, s) =>
    if checkSuccess status then (.success, allocated, stPoolFree s ptr) else (status, 0, s)

/-- `StPool_Reallocate` -/
def stPoolReallocate (mm : PageSource) (s : State) (ptr size : Nat) : StStatus × Nat × State :=
  if ptr = 0 then stPoolAllocate mm s size
  else if size = 0 then (.success, 0, stPoolFree s ptr)
  else
    match findLargeAllocationRangeFromPtr s ptr with
    | some r =>
      if size ≤ r.pageCount * pageSize then (.success, ptr, s)
      else moveBlock mm s ptr size (ctz (BitVec.ofNat 64 ptr))
    | none =>
      match findSubpoolHeaderFromPtr s ptr with
      | none => (.invalidValue, 0, s)
      | some (h, _) =>
        if size ≤ (s.headers h).objectSize then (.success, ptr, s)
        else moveBlock mm s ptr size (s.headers h).alignmentBits

/-! ## The classes and the layout of their subpools -/

/-- The classes `allocate_internal` looks up. -/
structure SizeClass (objectSize alignmentBits : Nat) : Prop where
  align_ge : minAlignBits ≤ alignmentBits
  align_le : alignmentBits ≤ pageSizeAlignmentBits
  pos      : 0 < objectSize
  le       : objectSize ≤ pageSize
  dvd      : objectSize % 2 ^ alignmentBits = 0

/-- A settled layout: header and bitmap in front, then as many objects as fit. -/
structure Layout (objectSize alignmentBits objectCount headerSize : Nat) : Prop where
  count_pos : 0 < objectCount
  header_ge : headerStructSize + getSubpoolBitmapWordCount objectCount * 8 ≤ headerSize
  header_lt : headerSize < getSubpoolSpanSize
  header_al : headerSize % 2 ^ alignmentBits = 0
  fits      : objectSize * objectCount ≤ getSubpoolSpanSize - headerSize
  tight     : getSubpoolSpanSize - headerSize - objectSize * objectCount < objectSize

instance (n al oc hs : Nat) : Decidable (Layout n al oc hs) :=
  decidable_of_iff
    (0 < oc ∧ headerStructSize + getSubpoolBitmapWordCount oc * 8 ≤ hs ∧
      hs < getSubpoolSpanSize ∧ hs % 2 ^ al = 0 ∧ n * oc ≤ getSubpoolSpanSize - hs ∧
      getSubpoolSpanSize - hs - n * oc < n)
    ⟨fun ⟨h1, h2, h3, h4, h5, h6⟩ => ⟨h1, h2, h3, h4, h5, h6⟩,
      fun ⟨h1, h2, h3, h4, h5, h6⟩ => ⟨h1, h2, h3, h4, h5, h6⟩⟩

/-! ## Normalisation -/

theorem normalizeAlignmentBits_ge {a : Int} (h1 : a < 64) :
    minAlignBits ≤ normalizeAlignmentBits a := by
  unfold normalizeAlignmentBits minAlignBits
  split <;> omega

/-- Rounding up reaches the request and stays below one more quantum. -/
private theorem round_up_bounds (v q : Nat) (hq : 0 < q) :
    v ≤ (v + q - 1) / q * q ∧ (v + q - 1) / q * q < v + q := by
  have hdm := Nat.div_add_mod (v + q - 1) q
  have hmod := Nat.mod_lt (v + q - 1) hq
  rw [Nat.mul_comm] at hdm
  omega

/-- A normalised size holds the request and is a multiple of the alignment. -/
theorem normalizeObjectSize_spec {n al : Nat} (hpos : 0 < n) (hn : n ≤ pageSize)
    (hal : minAlignBits ≤ al) (hal' : al ≤ pageSizeAlignmentBits) :
    n ≤ normalizeObjectSize n al ∧ normalizeObjectSize n al % 2 ^ al = 0 := by
  have hmax : max minAlignBits al = al := max_eq_right hal
  have hpow : 2 ^ al ≤ 4096 := by
    calc 2 ^ al ≤ 2 ^ 12 := Nat.pow_le_pow_right (by decide) hal'
      _ = 4096 := by norm_num
  simp only [pageSize] at hn
  simp only [normalizeObjectSize, hmax]
  split
  · rename_i hle
    rw [Nat.mod_eq_of_lt (by omega)]
    exact ⟨hle, Nat.mod_self _⟩
  · -- the quantum is a power of two between the alignment and a page
    have hlog : Nat.log 2 n ≤ 12 := by
      calc Nat.log 2 n ≤ Nat.log 2 4096 := Nat.log_mono_right hn
        _ = 12 := by rw [show 4096 = 2 ^ 12 by norm_num, Nat.log_pow (by decide)]
    generalize hm : (if Nat.log 2 n + 1 > mantissaBits then Nat.log 2 n + 1 - mantissaBits
      else 0) = m
    have hmle : m ≤ 12 := by
      rw [← hm, mantissaBits]
      split <;> omega
    generalize hq : (if m < al then al else m) = q
    have hqge : al ≤ q := by
      rw [← hq]
      split <;> omega
    have hqle : q ≤ 12 := by
      rw [← hq]
      split
      · exact hal'
      · exact hmle
    have hqpow : 2 ^ q ≤ 4096 := by
      calc 2 ^ q ≤ 2 ^ 12 := Nat.pow_le_pow_right (by decide) hqle
        _ = 4096 := by norm_num
    have hqpos : 0 < 2 ^ q := Nat.two_pow_pos q
    have hb := round_up_bounds n (2 ^ q) hqpos
    rw [align_eq (by omega) (by omega), Nat.mod_eq_of_lt (by omega)]
    refine ⟨hb.1, Nat.mod_eq_zero_of_dvd ?_⟩
    exact (Nat.pow_dvd_pow 2 hqge).mul_left _

/-! ## The layout loop -/

/-- More rounds do not change a settled result. -/
theorem layoutLoop_mono {n al : Nat} {fuel oc hs : Nat} {r : Nat × Nat} (extra : Nat)
    (h : layoutLoop n al fuel oc hs = some r) : layoutLoop n al (fuel + extra) oc hs = some r := by
  induction fuel generalizing oc hs r extra with
  | zero =>
    cases oc with
    | zero => simpa [layoutLoop] using h
    | succ oc => simp [layoutLoop] at h
  | succ fuel ih =>
    cases oc with
    | zero => simpa [layoutLoop] using h
    | succ oc =>
      rw [Nat.add_right_comm]
      simp only [layoutLoop] at h ⊢
      split at h
      · rename_i heq
        rwa [if_pos heq]
      · rename_i hne
        rw [if_neg hne]
        exact ih extra h

/-- Two rounds of the loop settle on a valid layout. -/
def settlesInTwo (n al : Nat) : Bool :=
  match layoutLoop n al 2 (getSubpoolSpanSize / n % 65536) 0 with
  | some (oc, hs) => decide (Layout n al oc hs)
  | none => false

-- the classes are the multiples of each alignment up to a page: 511 in all
private theorem settlesInTwo_multiples :
    ∀ al < 13, ∀ k < 257, minAlignBits ≤ al → 0 < k → k * 2 ^ al ≤ pageSize →
      settlesInTwo (k * 2 ^ al) al = true := by
  decide +kernel

/-- **Layout termination and validity**: for every class the layout loop
settles, and its result is a valid layout. -/
theorem subpoolLayout_class {n al : Nat} (h : SizeClass n al) :
    ∃ oc hs, subpoolLayout n al = some (oc, hs) ∧ Layout n al oc hs := by
  have hn : n / 2 ^ al * 2 ^ al = n := Nat.div_mul_cancel (Nat.dvd_of_mod_eq_zero h.dvd)
  have hk : n / 2 ^ al < 257 := by
    have h16 : 2 ^ 4 ≤ 2 ^ al := Nat.pow_le_pow_right (by decide) h.align_ge
    have hdiv : n / 2 ^ al ≤ 4096 / 2 ^ 4 :=
      (Nat.div_le_div_right h.le).trans (Nat.div_le_div_left h16 (by decide))
    omega
  have hkpos : 0 < n / 2 ^ al := by
    rcases Nat.eq_zero_or_pos (n / 2 ^ al) with h0 | h0
    · rw [h0, Nat.zero_mul] at hn
      exact absurd h.pos (by omega)
    · exact h0
  have hle := h.align_le
  simp only [pageSizeAlignmentBits] at hle
  have hset := settlesInTwo_multiples al (by omega) _ hk h.align_ge hkpos (hn.symm ▸ h.le)
  rw [hn, settlesInTwo] at hset
  cases hloop : layoutLoop n al 2 (getSubpoolSpanSize / n % 65536) 0 with
  | none => rw [hloop] at hset; simp at hset
  | some r =>
    obtain ⟨oc, hs⟩ := r
    rw [hloop] at hset
    exact ⟨oc, hs, layoutLoop_mono 65534 hloop, of_decide_eq_true hset⟩

/-- A layout's object count and bitmap size, in plain arithmetic. -/
theorem Layout.count_le {n al oc hs : Nat} (h : Layout n al oc hs) (hn : 0 < n) : oc < 65536 := by
  have hfit := h.fits
  have hhd := h.header_ge
  have hoc : oc ≤ n * oc := Nat.le_mul_of_pos_left oc hn
  simp only [getSubpoolSpanSize, headerStructSize, subpoolPages, pageSize] at hfit hhd
  omega

theorem wordCount_eq {oc : Nat} (h : oc < 65536) :
    getSubpoolBitmapWordCount oc = (oc + 63) / 64 := by
  unfold getSubpoolBitmapWordCount alignDiv
  rw [Nat.mod_eq_of_lt (by omega)]
  rfl

end FoliOS.Strata.Pool
