import FoliOS.Lib.TableTree
import FoliOS.Strata.Basic

/-!
# Strata — four-level page tables (`arch/amd64/pc/mm.c`)

Physical memory is a map from frames to 512 words each; the kernel reaches
all of it through its direct map, so a page-table pointer is a frame number.
Frames for new tables come from a cache of freed ones or from the PMM, whose
answers are the sequence `supply`. The level of the preemption lock is kept;
the TLB and the link words inside cached frames are not part of the model.
-/

namespace FoliOS.Strata.Paging

open Lib

/-! ## Constants -/

abbrev Word := BitVec 64

def pteP : Word := 0x1
def pteRW : Word := 0x2
def pteUS : Word := 0x4
def ptePWT : Word := 0x8
def ptePCD : Word := 0x10
def ptePS : Word := 0x80
def pteG : Word := 0x100
def pteSW0 : Word := 0x200
def pteSW1 : Word := 0x400
def pteManaged : Word := 0x800
def pteXD : Word := 0x8000000000000000
def pteBaseMask : Word := 0x000FFFFFFFFFF000
def pteBaseShift : Nat := 12

def virtPageMax : Nat := 0x000FFFFFFFFFFFFF
def pml4HoleStart : Nat := 0x0000000800000000
def pml4HoleEnd : Nat := 0x000FFFF7FFFFFFFF

/-- `MEMMAP_GLOBAL_VPN_BASE` -/
def globalVpnBase : Nat := 0x8000000000000

/-- `MEMMAP_LOCAL_VPN_LIMIT` -/
def localVpnLimit : Nat := 0x7FFFFFFFFFFFF

def isLocalVpn (vpn : Nat) : Bool := decide (vpn ≤ localVpnLimit)
def isGlobalVpn (vpn : Nat) : Bool := decide (globalVpnBase ≤ vpn)

def pageTableFrameCacheMaxPages : Nat := 128

/-- `SIZE_MAX + 1` -/
def wordLimit : Nat := 2 ^ 64

/-! ## Entries -/

/-- `e & mask`, read as a truth value. -/
def hasBit (e mask : Word) : Bool := decide (e &&& mask ≠ 0)

def isPresent (e : Word) : Bool := hasBit e pteP
def isHuge (e : Word) : Bool := hasBit e ptePS

/-- `(e & PTE_BASE_MASK) >> PTE_BASE_SHIFT` -/
def frameOf (e : Word) : Nat := ((e &&& pteBaseMask) >>> pteBaseShift).toNat

/-- `(e & ~PTE_BASE_MASK) | (pfn << PTE_BASE_SHIFT)` -/
def withFrame (e : Word) (pfn : Nat) : Word :=
  (e &&& ~~~pteBaseMask) ||| (BitVec.ofNat 64 pfn <<< pteBaseShift)

instance neZeroEntries : NeZero 512 := ⟨by decide⟩

def pml4Index (vpn : Nat) : Fin 512 := Fin.ofNat 512 (vpn / 2 ^ 27)
def pdptIndex (vpn : Nat) : Fin 512 := Fin.ofNat 512 (vpn / 2 ^ 18)
def pdIndex (vpn : Nat) : Fin 512 := Fin.ofNat 512 (vpn / 2 ^ 9)
def ptIndex (vpn : Nat) : Fin 512 := Fin.ofNat 512 vpn

/-- The entry for a new table. -/
def tableEntry (pfn : Nat) (user : Bool) : Word :=
  let e := withFrame 0 pfn ||| pteP ||| pteRW
  if user then e ||| pteUS else e &&& ~~~pteUS

/-- `mapflags_to_pte_private_bits` -/
def mapflagsToPtePrivateBits (mf : MapFlags) : Word :=
  (if hasFlag mf mfPoolLargeAlloc then pteSW0 else 0) |||
  (if hasFlag mf mfPoolSubpool then pteSW1 else 0)

/-- The `pte_template` of `map_memory` and `remap_memory`. -/
def pteTemplate (hasNx : Bool) (mf : MapFlags) : Word :=
  pteP |||
  (if hasFlag mf mfWritable then pteRW else 0) |||
  (if hasFlag mf mfUser then pteUS else 0) |||
  (if hasFlag mf mfNoCache then ptePCD else 0) |||
  (if hasFlag mf mfWritethruCache then ptePWT else 0) |||
  mapflagsToPtePrivateBits mf |||
  (if hasNx && hasFlag mf mfNoExecute then pteXD else 0)

/-- `pte_to_mapflags` -/
def pteToMapflags (hasNx : Bool) (e : Word) : MapFlags :=
  (if hasBit e pteRW then mfWritable else 0) |||
  (if hasBit e pteUS then mfUser else 0) |||
  (if hasBit e ptePCD then mfNoCache else 0) |||
  (if hasBit e ptePWT then mfWritethruCache else 0) |||
  (if hasBit e pteG then mfGlobal else 0) |||
  (if hasNx && hasBit e pteXD then mfNoExecute else 0) |||
  (if hasBit e pteSW0 then mfPoolLargeAlloc else 0) |||
  (if hasBit e pteSW1 then mfPoolSubpool else 0)

/-! ## State -/

/-- What a call finds of the platform: the root table of `base_asp`, two CPU
features, the answers of the PMM to this and later calls, and whether it has more
than `PAGE_TABLE_FRAME_CACHE_LOW_FREE_WATERMARK` free frames. -/
structure Env where
  baseRoot : Nat
  hasNx : Bool
  hasInvlpg : Bool
  supply : Nat → Except StStatus Nat
  manyFree : Bool

/-- `cache` and `quarantine` are the frames on the two lists of page-table frames,
`pulls` the number of PMM answers used up. -/
structure State where
  mem : Nat → Fin 512 → Word
  cache : List Nat
  quarantine : List Nat
  pulls : Nat
  preempt : Int

def State.write (s : State) (f : Nat) (i : Fin 512) (w : Word) : State :=
  { s with mem := writeWord s.mem f i w }

/-- `memset(frame, 0, PAGE_SIZE)` -/
def State.zeroFrame (s : State) (f : Nat) : State :=
  { s with mem := Function.update s.mem f fun _ => 0 }

/-- `StThread_LockPreemption` for global pages. -/
def State.lockIf (s : State) (vpn : Nat) : State :=
  if vpn ≥ globalVpnBase then { s with preempt := s.preempt + 1 } else s

/-- `StThread_UnlockPreemption` for global pages. -/
def State.unlockIf (s : State) (vpn : Nat) : State :=
  if vpn ≥ globalVpnBase then { s with preempt := s.preempt - 1 } else s

/-- `release_quarantined_page_table_frames` -/
def releaseQuarantinedPageTableFrames (s : State) : State :=
  { s with cache := s.quarantine ++ s.cache, quarantine := [] }

/-- `allocate_fresh_page_table_frame` -/
def allocateFreshPageTableFrame (env : Env) (s : State) : Except StStatus Nat × State :=
  let s' := { s with pulls := s.pulls + 1 }
  match env.supply s.pulls with
  | .error e => (.error e, s')
  | .ok pfn => (.ok pfn, s'.zeroFrame pfn)

/-- `allocate_page_table_frame` -/
def allocatePageTableFrame (env : Env) (s : State) (allowCache : Bool) :
    Except StStatus Nat × State :=
  if allowCache then
    match s.cache with
    | pfn :: rest => (.ok pfn, { s with cache := rest }.zeroFrame pfn)
    | [] => allocateFreshPageTableFrame env s
  else allocateFreshPageTableFrame env s

/-- `free_page_table_frame`; a frame given back to the PMM leaves the model. -/
def freePageTableFrame (env : Env) (s : State) (pfn : Nat) : State :=
  if env.manyFree ∧ s.cache.length + s.quarantine.length < pageTableFrameCacheMaxPages then
    { s with quarantine := pfn :: s.quarantine }
  else s

/-! ## Translation -/

/-- The walk shared by `vpn_to_pfn` and `vpn_to_page_map_flags`: the entry that maps
a page, and the mask of the page bits below it. -/
def walkPage (s : State) (root vpn : Nat) : Except StStatus (Word × Nat) :=
  if vpn > virtPageMax then .error .invalidValue
  else if pml4HoleStart ≤ vpn ∧ vpn ≤ pml4HoleEnd then .error .pageNotPresent
  else
    let pml4e := s.mem root (pml4Index vpn)
    if !isPresent pml4e then .error .pageNotPresent
    else
      let pdpte := s.mem (frameOf pml4e) (pdptIndex vpn)
      if !isPresent pdpte then .error .pageNotPresent
      else if isHuge pdpte then .ok (pdpte, 0x3FFFF)
      else
        let pde := s.mem (frameOf pdpte) (pdIndex vpn)
        if !isPresent pde then .error .pageNotPresent
        else if isHuge pde then .ok (pde, 0x1FF)
        else
          let pte := s.mem (frameOf pde) (ptIndex vpn)
          if !isPresent pte then .error .pageNotPresent else .ok (pte, 0)

/-- `vpn_to_pfn` -/
def vpnToPfn (s : State) (root vpn : Nat) : Except StStatus Nat :=
  (walkPage s root vpn).map fun (e, mask) => frameOf e + (vpn &&& mask)

/-- `vpn_to_page_map_flags` -/
def vpnToPageMapFlags (env : Env) (s : State) (root vpn : Nat) : Except StStatus MapFlags :=
  (walkPage s root vpn).map fun (e, _) => pteToMapflags env.hasNx e

/-! ## Mapping -/

/-- Step 1 of `map_memory`: the PDPT of a page. -/
def ensurePdpt (env : Env) (s : State) (root vpn : Nat) (user : Bool) :
    Except StStatus Nat × State :=
  let i := pml4Index vpn
  let e := s.mem root i
  if !isPresent e then
    if vpn ≥ globalVpnBase ∧ isPresent (s.mem env.baseRoot i) then
      let s := s.write root i (s.mem env.baseRoot i)
      (.ok (frameOf (s.mem root i)), s)
    else
      match allocatePageTableFrame env s (!user) with
      | (.error st, s) => (.error st, s)
      | (.ok pfn, s) =>
        if vpn ≥ globalVpnBase then
          if isPresent (s.mem env.baseRoot i) then
            let s := freePageTableFrame env s pfn
            let s := s.write root i (s.mem env.baseRoot i)
            (.ok (frameOf (s.mem env.baseRoot i)), s)
          else
            (.ok pfn, (s.write env.baseRoot i (tableEntry pfn user)).write root i
              (tableEntry pfn user))
        else (.ok pfn, s.write root i (tableEntry pfn user))
  else
    let s := if user then s.write root i (e ||| pteUS) else s
    (.ok (frameOf (s.mem root i)), s)

/-- Steps 2 and 3 of `map_memory`: the table below entry `i` of a PDPT or PD. -/
def ensureTable (env : Env) (s : State) (table : Nat) (i : Fin 512) (user : Bool) :
    Except StStatus Nat × State :=
  let e := s.mem table i
  if !isPresent e then
    match allocatePageTableFrame env s (!user) with
    | (.error st, s) => (.error st, s)
    | (.ok pfn, s) => (.ok pfn, s.write table i (tableEntry pfn user))
  else if isHuge e then (.error .conflictingState, s)
  else
    let s := if user then s.write table i (e ||| pteUS) else s
    (.ok (frameOf (s.mem table i)), s)

/-- Step 4 of `map_memory`: `n` entries of a page table from `idx + i` on. -/
def mapEntries (template : Word) (zeroFill : Bool) (pt idx pfn : Nat) :
    Nat → Nat → State → StStatus × State
  | 0, _, s => (.success, s)
  | n + 1, i, s =>
    let k := Fin.ofNat 512 (idx + i)
    if isPresent (s.mem pt k) then (.duplicateEntry, s)
    else
      let s := s.write pt k (withFrame template (pfn + i))
      let s := if zeroFill then s.zeroFrame (frameOf (s.mem pt k)) else s
      mapEntries template zeroFill pt idx pfn n (i + 1) s

/-- `512 - pte_idx`, at most the pages left. -/
def chunkSize (vpn count : Nat) : Nat :=
  if count < 512 - (ptIndex vpn).val then count else 512 - (ptIndex vpn).val

/-- The loop of `map_memory`, one page table per round; the page it stopped at tells
whether the preemption lock is dropped. -/
def mapLoop (env : Env) (root : Nat) (mf : MapFlags) :
    Nat → Nat → Nat → Nat → State → StStatus × Nat × State
  | 0, vpn, _, _, s => (.success, vpn, s)
  | fuel + 1, vpn, pfn, count, s =>
    if count = 0 then (.success, vpn, s)
    else
      match ensurePdpt env s root vpn (hasFlag mf mfUser) with
      | (.error st, s) => (st, vpn, s)
      | (.ok pdpt, s) =>
        match ensureTable env s pdpt (pdptIndex vpn) (hasFlag mf mfUser) with
        | (.error st, s) => (st, vpn, s)
        | (.ok pd, s) =>
          match ensureTable env s pd (pdIndex vpn) (hasFlag mf mfUser) with
          | (.error st, s) => (st, vpn, s)
          | (.ok pt, s) =>
            let chunk := chunkSize vpn count
            match mapEntries (pteTemplate env.hasNx mf) (hasFlag mf mfZeroFill) pt (ptIndex vpn) pfn
                chunk 0 s with
            | (.success, s) =>
              mapLoop env root mf fuel ((vpn + chunk) % wordLimit) ((pfn + chunk) % wordLimit)
                (count - chunk) s
            | (st, s) => (st, vpn, s)

/-- The argument checks on `vpn + count` of the three functions. -/
def endsInHole (vpn count : Nat) : Prop :=
  pml4HoleStart ≤ (vpn + count) % wordLimit ∧
    (vpn + count + wordLimit - 1) % wordLimit ≤ pml4HoleEnd

instance (vpn count : Nat) : Decidable (endsInHole vpn count) :=
  inferInstanceAs (Decidable (_ ∧ _))

/-- `map_memory` -/
def mapMemory (env : Env) (s : State) (root pfn vpn count : Nat) (mf : MapFlags) :
    StStatus × State :=
  if (vpn + count) % wordLimit > virtPageMax then (.invalidValue, s)
  else if pml4HoleStart ≤ vpn ∧ vpn ≤ pml4HoleEnd then (.invalidValue, s)
  else if endsInHole vpn count then (.invalidValue, s)
  else
    let (st, vpn', s) := mapLoop env root mf count vpn pfn count (s.lockIf vpn)
    (st, s.unlockIf vpn')

/-! ## Remapping -/

/-- `if (mapflags & MF_USER) table[i] |= PTE_US` -/
def State.markUser (s : State) (table : Nat) (i : Fin 512) (user : Bool) : State :=
  if user then s.write table i (s.mem table i ||| pteUS) else s

/-- The entries of one page table in `remap_memory`. -/
def remapEntries (template : Word) (pt idx : Nat) : Nat → Nat → State → StStatus × State
  | 0, _, s => (.success, s)
  | n + 1, i, s =>
    let k := Fin.ofNat 512 (idx + i)
    if !isPresent (s.mem pt k) then
      if hasBit (s.mem pt k) pteManaged then remapEntries template pt idx n (i + 1) s
      else (.pageNotPresent, s)
    else
      remapEntries template pt idx n (i + 1)
        (s.write pt k (withFrame template (frameOf (s.mem pt k))))

/-- The loop of `remap_memory`. -/
def remapLoop (env : Env) (root : Nat) (mf : MapFlags) :
    Nat → Nat → Nat → State → StStatus × Nat × State
  | 0, vpn, _, s => (.success, vpn, s)
  | fuel + 1, vpn, count, s =>
    if count = 0 then (.success, vpn, s)
    else if !isPresent (s.mem root (pml4Index vpn)) then (.pageNotPresent, vpn, s)
    else
      let s := s.markUser root (pml4Index vpn) (hasFlag mf mfUser)
      let pdpt := frameOf (s.mem root (pml4Index vpn))
      if !isPresent (s.mem pdpt (pdptIndex vpn)) then (.pageNotPresent, vpn, s)
      else
        let s := s.markUser pdpt (pdptIndex vpn) (hasFlag mf mfUser)
        let pd := frameOf (s.mem pdpt (pdptIndex vpn))
        if !isPresent (s.mem pd (pdIndex vpn)) then (.pageNotPresent, vpn, s)
        else if isHuge (s.mem pd (pdIndex vpn)) then (.conflictingState, vpn, s)
        else
          let s := s.markUser pd (pdIndex vpn) (hasFlag mf mfUser)
          let pt := frameOf (s.mem pd (pdIndex vpn))
          let chunk := chunkSize vpn count
          match remapEntries (pteTemplate env.hasNx mf) pt (ptIndex vpn) chunk 0 s with
          | (.success, s) =>
            remapLoop env root mf fuel ((vpn + chunk) % wordLimit) (count - chunk) s
          | (st, s) => (st, vpn, s)

/-- Flushing the whole TLB also ends the quarantine. -/
def State.flushUnless (s : State) (doInvlpg : Bool) : State :=
  if doInvlpg then s else releaseQuarantinedPageTableFrames s

/-- `remap_memory`; the error returns inside the loop skip what follows it. -/
def remapMemory (env : Env) (s : State) (root vpn count : Nat) (mf : MapFlags) :
    StStatus × State :=
  if vpn > virtPageMax then (.invalidValue, s)
  else if pml4HoleStart ≤ vpn ∧ vpn ≤ pml4HoleEnd then (.invalidValue, s)
  else if endsInHole vpn count then (.invalidValue, s)
  else
    let doInvlpg := env.hasInvlpg && decide (count < 16)
    match remapLoop env root mf count vpn count (s.lockIf vpn) with
    | (.success, vpn', s) => (.success, (s.flushUnless doInvlpg).unlockIf vpn')
    | (st, _, s) => (st, s)

/-! ## Unmapping -/

/-- The entries of one page table in `unmap_memory`; `none` is `St_Panic`. -/
def unmapEntries (pt idx : Nat) : Nat → Nat → State → Option State
  | 0, _, s => some s
  | n + 1, i, s =>
    let k := Fin.ofNat 512 (idx + i)
    if !isPresent (s.mem pt k) then none
    else unmapEntries pt idx n (i + 1) (s.write pt k 0)

/-- The loop of `unmap_memory`. -/
def unmapLoop (root : Nat) : Nat → Nat → Nat → State → Option (Nat × State)
  | 0, vpn, _, s => some (vpn, s)
  | fuel + 1, vpn, count, s =>
    if count = 0 then some (vpn, s)
    else
      let pml4e := s.mem root (pml4Index vpn)
      let pdpte := s.mem (frameOf pml4e) (pdptIndex vpn)
      let pde := s.mem (frameOf pdpte) (pdIndex vpn)
      if !isPresent pml4e then none
      else if !isPresent pdpte then none
      else if !isPresent pde then none
      else
        let chunk := chunkSize vpn count
        match unmapEntries (frameOf pde) (ptIndex vpn) chunk 0 s with
        | none => none
        | some s => unmapLoop root fuel ((vpn + chunk) % wordLimit) (count - chunk) s

/-- `unmap_memory` -/
def unmapMemory (env : Env) (s : State) (root vpn count : Nat) : Option State :=
  if vpn > virtPageMax then some s
  else if pml4HoleStart ≤ vpn ∧ vpn ≤ pml4HoleEnd then some s
  else if endsInHole vpn count then some s
  else
    let doInvlpg := env.hasInvlpg && decide (count < 16)
    match unmapLoop root count vpn count (s.lockIf vpn) with
    | none => none
    | some (vpn', s) => some ((s.flushUnless doInvlpg).unlockIf vpn')

end FoliOS.Strata.Paging
