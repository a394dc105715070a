import FoliOS.Strata.Paging.Model
import FoliOS.Strata.Pmm.Model
import FoliOS.Strata.Vmm.Model

/-!
# Strata — sparse memory (`mm/mm.c`)

The functions that fill pages of a global or local domain with frames taken in batches, and what
they do when a batch cannot be had or cannot be mapped.

* The kernel and every address space have page tables, read as the partial map from pages to frames
  that they represent. `StMmP_MapGlobalContiguousMemory` and `StMmP_MapLocalContiguousMemory` map
  all pages of a call or none; when they fail is up to the `Platform`.
* The PMM is a `FrameSupply`: a run of free frames, a failure, or, for fewer than 32 frames, a
  success that leaves `*pfn` as it was (the small path of `StPmm_AllocateContiguousFrame` when its
  search ends without a run). `live` has the order of every run in use by its first frame, `charge`
  its owner and `usage` the page count of every owner.

Global and local functions of a pair differ in the domain only and share a definition here. Locks,
logging, the contents of frames, the managed marks of entries without a frame and the frames of page
tables and of the VMM's node slabs are left out.
-/

namespace FoliOS.Strata.Mm.Sparse

open Paging (isLocalVpn isGlobalVpn virtPageMax pml4HoleStart pml4HoleEnd)
open Pmm (frameLimit)
open Function Vmm

def afVmmReservationMask : AllocFlags :=
  afVmmReservationMap ||| afVmmReservationSparse ||| afVmmReservationOnDemand

/-! ## State -/

structure State where
  vmm : Vmm.State
  pages : Option Nat → Nat → Option Nat
  live : Nat → Option Nat
  charge : Nat → Option Nat
  usage : Nat → Nat

/-- The page tables of a domain: those of an address space, or the kernel's. -/
def tablesOf : DomainId → Option Nat
  | .global _ => none
  | .local asp => some asp

/-- `IS_GLOBAL_VPN`, `IS_LOCAL_VPN` -/
def onSide : DomainId → Nat → Bool
  | .global _ => isGlobalVpn
  | .local _ => isLocalVpn

/-- `StPmm_AllocateContiguousFrame` for `2 ^ order` frames; `none` is a success that did not write
`*pfn`. -/
structure FrameSupply where
  allocate : (Nat → Option Nat) → Nat → Option Nat → AllocFlags → Except StStatus (Option Nat)
  fresh : ∀ live order owner af pfn, allocate live order owner af = .ok (some pfn) →
    pfn + 2 ^ order ≤ frameLimit ∧
      ∀ base o, live base = some o → base + 2 ^ o ≤ pfn ∨ pfn + 2 ^ order ≤ base
  small : ∀ live order owner af, allocate live order owner af = .ok none → order < 5
  failure : ∀ live order owner af e, allocate live order owner af = .error e →
      checkSuccess e = false

/-- The checks of `map_memory` and `unmap_memory` against the hole between the two halves. -/
def clearOfHole (vpn count : Nat) : Bool :=
  !decide (pml4HoleStart ≤ vpn ∧ vpn ≤ pml4HoleEnd) &&
    !decide (pml4HoleStart ≤ vpn + count ∧ vpn + count - 1 ≤ pml4HoleEnd)

/-- What a call gets from the layers below: `map` is the result of mapping, given the page tables as
they are; `manage` that of marking pages which are to be filled on demand; `remap` and `fill` are
those of changing entries in place and of copying a page of an image. -/
structure Platform where
  nodes : FrameSource
  frames : FrameSupply
  map : (Option Nat → Nat → Option Nat) → DomainId → Nat → Nat → Nat → MapFlags → StStatus
  manage : StStatus
  remap : StStatus
  fill : StStatus
  accepted : ∀ pages d pfn vpn count mf, checkSuccess (map pages d pfn vpn count mf) = true →
    onSide d vpn = true ∧ vpn + count ≤ virtPageMax ∧ clearOfHole vpn count = true

def State.setPages (s : State) (d : DomainId) (m : Nat → Option Nat) : State :=
  { s with pages := update s.pages (tablesOf d) m }

/-! ## Frames -/

/-- `page_usage_count` of the owner after `n` more frames. -/
def addUsage (usage : Nat → Nat) (owner : Option Nat) (n : Nat) : Nat → Nat :=
  match owner with
  | none => usage
  | some o => update usage o (usage o + n)

/-- `page_usage_count` of the owner after `n` frames fewer, 0 if there were not so many. -/
def subUsage (usage : Nat → Nat) (owner : Option Nat) (n : Nat) : Nat → Nat :=
  match owner with
  | none => usage
  | some o => update usage o (usage o - n)

/-- The state after the PMM has handed out a run. -/
def State.take (s : State) (pfn order : Nat) (owner : Option Nat) : State :=
  { s with
    live := update s.live pfn (some order)
    charge := update s.charge pfn owner
    usage := addUsage s.usage owner (2 ^ order) }

/-- The state after the PMM has taken a run back. -/
def State.drop (s : State) (pfn order : Nat) : State :=
  { s with
    live := update s.live pfn none
    charge := update s.charge pfn none
    usage := subUsage s.usage (s.charge pfn) (2 ^ order) }

/-- `StPmm_FreeContiguousFrame`; `none` when it panics. -/
def stPmmFreeContiguousFrame (s : State) (pfn : Nat) : Option State :=
  (s.live pfn).map fun order => s.drop pfn order

/-! ## Pages -/

/-- `StMm_GlobalVirtPageToPhysFrame`, `StMm_LocalVirtPageToPhysFrame` -/
def virtPageToPhysFrame (s : State) (d : DomainId) (vpn : Nat) : Except StStatus Nat :=
  if !onSide d vpn then .error .invalidValue
  else if vpn > virtPageMax then .error .invalidValue
  else
    match s.pages (tablesOf d) vpn with
    | none => .error .pageNotPresent
    | some pfn => .ok pfn

/-- Whether a page is reported as not present. -/
def State.unmapped (s : State) (d : DomainId) (vpn : Nat) : Bool :=
  match virtPageToPhysFrame s d vpn with
  | .error .pageNotPresent => true
  | _ => false

/-- `StMmP_MapGlobalContiguousMemory`, `StMmP_MapLocalContiguousMemory`. An entry has 40 bits for
the frame number. -/
def mapContiguousMemory (plat : Platform) (s : State) (d : DomainId) (pfn vpn count : Nat)
    (mf : MapFlags) : StStatus × State :=
  let st := plat.map s.pages d pfn vpn count mf
  if checkSuccess st then
    (st, s.setPages d fun p =>
      if vpn ≤ p ∧ p < vpn + count then some ((pfn + (p - vpn)) % 2 ^ 40) else s.pages
        (tablesOf d) p)
  else (st, s)

/-- The loop of `unmap_memory`; `none` when it panics. -/
def unmapPages : Nat → (Nat → Option Nat) → Nat → Option (Nat → Option Nat)
  | 0, m, _ => some m
  | count + 1, m, vpn =>
    if (m vpn).isSome then unmapPages count (update m vpn none) (vpn + 1) else none

/-- `StMmP_UnmapGlobalContiguousMemory`, `StMmP_UnmapLocalContiguousMemory`; `none` when they
panic. -/
def unmapContiguousMemory (s : State) (d : DomainId) (vpn count : Nat) : Option State :=
  if !onSide d vpn then some s
  else if vpn > virtPageMax then some s
  else if !clearOfHole vpn count then some s
  else (unmapPages count (s.pages (tablesOf d)) vpn).map (s.setPages d)

/-! ## Filling pages in batches -/

/-- What a loop fills pages with. `taken` is the status it ends with at a page that is present. -/
structure Job where
  domain : DomainId
  vpn : Nat
  count : Nat
  owner : Option Nat
  allocFlags : AllocFlags
  mapFlags : MapFlags
  taken : StStatus

/-- The check that no page of a batch is present: the status it ends the loop with. -/
def Job.batchCheck (j : Job) (s : State) : Nat → Nat → Option StStatus
  | 0, _ => none
  | n + 1, vpn =>
    match virtPageToPhysFrame s j.domain vpn with
    | .error .pageNotPresent => j.batchCheck s n (vpn + 1)
    | .error e => some e
    | .ok _ => some j.taken

/-- `get_sparse_alloc_batch_count` for pages that remain: the exponent of the power of two. -/
def batchOrder (remaining : Nat) : Nat := Nat.log2 remaining

/-- `allocate_sparse_frame_batch`, whose batches have at most `2 ^ order` frames at `order + 1`:
what was written to `*pfn`, and the order of the batch. -/
def allocateSparseFrameBatch (frames : FrameSupply) (live : Nat → Option Nat) (owner : Option Nat)
    (af : AllocFlags) : Nat → Except StStatus (Option Nat × Nat)
  | 0 => .error .insufficientMemory
  | order + 1 =>
    match frames.allocate live order owner (af &&& ~~~afAlignMask) with
    | .ok written => .ok (written, order)
    | .error e =>
      if e ≠ .insufficientMemory then .error e
      else allocateSparseFrameBatch frames live owner af order

/-- The state after a batch that was written to `*pfn`, or was not. -/
def State.receive (s : State) (written : Option Nat) (order : Nat) (owner : Option Nat) : State :=
  match written with
  | none => s
  | some pfn => s.take pfn order owner

/-- `(St_PhysFrame)-1` -/
def unsetFrame : Nat := 2 ^ 64 - 1

/-- How a loop ends: at `has_error` with a status, or with all pages. -/
structure Progress where
  error : Option StStatus
  allocated : Nat
  state : State

/-- The loop of the sparse functions, with `pfn` as the batch before left it; every round maps at
least a page, so `fuel` pages suffice. `none` when a free panics. -/
def Job.fill (plat : Platform) (j : Job) : Nat → State → Nat → Nat → Option Progress
  | 0, s, allocated, _ => some ⟨none, allocated, s⟩
  | fuel + 1, s, allocated, pfn =>
    if allocated ≥ j.count then some ⟨none, allocated, s⟩
    else
      match j.batchCheck s (2 ^ batchOrder (j.count - allocated)) (j.vpn + allocated) with
      | some e => some ⟨some e, allocated, s⟩
      | none =>
        match allocateSparseFrameBatch plat.frames s.live j.owner j.allocFlags
            (batchOrder (j.count - allocated) + 1) with
        | .error e => some ⟨some e, allocated, s⟩
        | .ok (written, order) =>
          let pfn := written.getD pfn
          let s := s.receive written order j.owner
          match mapContiguousMemory plat s j.domain pfn (j.vpn + allocated) (2 ^ order)
            j.mapFlags with
          | (st, s) =>
            if checkSuccess st then j.fill plat fuel s (allocated + 2 ^ order) pfn
            else (stPmmFreeContiguousFrame s pfn).map fun s => ⟨some st, allocated, s⟩

/-- `rollback_global_sparse_allocation`, `rollback_local_sparse_allocation`; `none` when a free
panics. -/
def rollbackSparseAllocation (d : DomainId) (vpn allocated : Nat) : Nat → State → Nat → Option State
  | 0, s, _ => some s
  | fuel + 1, s, i =>
    if i ≥ allocated then some s
    else
      match virtPageToPhysFrame s d (vpn + i) with
      | .error _ => rollbackSparseAllocation d vpn allocated fuel s (i + 1)
      | .ok pfn =>
        match s.live pfn with
        | none => none
        | some order =>
          rollbackSparseAllocation d vpn allocated fuel (s.drop pfn order) (i + 2 ^ order)

/-- The frames of a loop that failed are freed, then its pages unmapped. -/
def Job.undo (j : Job) (allocated : Nat) (s : State) : Option State :=
  (rollbackSparseAllocation j.domain j.vpn allocated allocated s 0).bind fun s =>
    unmapContiguousMemory s j.domain j.vpn allocated

/-! ## Sparse allocation -/

/-- `StVmm_ReleaseGlobalPage`, `StVmm_ReleaseLocalPage` -/
def releasePages (s : Vmm.State) : DomainId → Nat → Nat → Vmm.State
  | .global g => stVmmReleaseGlobalPage s g
  | .local asp => stVmmReleaseLocalPage s asp

/-- What follows a successful reservation: status, page and state; `none` when it panics. -/
def Job.allocate (plat : Platform) (j : Job) (s : State) : Option (StStatus × Nat × State) :=
  (j.fill plat j.count s 0 unsetFrame).bind fun p =>
    match p.error with
    | none => some (.success, j.vpn, p.state)
    | some e => (j.undo p.allocated p.state).map fun s =>
        (e, 0, { s with vmm := releasePages s.vmm j.domain j.vpn j.count })

/-- The loop of an allocation goes on only while pages are not present; at one that is, it ends
with the status of the successful lookup. -/
def allocationJob (d : DomainId) (vpn count : Nat) (owner : Option Nat) (af : AllocFlags)
    (mf : MapFlags) : Job :=
  ⟨d, vpn, count, owner, af, mf, .success⟩

/-- `StMm_AllocateGlobalSparse` -/
def stMmAllocateGlobalSparse (plat : Platform) (s : State) (g : GlobalDomain) (count : Nat)
    (owner : Option Nat) (af : AllocFlags) (mf : MapFlags) : Option (StStatus × Nat × State) :=
  match stVmmReserveGlobalPage plat.nodes (s.unmapped (.global g)) s.vmm g count owner af mf with
  | (.success, vpn, vmm) => (allocationJob (.global g) vpn count owner af mf).allocate plat
      { s with vmm }
  | (e, _, vmm) => some (e, 0, { s with vmm })

/-- `StMm_AllocateGlobalSparseTo` -/
def stMmAllocateGlobalSparseTo (plat : Platform) (s : State) (g : GlobalDomain) (vpn count : Nat)
    (owner : Option Nat) (af : AllocFlags) (mf : MapFlags) : Option (StStatus × Nat × State) :=
  if !isGlobalVpn vpn then some (.invalidValue, 0, s)
  else
    match stVmmReserveGlobalPageTo plat.nodes (s.unmapped (.global g)) s.vmm g vpn count owner af
      mf with
    | (.success, vmm) => (allocationJob (.global g) vpn count owner af mf).allocate plat
        { s with vmm }
    | (e, vmm) => some (e, 0, { s with vmm })

/-- The allocation flags of a reservation in an address space. -/
def sparseFlags (af : AllocFlags) (mf : MapFlags) : AllocFlags :=
  if !hasFlag mf mfImmediate then af ||| afVmmReservationSparse ||| afVmmReservationOnDemand
  else af ||| afVmmReservationSparse

/-- What follows a reservation in an address space. Without `MF_IMMEDIATE` the pages are only marked
(`StMmP_MapLocalSparseMemory`). -/
def fillLocal (plat : Platform) (s : State) (asp vpn count : Nat) (af : AllocFlags)
    (mf : MapFlags) :
    Option (StStatus × Nat × State) :=
  if !hasFlag mf mfImmediate then
    let st := if !isLocalVpn vpn then .invalidValue else plat.manage
    if checkSuccess st then some (.success, vpn, s)
    else some (st, 0, { s with vmm := stVmmReleaseLocalPage s.vmm asp vpn count })
  else
    (allocationJob (.local asp) vpn count (s.vmm.doms (.local asp)).owner af mf).allocate plat s

/-- `StMm_AllocateLocalSparse` -/
def stMmAllocateLocalSparse (plat : Platform) (s : State) (asp count : Nat) (af : AllocFlags)
    (mf : MapFlags) : Option (StStatus × Nat × State) :=
  match stVmmReserveLocalPage plat.nodes (s.unmapped (.local asp)) s.vmm asp count
    (sparseFlags af mf)
      mf with
  | (.success, vpn, vmm) => fillLocal plat { s with vmm } asp vpn count af mf
  | (e, _, vmm) => some (e, 0, { s with vmm })

/-- `StMm_AllocateLocalSparseTo` -/
def stMmAllocateLocalSparseTo (plat : Platform) (s : State) (asp vpn count : Nat) (af : AllocFlags)
    (mf : MapFlags) : Option (StStatus × Nat × State) :=
  if !isLocalVpn vpn then some (.invalidValue, 0, s)
  else
    match stVmmReserveLocalPageTo plat.nodes (s.unmapped (.local asp)) s.vmm asp vpn count
        (sparseFlags af mf) mf with
    | (.success, vmm) => fillLocal plat { s with vmm } asp vpn count af mf
    | (e, vmm) => some (e, 0, { s with vmm })

/-! ## Commit -/

/-- `validate_global_commit_range`, `validate_local_commit_range`, from the reserved range and the
page information found for `vpn`. -/
def validateCommitRange (range : Except StStatus (Nat × Nat)) (info : Except StStatus PageInfo)
    (vpn count : Nat) : Except StStatus PageInfo :=
  if count = 0 then .error .invalidValue
  else
    match range with
    | .error e => .error e
    | .ok (first, limit) =>
      if vpn < first ∨ limit - vpn < count then .error .invalidValue
      else
        match info with
        | .error e => .error e
        | .ok info =>
          if hasFlag info.allocFlags afVmmReservationMap then .error .notPermitted
          else if info.mappingPolicy ≠ .physical then .error .notPermitted
          else .ok info

/-- The loop of a commit ends with an error of its own at a page that is present. -/
def commitJob (d : DomainId) (vpn count : Nat) (info : PageInfo) : Job :=
  ⟨d, vpn, count, info.owner, info.allocFlags &&& ~~~afVmmReservationMask, info.mapFlags,
    .duplicateEntry⟩

/-- `commit_global_sparse`, `commit_local_sparse`; `none` when it panics. -/
def Job.commit (plat : Platform) (j : Job) (s : State) : Option (StStatus × State) :=
  (j.fill plat j.count s 0 unsetFrame).bind fun p =>
    match p.error with
    | none => some (.success, p.state)
    | some e =>
      if p.allocated > 0 then (j.undo p.allocated p.state).map fun s => (e, s)
      else some (e, p.state)

/-- `commit_global_contiguous`, `commit_local_contiguous`: one run for all pages. -/
def Job.commitContiguous (plat : Platform) (j : Job) (s : State) : Option (StStatus × State) :=
  match j.batchCheck s j.count j.vpn with
  | some e => some (e, s)
  | none =>
    match Pmm.getOrder j.count with
    | none => some (.invalidValue, s)
    | some order =>
      match plat.frames.allocate s.live order j.owner j.allocFlags with
      | .error e => some (e, s)
      | .ok written =>
        let pfn := written.getD unsetFrame
        let s := s.receive written order j.owner
        match mapContiguousMemory plat s j.domain pfn j.vpn j.count j.mapFlags with
        | (st, s) =>
          if checkSuccess st then some (.success, s)
          else (stPmmFreeContiguousFrame s pfn).map fun s => (st, s)

/-- What follows a commit's checks. -/
def commitPages (plat : Platform) (s : State) (d : DomainId) (vpn count : Nat) :
    Except StStatus PageInfo → Option (StStatus × State)
  | .error e => some (e, s)
  | .ok info =>
    if !info.sparse then (commitJob d vpn count info).commitContiguous plat s
    else (commitJob d vpn count info).commit plat s

/-- `StMm_CommitGlobal` -/
def stMmCommitGlobal (plat : Platform) (s : State) (g : GlobalDomain) (vpn count : Nat) :
    Option (StStatus × State) :=
  commitPages plat s (.global g) vpn count
    (validateCommitRange (stVmmGetGlobalReservedRange s.vmm g vpn)
      (stVmmGetGlobalPageInfo s.vmm g vpn)
      vpn count)

/-- `StMm_CommitLocal` -/
def stMmCommitLocal (plat : Platform) (s : State) (asp vpn count : Nat) :
    Option (StStatus × State) :=
  commitPages plat s (.local asp) vpn count
    (validateCommitRange (stVmmGetLocalReservedRange s.vmm asp vpn)
      (stVmmGetLocalPageInfo s.vmm asp vpn)
      vpn count)

end FoliOS.Strata.Mm.Sparse
