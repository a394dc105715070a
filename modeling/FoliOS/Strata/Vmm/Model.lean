import FoliOS.Strata.Basic

/-!
# Strata — the virtual memory manager (`mm/vmm.c`)

Each domain, one of five global ones or the user half of an address space,
keeps its reservations in an intrusive doubly linked list sorted by page. The
list nodes come from a static array and, once that is used up, from one-frame
slabs whose free nodes form a free list; all domains share these nodes.

A node pointer is a `NodeRef`: an index into the early array, or a slab's frame
and a slot in it. Whether a page is present in the page table is asked through
a predicate `unmapped`, and frames for new slabs come from a `FrameSource`.
Interrupt and preemption locking, logging and reference counts are left out.
-/

namespace FoliOS.Strata.Vmm

/-! ## Build constants -/

def earlyReservationNodePoolCount : Nat := 1024
def dynamicReservationNodeLowWatermark : Nat := 16
def dynamicReservationNodeMaxSlabs : Nat := 256
def vmmGuardPageCount : Nat := 1

/-- `PAGE_SIZE / sizeof(struct vmm_reservation_node)` with a 144-byte node. -/
def nodesPerSlab : Nat := 28

/-- `SIZE_MAX + 1` -/
def wordLimit : Nat := 2 ^ 64

/-- 64-bit unsigned subtraction. -/
def subWord (a b : Nat) : Nat := (a + wordLimit - b) % wordLimit

/-! ## State -/

inductive NodeRef where
  | early (i : Nat)
  | slab (pfn i : Nat)
  deriving DecidableEq, Repr

/-- `enum StVmm_Domain` -/
inductive GlobalDomain where
  | kernelFast | kernelSlow | io | module | krtGlobal
  deriving DecidableEq, Repr

inductive DomainId where
  | global (d : GlobalDomain)
  | local (asp : Nat)
  deriving DecidableEq, Repr

/-- `struct StMm_ImageBacking` -/
structure ImageBacking where
  base : Nat
  size : Nat
  contentAddr : Nat
  contentOffset : Nat
  contentSize : Nat
  deriving DecidableEq, Repr

/-- `struct StVmm_PageMappingPolicy` -/
inductive MappingPolicy where
  | physical
  | demandZero
  | image (backing : ImageBacking)
  | guard
  deriving DecidableEq, Repr

/-- `struct vmm_reservation_node`; `home` stands for the pair `asp`, `domain`. -/
structure Node where
  baseVpn : Nat
  limitVpn : Nat
  owner : Option Nat
  ownerPrev : Option NodeRef
  ownerNext : Option NodeRef
  prev : Option NodeRef
  next : Option NodeRef
  home : Option DomainId
  reservationMap : Bool
  guardPageCount : Nat
  allocFlags : AllocFlags
  mapFlags : MapFlags
  mappingPolicy : MappingPolicy
  isLive : Bool

/-- A node after `memset(node, 0, sizeof(*node))`. -/
def Node.zeroed : Node :=
  ⟨0, 0, none, none, none, none, none, none, false, 0, 0, 0, .physical, false⟩

/-- `struct vmm_reservation_domain`, and the `user_*` fields of an address space.
`owner` is the allocation owner of the address space's process. -/
structure Domain where
  head : Option NodeRef
  baseVpn : Nat
  limitVpn : Nat
  freeCount : Nat
  initialized : Bool
  owner : Option Nat

/-- The reservation list of a `struct StAllocationOwner`. -/
structure Owner where
  first : Option NodeRef
  last : Option NodeRef
  closed : Bool

/-- `freelist` holds the nodes threaded on `dynamic_reservation_node_freelist`,
`slabs` the frames in `dynamic_reservation_node_slabs`. -/
structure State where
  nodes : NodeRef → Node
  doms : DomainId → Domain
  owners : Nat → Owner
  earlyUsed : Nat
  freelist : List NodeRef
  slabs : List Nat

/-- `StPmm_AllocateContiguousFrame(&pfn, 1, NULL, AF_DEFAULT)` as the node pool
uses it, for the first and a second attempt: a failure, or a frame that no
slab occupies. The PMM also reports success when it has no frame, and does not
write `pfn`, which is -1 then. The `memset` of the new slab is at
`0xFFFFBFFFFFFFF000` in that case, where nothing is ever mapped, and faults. So
`fresh` holds of every run that returns. -/
structure FrameSource where
  allocate : Nat → List Nat → Except StStatus Nat
  fresh : ∀ k slabs pfn, allocate k slabs = .ok pfn → pfn ∉ slabs
  failure : ∀ k slabs e, allocate k slabs = .error e → checkSuccess e = false

def initial : State where
  nodes := fun _ => Node.zeroed
  doms := fun _ => ⟨none, 0, 0, 0, false, none⟩
  owners := fun _ => ⟨none, none, false⟩
  earlyUsed := 0
  freelist := []
  slabs := []

def State.modNode (s : State) (r : NodeRef) (f : Node → Node) : State :=
  { s with nodes := Function.update s.nodes r (f (s.nodes r)) }

/-- A write guarded by a null check of the node pointer. -/
def State.modNode? (s : State) (p : Option NodeRef) (f : Node → Node) : State :=
  match p with
  | some r => s.modNode r f
  | none => s

def State.modDom (s : State) (d : DomainId) (f : Domain → Domain) : State :=
  { s with doms := Function.update s.doms d (f (s.doms d)) }

def State.modOwner (s : State) (o : Nat) (f : Owner → Owner) : State :=
  { s with owners := Function.update s.owners o (f (s.owners o)) }

/-! ## The node pool -/

/-- `dynamic_reservation_node_total_count` -/
def State.dynamicTotal (s : State) : Nat := s.slabs.length * nodesPerSlab

/-- `is_node_in_dynamic_pool` -/
def isNodeInDynamicPool (s : State) : NodeRef → Bool
  | .early _ => false
  | .slab pfn i => decide (pfn ∈ s.slabs) && decide (i < nodesPerSlab)

/-- `is_node_in_pool` -/
def isNodeInPool (s : State) : NodeRef → Bool
  | .early i => decide (i < earlyReservationNodePoolCount)
  | .slab pfn i => isNodeInDynamicPool s (.slab pfn i)

/-- The nodes of a new slab, zeroed and pushed one after the other. -/
def pushSlab (s : State) (pfn : Nat) : State :=
  (List.range nodesPerSlab).foldl
    (fun s i => { (s.modNode (.slab pfn i) fun _ => Node.zeroed) with
      freelist := .slab pfn i :: s.freelist }) { s with slabs := s.slabs ++ [pfn] }

/-- `topup_dynamic_reservation_node_pool` -/
def topupDynamicReservationNodePool (fs : FrameSource) (k : Nat) (s : State) : StStatus × State :=
  if s.slabs.length ≥ dynamicReservationNodeMaxSlabs then (.tooLarge, s)
  else
    match fs.allocate k s.slabs with
    | .error e => (e, s)
    | .ok pfn => (.success, pushSlab s pfn)

/-- `maybe_topup_dynamic_reservation_node_pool` -/
def maybeTopupDynamicReservationNodePool (fs : FrameSource) (s : State) : State :=
  if s.freelist.length > dynamicReservationNodeLowWatermark then s
  else (topupDynamicReservationNodePool fs 0 s).2

/-- `release_reservation_node` -/
def releaseReservationNode (s : State) (r : NodeRef) : State :=
  let s := s.modNode r fun n => { n with isLive := false }
  if isNodeInDynamicPool s r then { s with freelist := r :: s.freelist } else s

/-- `create_reservation_node` -/
def createReservationNode (fs : FrameSource) (s : State) : Except StStatus NodeRef × State :=
  match (List.range s.earlyUsed).find? fun i => !(s.nodes (.early i)).isLive with
  | some i => (.ok (.early i), s.modNode (.early i) fun _ => Node.zeroed)
  | none =>
    if s.earlyUsed < earlyReservationNodePoolCount then
      (.ok (.early s.earlyUsed),
        { (s.modNode (.early s.earlyUsed) fun _ => Node.zeroed) with earlyUsed := s.earlyUsed + 1 })
    else
      let s := maybeTopupDynamicReservationNodePool fs s
      let s := if s.freelist = [] then (topupDynamicReservationNodePool fs 1 s).2 else s
      match s.freelist with
      | [] => (.error .insufficientMemory, s)
      | r :: rest =>
        (.ok r, { (s.modNode r fun _ => Node.zeroed) with freelist := rest })

/-! ## Page arithmetic -/

/-- `make_limit_exclusive` -/
def makeLimitExclusive (baseVpn count : Nat) : Except StStatus Nat :=
  if count = 0 then .error .invalidValue
  else
    let limit := (baseVpn + count) % wordLimit
    if limit < baseVpn then .error .invalidValue else .ok limit

/-- `guard_page_count_from_map_flags` -/
def guardPageCountFromMapFlags (mf : MapFlags) : Nat :=
  if hasFlag mf mfGuard then vmmGuardPageCount else 0

/-- `validate_guard_map_flags` -/
def validateGuardMapFlags (mf : MapFlags) (allowGrowDown : Bool) : StStatus :=
  if hasFlag mf mfGuardGrowDown && !hasFlag mf mfGuard then .invalidValue
  else if hasFlag mf mfGuardGrowDown && !allowGrowDown then .invalidValue
  else if hasFlag mf mfGuardGrowDown && hasFlag mf mfImmediate then .invalidValue
  else .success

/-- `make_guarded_count` -/
def makeGuardedCount (count guardCount : Nat) : Except StStatus Nat :=
  if count = 0 then .error .invalidValue
  else if guardCount > wordLimit - 1 - count then .error .tooLarge
  else .ok (count + guardCount)

/-- `make_node_range_from_usable`: base, exclusive limit and total count. -/
def makeNodeRangeFromUsable (usableVpn count guardCount : Nat) :
    Except StStatus (Nat × Nat × Nat) :=
  match makeGuardedCount count guardCount with
  | .error e => .error e
  | .ok total =>
    if guardCount > usableVpn then .error .invalidValue
    else
      match makeLimitExclusive (usableVpn - guardCount) total with
      | .error e => .error e
      | .ok limit => .ok (usableVpn - guardCount, limit, total)

/-- `make_domain_limit_exclusive` -/
def makeDomainLimitExclusive (limitInclusive : Nat) : Except StStatus Nat :=
  if limitInclusive = wordLimit - 1 then .error .conflictingState else .ok (limitInclusive + 1)

/-- `node_usable_base_vpn` -/
def Node.usableBaseVpn (n : Node) : Nat := n.baseVpn + n.guardPageCount

/-- `node_total_page_count` -/
def Node.totalPageCount (n : Node) : Nat := n.limitVpn - n.baseVpn

/-! ## Walking a reservation list -/

/-- The nodes reached from `head` along `domain_next`, at most `fuel` of them. -/
def State.walk (s : State) : Nat → Option NodeRef → List NodeRef
  | 0, _ => []
  | _, none => []
  | fuel + 1, some r => r :: s.walk fuel (s.nodes r).next

/-- The reservation list of a domain. No list holds more nodes than exist. -/
def State.listOf (s : State) (d : DomainId) : List NodeRef :=
  s.walk (s.earlyUsed + s.dynamicTotal) (s.doms d).head

/-- The loop of `validate_domain_list`; the fuel is its `guard` counter. -/
def validateLoop (s : State) : Nat → Option NodeRef → Option NodeRef → Bool
  | _, _, none => true
  | 0, _, some _ => false
  | guard + 1, prev, some r =>
    let n := s.nodes r
    isNodeInPool s r && n.isLive && decide (n.prev = prev) && decide (n.baseVpn < n.limitVpn) &&
    (match prev with
      | some p => decide ((s.nodes p).baseVpn < n.baseVpn)
      | none => true) &&
    (match n.next with
      | some q => isNodeInPool s q
      | none => true) &&
    validateLoop s guard (some r) n.next

/-- `validate_domain_list` -/
def validateDomainList (s : State) (d : DomainId) : Bool :=
  validateLoop s (s.earlyUsed + s.dynamicTotal + 1) none (s.doms d).head

/-- The loop of `find_overlap`. -/
def overlapLoop (s : State) (baseVpn limitVpn : Nat) : List NodeRef → Option NodeRef
  | [] => none
  | r :: l =>
    if (s.nodes r).baseVpn ≥ limitVpn then none
    else if baseVpn < (s.nodes r).limitVpn ∧ (s.nodes r).baseVpn < limitVpn then some r
    else overlapLoop s baseVpn limitVpn l

/-- `find_overlap` -/
def findOverlap (s : State) (d : DomainId) (baseVpn count : Nat) : Option NodeRef :=
  match makeLimitExclusive baseVpn count with
  | .error _ => none
  | .ok limit => overlapLoop s baseVpn limit (s.listOf d)

/-- The loop of `find_exact_releasable`. -/
def releasableLoop (s : State) (vpn limitVpn : Nat) : List NodeRef → Option NodeRef
  | [] => none
  | r :: l =>
    let n := s.nodes r
    if n.baseVpn = vpn ∧ n.limitVpn = limitVpn then some r
    else if n.usableBaseVpn = vpn ∧ n.limitVpn = limitVpn then some r
    else if n.baseVpn > vpn ∧ n.usableBaseVpn > vpn then none
    else releasableLoop s vpn limitVpn l

/-- `find_exact_releasable` -/
def findExactReleasable (s : State) (d : DomainId) (vpn count : Nat) : Option NodeRef :=
  match makeLimitExclusive vpn count with
  | .error _ => none
  | .ok limit => releasableLoop s vpn limit (s.listOf d)

/-- The loop of `find_first_fit_from` over the (base, limit) pairs of a list. -/
def firstFitLoop (domainLimit count : Nat) : List (Nat × Nat) → Nat → Except StStatus Nat
  | [], candidate =>
    if domainLimit > candidate ∧ domainLimit - candidate ≥ count then .ok candidate
    else .error .insufficientMemory
  | (base, limit) :: l, candidate =>
    if limit ≤ candidate then firstFitLoop domainLimit count l candidate
    else if base > candidate ∧ base - candidate ≥ count then .ok candidate
    else if limit ≥ domainLimit then .error .insufficientMemory
    else firstFitLoop domainLimit count l limit

/-- `find_first_fit_from` -/
def findFirstFitFrom (l : List (Nat × Nat)) (domainBase domainLimit count searchStart : Nat) :
    Except StStatus Nat :=
  if count = 0 then .error .invalidValue
  else
    match makeDomainLimitExclusive domainLimit with
    | .error e => .error e
    | .ok limit =>
      let candidate := if searchStart > domainBase then searchStart else domainBase
      if candidate ≥ limit then .error .insufficientMemory
      else firstFitLoop limit count l candidate

/-- The best candidate so far in a gap of `find_last_fit_before`. -/
def lastFitGap (count gapStart gapEnd : Nat) (best : Option Nat) : Option Nat :=
  if gapEnd > gapStart ∧ gapEnd - gapStart ≥ count then some (gapEnd - count) else best

/-- The loop of `find_last_fit_before`. -/
def lastFitLoop (candidateLimit count : Nat) :
    List (Nat × Nat) → Nat → Option Nat → Option Nat
  | [], gapStart, best => lastFitGap count gapStart candidateLimit best
  | (base, limit) :: l, gapStart, best =>
    if base ≥ candidateLimit then lastFitGap count gapStart candidateLimit best
    else if limit ≤ gapStart then lastFitLoop candidateLimit count l gapStart best
    else
      let best := lastFitGap count gapStart base best
      if limit ≥ candidateLimit then lastFitGap count limit candidateLimit best
      else lastFitLoop candidateLimit count l limit best

/-- `find_last_fit_before` -/
def findLastFitBefore (l : List (Nat × Nat)) (domainBase domainLimit count searchLimit : Nat) :
    Except StStatus Nat :=
  if count = 0 then .error .invalidValue
  else
    match makeDomainLimitExclusive domainLimit with
    | .error e => .error e
    | .ok limit =>
      let candidateLimit := if searchLimit > limit then limit else searchLimit
      if candidateLimit ≤ domainBase then .error .insufficientMemory
      else
        match lastFitLoop candidateLimit count l domainBase none with
        | some vpn => .ok vpn
        | none => .error .insufficientMemory

/-- The (base, limit) pairs of a domain's list. -/
def State.spans (s : State) (d : DomainId) : List (Nat × Nat) :=
  (s.listOf d).map fun r => ((s.nodes r).baseVpn, (s.nodes r).limitVpn)

/-- `is_global_range_unmapped`, `is_local_range_unmapped` -/
def isRangeUnmapped (unmapped : Nat → Bool) (baseVpn count : Nat) : Bool :=
  (List.range count).all fun i => unmapped (baseVpn + i)

/-! ## Linking nodes -/

/-- `attach_owner_node` -/
def attachOwnerNode (s : State) (r : NodeRef) (owner : Option Nat) : StStatus × State :=
  let s := s.modNode r fun n => { n with owner := none, ownerPrev := none, ownerNext := none }
  match owner with
  | none => (.success, s)
  | some o =>
    if (s.owners o).closed then (.conflictingState, s)
    else
      let last := (s.owners o).last
      let s := s.modNode r fun n => { n with owner := some o, ownerPrev := last }
      let s := s.modNode? last fun n => { n with ownerNext := some r }
      let s := if last = none then s.modOwner o fun w => { w with first := some r } else s
      (.success, s.modOwner o fun w => { w with last := some r })

/-- `detach_owner_node` -/
def detachOwnerNode (s : State) (r : NodeRef) : State :=
  let n := s.nodes r
  match n.owner with
  | none => s
  | some o =>
    let s := s.modNode? n.ownerPrev fun m => { m with ownerNext := n.ownerNext }
    let s := if n.ownerPrev = none then s.modOwner o fun w => { w with first := n.ownerNext } else s
    let s := s.modNode? n.ownerNext fun m => { m with ownerPrev := n.ownerPrev }
    let s := if n.ownerNext = none then s.modOwner o fun w => { w with last := n.ownerPrev } else s
    s.modNode r fun m => { m with owner := none, ownerPrev := none, ownerNext := none }

/-- The search of `insert_domain_node_sorted`: the neighbours of a node starting
at `baseVpn`. -/
def insertPosition (s : State) (baseVpn : Nat) :
    Option NodeRef → List NodeRef → Option NodeRef × Option NodeRef
  | prev, [] => (prev, none)
  | prev, r :: l =>
    if (s.nodes r).baseVpn < baseVpn then insertPosition s baseVpn (some r) l
    else (prev, some r)

/-- `insert_domain_node_sorted` -/
def insertDomainNodeSorted (s : State) (d : DomainId) (r : NodeRef) : StStatus × State :=
  let base := (s.nodes r).baseVpn
  let (prev, curr) := insertPosition s base none (s.listOf d)
  if (match curr with
      | some c => decide ((s.nodes c).baseVpn = base)
      | none => false) then (.duplicateEntry, s)
  else
    let s := s.modNode r fun n => { n with prev := prev, next := curr }
    let s := s.modNode? prev fun n => { n with next := some r }
    let s := if prev = none then s.modDom d fun x => { x with head := some r } else s
    (.success, s.modNode? curr fun n => { n with prev := some r })

/-- `remove_domain_node` -/
def removeDomainNode (s : State) (d : DomainId) (r : NodeRef) : State :=
  let n := s.nodes r
  let s := s.modNode? n.prev fun m => { m with next := n.next }
  let s := if n.prev = none ∧ (s.doms d).head = some r then
      s.modDom d fun x => { x with head := n.next }
    else s
  let s := s.modNode? n.next fun m => { m with prev := n.prev }
  s.modNode r fun m => { m with prev := none, next := none }

/-! ## Domains -/

/-- `StVmm_InitGlobalDomain`, `StVmm_InitLocalDomain` -/
def initDomain (s : State) (d : DomainId) (baseVpn limitVpn : Nat) (owner : Option Nat) :
    StStatus × State :=
  if limitVpn < baseVpn then (.invalidValue, s)
  else (.success, s.modDom d fun _ =>
    ⟨none, baseVpn, limitVpn, (limitVpn - baseVpn + 1) % wordLimit, true, owner⟩)

def stVmmInitGlobalDomain (s : State) (d : GlobalDomain) (baseVpn limitVpn : Nat) :
    StStatus × State :=
  initDomain s (.global d) baseVpn limitVpn none

def stVmmInitLocalDomain (s : State) (asp : Nat) (baseVpn limitVpn : Nat) (owner : Option Nat) :
    StStatus × State :=
  initDomain s (.local asp) baseVpn limitVpn owner

/-! ## Reserving -/

/-- What a reservation is made with. -/
structure Request where
  owner : Option Nat
  allocFlags : AllocFlags
  mapFlags : MapFlags
  policy : MappingPolicy

/-- `local_page_mapping_policy_from_flags` -/
def localPageMappingPolicyFromFlags (af : AllocFlags) (mf : MapFlags) : MappingPolicy :=
  if hasFlag af afVmmReservationOnDemand && !hasFlag mf mfImmediate then .demandZero else .physical

/-- The node fields set before a node is linked, `init_reservation_node_metadata`
included. -/
def newNode (d : DomainId) (baseVpn limitVpn : Nat) (req : Request) : Node :=
  { Node.zeroed with
    baseVpn, limitVpn, home := some d,
    reservationMap := hasFlag req.allocFlags afVmmReservationMap,
    guardPageCount := guardPageCountFromMapFlags req.mapFlags,
    allocFlags := req.allocFlags, mapFlags := req.mapFlags, mappingPolicy := req.policy,
    isLive := true }

/-- The common end of the four reserve functions: a node for `[baseVpn, limitVpn)`
is created, charged to its owner and linked. -/
def linkReservation (fs : FrameSource) (s : State) (d : DomainId) (baseVpn limitVpn total : Nat)
    (req : Request) : StStatus × State :=
  match createReservationNode fs s with
  | (.error e, s) => (e, s)
  | (.ok r, s) =>
    let s := s.modNode r fun _ => newNode d baseVpn limitVpn req
    match attachOwnerNode s r req.owner with
    | (.success, s) =>
      match insertDomainNodeSorted s d r with
      | (.success, s) =>
        (.success, s.modDom d fun x => { x with freeCount := subWord x.freeCount total })
      | (e, s) => (e, releaseReservationNode (detachOwnerNode s r) r)
    | (e, s) => (e, releaseReservationNode s r)

/-- The search loop of `StVmm_ReserveGlobalPage` and `StVmm_ReserveLocalPage`;
`none` when it is still running after `fuel` rounds. -/
def searchLoop (l : List (Nat × Nat)) (base limit total : Nat) (topdown : Bool)
    (unmapped : Nat → Bool) : Nat → Nat → Nat → Option (Except StStatus Nat)
  | 0, _, _ => none
  | fuel + 1, searchStart, searchLimit =>
    match (if topdown then findLastFitBefore l base limit total searchLimit
      else findFirstFitFrom l base limit total searchStart) with
    | .error e => some (.error e)
    | .ok candidate =>
      if isRangeUnmapped unmapped candidate total then some (.ok candidate)
      else if topdown then
        if candidate ≤ base then some (.error .insufficientMemory)
        else searchLoop l base limit total topdown unmapped fuel searchStart candidate
      else if candidate ≥ limit then some (.error .insufficientMemory)
      else searchLoop l base limit total topdown unmapped fuel (candidate + 1) searchLimit

/-- The locked part of `StVmm_ReserveGlobalPage` and `StVmm_ReserveLocalPage`. The
search needs at most one round per page of the domain (`searchLoop_isSome`). -/
def reservePage (fs : FrameSource) (unmapped : Nat → Bool) (s : State) (d : DomainId)
    (total : Nat) (req : Request) : StStatus × Nat × State :=
  let dom := s.doms d
  match makeDomainLimitExclusive dom.limitVpn with
  | .error e => (e, 0, s)
  | .ok searchLimit =>
    if dom.freeCount < total then (.insufficientMemory, 0, s)
    else if validateDomainList s d = false then (.systemCorrupted, 0, s)
    else
      match searchLoop (s.spans d) dom.baseVpn dom.limitVpn total
          (hasFlag req.allocFlags afVmmAllocTopdown) unmapped (dom.limitVpn + 2)
          dom.baseVpn searchLimit with
      | none => (.unknownError, 0, s)   -- the search never ends
      | some (.error e) => (e, 0, s)
      | some (.ok candidate) =>
        match linkReservation fs s d candidate (candidate + total) total req with
        | (.success, s) => (.success, candidate + guardPageCountFromMapFlags req.mapFlags, s)
        | (e, s) => (e, 0, s)

/-- `StVmm_ReserveGlobalPage` -/
def stVmmReserveGlobalPage (fs : FrameSource) (unmapped : Nat → Bool) (s : State)
    (d : GlobalDomain) (count : Nat) (owner : Option Nat) (af : AllocFlags) (mf : MapFlags) :
    StStatus × Nat × State :=
  match validateGuardMapFlags mf false with
  | .success =>
    match makeGuardedCount count (guardPageCountFromMapFlags mf) with
    | .error e => (e, 0, s)
    | .ok total =>
      if (s.doms (.global d)).initialized = false then (.conflictingState, 0, s)
      else reservePage fs unmapped s (.global d) total ⟨owner, af, mf, .physical⟩
  | e => (e, 0, s)

/-- `StVmm_ReserveLocalPage` -/
def stVmmReserveLocalPage (fs : FrameSource) (unmapped : Nat → Bool) (s : State) (asp : Nat)
    (count : Nat) (af : AllocFlags) (mf : MapFlags) : StStatus × Nat × State :=
  if (s.doms (.local asp)).initialized = false then (.invalidValue, 0, s)
  else
    match validateGuardMapFlags mf true with
    | .success =>
      match makeGuardedCount count (guardPageCountFromMapFlags mf) with
      | .error e => (e, 0, s)
      | .ok total =>
        reservePage fs unmapped s (.local asp) total
          ⟨(s.doms (.local asp)).owner, af, mf, localPageMappingPolicyFromFlags af mf⟩
    | e => (e, 0, s)

/-- The locked part of the two functions that reserve at a chosen page. -/
def reservePageTo (fs : FrameSource) (unmapped : Nat → Bool) (s : State) (d : DomainId)
    (baseVpn limitVpn total : Nat) (req : Request) : StStatus × State :=
  let dom := s.doms d
  if baseVpn < dom.baseVpn ∨ limitVpn - 1 > dom.limitVpn then (.invalidValue, s)
  else if dom.freeCount < total then (.insufficientMemory, s)
  else if validateDomainList s d = false then (.systemCorrupted, s)
  else if (findOverlap s d baseVpn total).isSome then (.conflictingState, s)
  else if isRangeUnmapped unmapped baseVpn total = false then (.conflictingState, s)
  else linkReservation fs s d baseVpn limitVpn total req

/-- `StVmm_ReserveGlobalPageTo` -/
def stVmmReserveGlobalPageTo (fs : FrameSource) (unmapped : Nat → Bool) (s : State)
    (d : GlobalDomain) (vpn count : Nat) (owner : Option Nat) (af : AllocFlags) (mf : MapFlags) :
    StStatus × State :=
  match validateGuardMapFlags mf false with
  | .success =>
    match makeNodeRangeFromUsable vpn count (guardPageCountFromMapFlags mf) with
    | .error e => (e, s)
    | .ok (base, limit, total) =>
      if (s.doms (.global d)).initialized = false then (.conflictingState, s)
      else reservePageTo fs unmapped s (.global d) base limit total ⟨owner, af, mf, .physical⟩
  | e => (e, s)

/-- `reserve_local_page_to_with_policy` -/
def reserveLocalPageToWithPolicy (fs : FrameSource) (unmapped : Nat → Bool) (s : State)
    (asp : Nat) (vpn count : Nat) (af : AllocFlags) (mf : MapFlags) (policy : MappingPolicy) :
    StStatus × State :=
  if (s.doms (.local asp)).initialized = false then (.invalidValue, s)
  else
    match validateGuardMapFlags mf true with
    | .success =>
      match makeNodeRangeFromUsable vpn count (guardPageCountFromMapFlags mf) with
      | .error e => (e, s)
      | .ok (base, limit, total) =>
        reservePageTo fs unmapped s (.local asp) base limit total
          ⟨(s.doms (.local asp)).owner, af, mf, policy⟩
    | e => (e, s)

/-- `StVmm_ReserveLocalPageTo` -/
def stVmmReserveLocalPageTo (fs : FrameSource) (unmapped : Nat → Bool) (s : State) (asp : Nat)
    (vpn count : Nat) (af : AllocFlags) (mf : MapFlags) : StStatus × State :=
  reserveLocalPageToWithPolicy fs unmapped s asp vpn count af mf
    (localPageMappingPolicyFromFlags af mf)

/-- `StVmm_ReserveLocalImagePageTo` -/
def stVmmReserveLocalImagePageTo (fs : FrameSource) (unmapped : Nat → Bool) (s : State)
    (asp : Nat) (vpn count : Nat) (backing : ImageBacking) (af : AllocFlags) (mf : MapFlags) :
    StStatus × State :=
  if hasFlag mf mfGuardGrowDown then (.invalidValue, s)
  else if hasFlag mf mfImmediate then (.invalidValue, s)
  else reserveLocalPageToWithPolicy fs unmapped s asp vpn count af mf (.image backing)

/-! ## Releasing -/

/-- The locked part of the two release functions. -/
def releasePage (s : State) (d : DomainId) (vpn count : Nat) : State :=
  if validateDomainList s d = false then s
  else
    match findExactReleasable s d vpn count with
    | none => s
    | some r =>
      let total := (s.nodes r).totalPageCount
      let s := releaseReservationNode (detachOwnerNode (removeDomainNode s d r) r) r
      s.modDom d fun x => { x with freeCount := (x.freeCount + total) % wordLimit }

/-- `StVmm_ReleaseGlobalPage` -/
def stVmmReleaseGlobalPage (s : State) (d : GlobalDomain) (vpn count : Nat) : State :=
  if count = 0 ∨ (s.doms (.global d)).initialized = false then s
  else releasePage s (.global d) vpn count

/-- `StVmm_ReleaseLocalPage` -/
def stVmmReleaseLocalPage (s : State) (asp vpn count : Nat) : State :=
  let dom := s.doms (.local asp)
  if count = 0 ∨ dom.initialized = false then s
  else
    match makeLimitExclusive vpn count with
    | .error _ => s
    | .ok limit =>
      if vpn < dom.baseVpn ∨ limit - 1 > dom.limitVpn then s
      else releasePage s (.local asp) vpn count

/-! ## Queries and updates of one page -/

/-- `struct StVmm_PageInfo` -/
structure PageInfo where
  owner : Option Nat
  allocFlags : AllocFlags
  mapFlags : MapFlags
  sparse : Bool
  mappingPolicy : MappingPolicy

/-- `fill_page_info_from_node` -/
def fillPageInfoFromNode (n : Node) (vpn : Nat) : PageInfo where
  owner := n.owner
  allocFlags := n.allocFlags
  mapFlags := n.mapFlags
  sparse := hasFlag n.allocFlags afVmmReservationSparse
  mappingPolicy := if vpn < n.usableBaseVpn then .guard else n.mappingPolicy

/-- The node found for a page by the query functions. -/
def findPageNode (s : State) (d : DomainId) (vpn : Nat) : Except StStatus NodeRef :=
  let dom := s.doms d
  if vpn < dom.baseVpn ∨ vpn > dom.limitVpn then .error .invalidValue
  else if validateDomainList s d = false then .error .systemCorrupted
  else
    match findOverlap s d vpn 1 with
    | none => .error .notAllocated
    | some r => .ok r

/-- `StVmm_GetGlobalReservedRange` -/
def stVmmGetGlobalReservedRange (s : State) (d : GlobalDomain) (vpn : Nat) :
    Except StStatus (Nat × Nat) :=
  if (s.doms (.global d)).initialized = false then .error .conflictingState
  else (findPageNode s (.global d) vpn).map fun r => ((s.nodes r).baseVpn, (s.nodes r).limitVpn)

/-- `StVmm_GetLocalReservedRange` -/
def stVmmGetLocalReservedRange (s : State) (asp vpn : Nat) : Except StStatus (Nat × Nat) :=
  if (s.doms (.local asp)).initialized = false then .error .invalidValue
  else (findPageNode s (.local asp) vpn).map fun r => ((s.nodes r).baseVpn, (s.nodes r).limitVpn)

/-- `StVmm_GetGlobalPageInfo` -/
def stVmmGetGlobalPageInfo (s : State) (d : GlobalDomain) (vpn : Nat) : Except StStatus PageInfo :=
  if (s.doms (.global d)).initialized = false then .error .conflictingState
  else (findPageNode s (.global d) vpn).map fun r => fillPageInfoFromNode (s.nodes r) vpn

/-- `StVmm_GetLocalPageInfo` -/
def stVmmGetLocalPageInfo (s : State) (asp vpn : Nat) : Except StStatus PageInfo :=
  if (s.doms (.local asp)).initialized = false then .error .invalidValue
  else (findPageNode s (.local asp) vpn).map fun r => fillPageInfoFromNode (s.nodes r) vpn

/-- The loop of `StVmm_SetLocalPageReservationMapFlags`, one reservation per round;
each round moves the cursor, so `fuel` pages suffice. -/
def setMapFlagsLoop (d : DomainId) (limitVpn : Nat) (mf : MapFlags) :
    Nat → State → Nat → StStatus × State
  | 0, s, _ => (.success, s)
  | fuel + 1, s, cursor =>
    if cursor ≥ limitVpn then (.success, s)
    else
      match findOverlap s d cursor 1 with
      | none => (.notAllocated, s)
      | some r =>
        if cursor < (s.nodes r).usableBaseVpn then (.notPermitted, s)
        else
          let s := s.modNode r fun n => { n with mapFlags := mf }
          let next := (s.nodes r).limitVpn
          setMapFlagsLoop d limitVpn mf fuel s (if next > limitVpn then limitVpn else next)

/-- `StVmm_SetLocalPageReservationMapFlags` -/
def stVmmSetLocalPageReservationMapFlags (s : State) (asp vpn count : Nat) (mf : MapFlags) :
    StStatus × State :=
  let dom := s.doms (.local asp)
  if dom.initialized = false ∨ count = 0 then (.invalidValue, s)
  else if vpn < dom.baseVpn then (.invalidValue, s)
  else if count - 1 > subWord dom.limitVpn vpn then (.invalidValue, s)
  else if hasFlag mf mfGuard then (.invalidValue, s)
  else
    match makeLimitExclusive vpn count with
    | .error e => (e, s)
    | .ok limit =>
      if validateDomainList s (.local asp) = false then (.systemCorrupted, s)
      else setMapFlagsLoop (.local asp) limit mf count s vpn

/-- `StVmm_ResolveLocalPage` -/
def stVmmResolveLocalPage (unmapped : Nat → Bool) (s : State) (asp vpn : Nat) :
    StStatus × State :=
  let d := DomainId.local asp
  let dom := s.doms d
  if dom.initialized = false then (.invalidValue, s)
  else
    match findPageNode s d vpn with
    | .error e => (e, s)
    | .ok r =>
      let n := s.nodes r
      if vpn ≥ n.usableBaseVpn then (.success, s)
      else if n.guardPageCount = 0 ∨ n.usableBaseVpn = 0 ∨ vpn ≠ n.usableBaseVpn - 1 then
        (.notPermitted, s)
      else if !hasFlag n.mapFlags mfGuardGrowDown || decide (n.mappingPolicy ≠ .demandZero) then
        (.notPermitted, s)
      else if n.baseVpn = dom.baseVpn ∨ dom.freeCount = 0 then (.insufficientSpace, s)
      else if (match n.prev with
          | some p => decide ((s.nodes p).limitVpn > n.baseVpn - 1)
          | none => false) then (.insufficientSpace, s)
      else if isRangeUnmapped unmapped (n.baseVpn - 1) 1 = false then (.conflictingState, s)
      else
        let s := s.modNode r fun n => { n with baseVpn := n.baseVpn - 1 }
        (.success, s.modDom d fun x => { x with freeCount := subWord x.freeCount 1 })

end FoliOS.Strata.Vmm
