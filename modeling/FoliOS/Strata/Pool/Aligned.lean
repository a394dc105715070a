import FoliOS.Strata.Mm.Atomic
import FoliOS.Strata.Mm.Domains
import FoliOS.Strata.Pool.Runs
import FoliOS.Strata.Vmm.Fit

/-!
# Strata — alignment of pool blocks (`mm/pool.c` over `mm/mm.c` and `mm/vmm.c`)

Up to a page the pool aligns blocks itself, by the layout of its subpools
(`allocateInternal_aligned`). Above a page `allocate_large` asks `StMm_AllocateGlobalSparse` for the
alignment, with `AF_ALIGN`. The frame batches mask the flag out and the VMM does not read it: pages
come from the lowest free run (`stMmAllocateGlobalSparse_lowest`). So a block is aligned if that run
happens to be (`poolAllocation_aligned_iff`); the second block of one page is not
(`second_page_misaligned`).
-/

namespace FoliOS.Strata.Mm.Sparse

open Vmm hiding State

/-! ## Pages of a sparse allocation -/

section Pages

variable {plat : Platform} {j : Job} {s s' : State}

/-- Over absent pages the loop ends with all of them or with an error. -/
theorem fill_error : ∀ {fuel n pfn : Nat} {s : State} {p : Progress},
    (∀ q, j.vpn + n ≤ q → q < j.vpn + j.count → s.pages (tablesOf j.domain) q = none) →
    j.fill plat fuel s n pfn = some p → ∀ e, p.error = some e → checkSuccess e = false := by
  intro fuel
  induction fuel with
  | zero =>
    intro n pfn s p _ h e he
    cases h
    cases he
  | succ fuel ih =>
    intro n pfn s p habsent h e he
    rcases fill_cases plat j s n fuel pfn with ⟨-, hend⟩ | ⟨e', hend, he'⟩ | ⟨written, order, hr⟩
    · rw [hend] at h
      cases h
      cases he
    · rw [hend] at h
      cases h
      cases he
      refine he'.resolve_right ?_
      rintro ⟨-, q, hq, hlt, hpage⟩
      exact hpage (habsent q hq hlt)
    · rw [hr.fill_succ] at h
      split at h
      · have hpos := Nat.two_pow_pos order
        refine ih (fun q hq hlt => ?_) h e he
        rw [mapped_page, if_neg (by omega)]
        exact habsent q (by omega) hlt
      next hst =>
        obtain ⟨t, -, rfl⟩ := Option.map_eq_some_iff.mp h
        cases he
        exact Bool.eq_false_iff.mpr hst

/-- A sparse allocation that succeeds returns the page it reserved. -/
theorem Job.allocate_page {st : StStatus} {v : Nat}
    (habsent : ∀ q, j.vpn ≤ q → q < j.vpn + j.count → s.pages (tablesOf j.domain) q = none)
    (h : j.allocate plat s = some (st, v, s')) (hst : checkSuccess st = true) : v = j.vpn := by
  obtain ⟨p, hfill, hp⟩ := Option.bind_eq_some_iff.mp h
  cases herr : p.error with
  | none =>
    rw [herr] at hp
    exact (Prod.mk.inj (Prod.mk.inj (Option.some.inj hp)).2).1.symm
  | some e =>
    rw [herr] at hp
    obtain ⟨t, -, ht⟩ := Option.map_eq_some_iff.mp hp
    rw [← (Prod.mk.inj ht).1, fill_error habsent hfill e herr] at hst
    cases hst

/-- `StMm_AllocateGlobalSparse` without guard and from the bottom: the lowest room, whatever the
other flags. -/
theorem stMmAllocateGlobalSparse_lowest {g : GlobalDomain} {count v : Nat} {owner : Option Nat}
    {af : AllocFlags} {mf : MapFlags} {st : StStatus} (hs : Vmm.Reachable s.vmm)
    (hguard : guardPageCountFromMapFlags mf = 0) (hup : hasFlag af afVmmAllocTopdown = false)
    (h : stMmAllocateGlobalSparse plat s g count owner af mf = some (st, v, s'))
    (hst : checkSuccess st = true) :
    LowestRoom (s.unmapped (.global g)) s.vmm (.global g) count v := by
  obtain ⟨L, hok⟩ := reachable_ok hs
  obtain ⟨st', vpn, vmm, heq, hres⟩ := stVmmReserveGlobalPage_ok hok plat.nodes
    (s.unmapped (.global g)) g count owner af mf
  unfold stMmAllocateGlobalSparse at h
  rw [heq] at h
  rcases hres with ⟨rfl, -, base, r, l1, l2, hvpn, hfree, -⟩ | hfail
  · obtain ⟨c, hroom, hc⟩ := stVmmReserveGlobalPage_lowest hok hup heq
    rw [hguard, Nat.add_zero] at hroom hc
    subst hc
    have habsent : ∀ q, vpn ≤ q → q < vpn + count → s.pages none q = none := by
      intro q hq hlt
      have hun := List.all_eq_true.mp hroom.1.2 (q - vpn) (List.mem_range.mpr (by omega))
      rw [Nat.add_sub_cancel' hq] at hun
      exact (unmapped_iff.mp hun).2.2
    rw [Job.allocate_page habsent h hst]
    exact hroom
  · have hfalse := hfail.status
    have : some (st', 0, ({ s with vmm } : State)) = some (st, v, s') := by
      rw [← h]
      cases st' <;> first | rfl | cases hfalse
    rw [← (Prod.mk.inj (Option.some.inj this)).1, hfalse] at hst
    cases hst

end Pages

end FoliOS.Strata.Mm.Sparse

namespace FoliOS.Strata.Pool

open Lib
open Vmm (LowestRoom)
open Mm (Sparse.stMmAllocateGlobalSparse)

/-! ## Alignment within a page -/

section Within

variable {s : State} {subs frees : Nat → List Nat} {t h n al : Nat}

theorem allocateFromSubpool_aligned (hI : PoolInv s subs frees) (hh : h ∈ subs t)
    (hcls : s.cls t = (n, al)) : 2 ^ al ∣ (allocateFromSubpool s t h n).2.1 := by
  obtain ⟨hok, heq⟩ := hI.shapes.header hh
  rw [hcls, Prod.mk.injEq] at heq
  obtain ⟨rfl, rfl⟩ := heq
  unfold allocateFromSubpool
  split
  · exact dvd_zero _
  next i b hfind =>
    have hpage : 2 ^ (s.headers h).alignmentBits ∣ pageSize := by
      exact Nat.pow_dvd_pow 2 hok.cls.align_le
    have hsize := Nat.dvd_of_mod_eq_zero hok.cls.dvd
    have hheader := Nat.dvd_of_mod_eq_zero hok.layout.header_al
    exact Nat.dvd_add (Nat.dvd_add (hpage.mul_left h) hheader) (hsize.mul_left _)

/-- The subpool path, from the class slot on. -/
theorem allocateSmall_aligned (mm : PageSource) (hI : PoolInv s subs frees) (hc : SizeClass n al)
    (hcls : s.cls t = (n, al)) :
    2 ^ al ∣ (match (s.table t).nextFree with
      | some h => allocateFromSubpool s t h n
      | none =>
        match allocateSubpool mm s n al with
        | (.error e, s) => (e, 0, s)
        | (.ok h, s) => allocateFromSubpool s t h n).2.1 := by
  cases hnf : (s.table t).nextFree with
  | some h =>
    have hh : h ∈ frees t := List.mem_of_head? ((hI.rings.free t).head_eq ▸ hnf)
    exact allocateFromSubpool_aligned hI (hI.rings.sub t hh) hcls
  | none =>
    rcases allocateSubpool_eq mm hI.shapes hc hcls with ⟨e, heq, -⟩ | ⟨v, oc, hs, hmm, hlay, heq⟩
    · rw [heq]
      exact dvd_zero _
    · rw [heq]
      obtain ⟨-, hv, hlim, hfresh⟩ := mm.fresh _ _ _ _ hmm
      obtain ⟨⟨subs', frees', hinv, hmem⟩, -, hcls', -⟩ :=
        withSubpool_inv hI hc hcls hlay hv hlim hfresh
      exact allocateFromSubpool_aligned hinv (hinv.rings.sub t hmem) (by rw [hcls', hcls])

theorem allocateLarge_aligned (mm : PageSource) (s : State) (size al : Nat) {a : Nat}
    (ha : a ≤ pageSizeAlignmentBits) : 2 ^ a ∣ (allocateLarge mm s size al).2.1 := by
  unfold allocateLarge
  dsimp only
  split
  · exact dvd_zero _
  next v hv =>
    exact (Nat.pow_dvd_pow 2 ha).mul_left v

theorem le_normalizeAlignmentBits {a : Nat} (ha : a < 64) : a ≤ normalizeAlignmentBits a := by
  unfold normalizeAlignmentBits minAlignBits
  split <;> omega

/-- Up to a page every block is aligned as asked. -/
theorem allocateInternal_aligned (mm : PageSource) (hI : PoolInv s subs frees) (size : Nat)
    {a : Nat} (ha : a ≤ pageSizeAlignmentBits) : 2 ^ a ∣ (allocateInternal mm s size a).2.1 := by
  have hpos : 0 < (if size = 0 then 1 else size) := by split <;> omega
  unfold allocateInternal
  generalize (if size = 0 then 1 else size) = m at hpos ⊢
  unfold pageSizeAlignmentBits at ha
  rw [if_neg (by omega)]
  have hge := normalizeAlignmentBits_ge (a := a) (by omega)
  have hup := le_normalizeAlignmentBits (a := a) (by omega)
  by_cases hbig : m > pageSize ∨ normalizeAlignmentBits a > pageSizeAlignmentBits
  · rw [if_pos hbig]
    exact allocateLarge_aligned mm s m _ ha
  rw [if_neg hbig]
  have hm : m ≤ pageSize := by omega
  rw [show m % 65536 = m from Nat.mod_eq_of_lt (by simp only [pageSize] at hm; omega)]
  by_cases hnorm : normalizeObjectSize m (normalizeAlignmentBits a) > pageSize
  · rw [if_pos hnorm]
    exact allocateLarge_aligned mm s m _ ha
  rw [if_neg hnorm]
  obtain ⟨hhold, hdvd⟩ := normalizeObjectSize_spec hpos hm hge (by omega)
  have hc :
      SizeClass (normalizeObjectSize m (normalizeAlignmentBits a)) (normalizeAlignmentBits a) :=
    ⟨hge, by omega, by omega, by omega, hdvd⟩
  rcases getObjectEntry_spec hI hc with hnone | ⟨t, s', hsome, hI', hcls, -, -⟩
  · rw [hnone]
    exact dvd_zero _
  · rw [hsome]
    exact (Nat.pow_dvd_pow 2 hup).trans (allocateSmall_aligned mm hI' hc hcls)

end Within

/-! ## Alignment above a page -/

/-- The mapping flags of the pool's two calls. -/
def mapFlagsFor : RangeKind → MapFlags
  | .subpool => mfWritable ||| mfZeroFill ||| mfPoolSubpool
  | .largeAlloc => mfWritable ||| mfZeroFill ||| mfPoolLargeAlloc

/-- The pages the pool gets are those of `StMm_AllocateGlobalSparse` in memory state `m`. -/
def ServedBy (mm : PageSource) (s : State) (m : Mm.Sparse.State) : Prop :=
  ∀ count flags v, mm.allocate s.ranges count flags = .ok v → ∃ plat kind st m',
    Sparse.stMmAllocateGlobalSparse plat m .kernelSlow count none (BitVec.ofNat 32 flags)
      (mapFlagsFor kind) = some (st, v, m') ∧ checkSuccess st = true

/-- Pages for a block of its own. -/
def largePageCount (size : Nat) : Nat := alignDiv 64 (if size = 0 then 1 else size) pageSize

/-- The lowest room for `count` pages in `VMM_DOMAIN_KERNEL_SLOW` starts at a multiple of `2 ^ bits`
pages. -/
def RoomAligned (m : Mm.Sparse.State) (count bits : Nat) : Prop :=
  ∃ v, LowestRoom (m.unmapped (.global .kernelSlow)) m.vmm (.global .kernelSlow) count v ∧
  2 ^ bits ∣ v

section Above

variable {mm : PageSource} {s s' : State} {m : Mm.Sparse.State} {size a ptr : Nat} {st : StStatus}

/-- `AF_ALIGN` does not reach into the other flags. -/
theorem afAlign_up (ha : a < 64) :
    hasFlag (BitVec.ofNat 32 (afAlign a)) afVmmAllocTopdown = false := by
  revert a
  decide

theorem stPoolAllocateClearAligned_eq (mm : PageSource) (s : State) (size : Nat) (alignment : Int) :
    (stPoolAllocateClearAligned mm s size alignment).2 =
      (stPoolAllocateAligned mm s size alignment).2 ∧
      checkSuccess (stPoolAllocateClearAligned mm s size alignment).1 =
        checkSuccess (stPoolAllocateAligned mm s size alignment).1 := by
  unfold stPoolAllocateClearAligned
  dsimp only
  split
  next h => exact ⟨rfl, h.symm⟩
  next => exact ⟨rfl, rfl⟩

/-- Above a page the block starts with the lowest room. -/
theorem allocateInternal_large (hm : Vmm.Reachable m.vmm) (hmm : ServedBy mm s m)
    (ha : pageSizeAlignmentBits < a) (h : checkSuccess (allocateInternal mm s size a).1 = true) :
    ∃ v, LowestRoom (m.unmapped (.global .kernelSlow)) m.vmm (.global .kernelSlow)
      (largePageCount size) v ∧ (allocateInternal mm s size a).2.1 = v * pageSize := by
  unfold pageSizeAlignmentBits at ha
  unfold allocateInternal at h ⊢
  by_cases hbad : (a : Int) < 0 ∨ (a : Int) ≥ 64
  · rw [if_pos hbad] at h
    cases h
  have hnorm : normalizeAlignmentBits a = a := by
    unfold normalizeAlignmentBits minAlignBits
    split <;> omega
  have hlarge : a > pageSizeAlignmentBits := ha
  rw [if_neg hbad, hnorm, if_pos (.inr hlarge)] at h ⊢
  unfold allocateLarge at h ⊢
  dsimp only at h ⊢
  rw [if_pos hlarge] at h ⊢
  split at h
  next e he =>
    rw [mm.failure _ _ _ _ he] at h
    cases h
  next v hv =>
    obtain ⟨plat, kind, st, m', hcall, hst⟩ := hmm _ _ v hv
    refine ⟨v, Mm.Sparse.stMmAllocateGlobalSparse_lowest hm ?_ (afAlign_up (by omega)) hcall hst,
      ?_⟩
    · cases kind <;> decide
    · rfl

/-- **Blocks of the pool**: those aligned to at most a page are, the others only where the lowest
room of the virtual memory is. -/
theorem poolAllocation_aligned_iff (c : Config) (hc : Reachable c) (m : Mm.Sparse.State)
    (hm : Vmm.Reachable m.vmm) (mm : PageSource) (hmm : ServedBy mm c.state m) (size : UInt64)
    (a : Nat) (st : StStatus) (ptr : Nat) (s' : State)
    (hcall : stPoolAllocateAligned mm c.state size.toNat a = (st, ptr, s') ∨
      stPoolAllocateClearAligned mm c.state size.toNat a = (st, ptr, s'))
    (hst : checkSuccess st = true) :
    2 ^ a ∣ ptr ↔ a ≤ 12 ∨ RoomAligned m (largePageCount size.toNat) (a - 12) := by
  obtain ⟨hptr, hsucc⟩ : (allocateInternal mm c.state size.toNat a).2.1 = ptr ∧
      checkSuccess (allocateInternal mm c.state size.toNat a).1 = true := by
    rcases hcall with hcall | hcall
    · exact ⟨congrArg (·.2.1) hcall, (congrArg (checkSuccess ·.1) hcall).trans hst⟩
    · obtain ⟨h1, h2⟩ := stPoolAllocateClearAligned_eq mm c.state size.toNat a
      rw [hcall] at h1 h2
      exact ⟨(congrArg Prod.fst h1).symm, h2.symm.trans hst⟩
  rw [← hptr]
  by_cases ha : a ≤ 12
  · obtain ⟨subs, frees, hI⟩ := (reachable_ok hc).inv
    exact iff_of_true (allocateInternal_aligned mm hI size.toNat ha) (.inl ha)
  · obtain ⟨v, hroom, hv⟩ := allocateInternal_large hm hmm (not_le.mp ha) hsucc
    have hpow : 2 ^ a = 2 ^ (a - 12) * pageSize := by
      rw [show pageSize = 2 ^ 12 from rfl, ← pow_add, Nat.sub_add_cancel (by omega)]
    rw [hv, hpow, Nat.mul_dvd_mul_iff_right (by decide)]
    constructor
    · intro hdvd
      exact .inr ⟨v, hroom, hdvd⟩
    · rintro (hle | ⟨w, hw, hdvd⟩)
      · exact absurd hle ha
      · rwa [hroom.unique hw]

end Above

/-! ## Two blocks of 8 KiB alignment -/

/-- No run in use reaches into frame `f`. -/
def frameFree (live : Nat → Option Nat) (f : Nat) : Bool :=
  (List.range (f + 1)).all fun base =>
    match live base with
    | none => true
    | some order => decide (base + 2 ^ order ≤ f)

/-- Sixteen frames, handed out one by one. -/
def singleFrames : Mm.Sparse.FrameSupply where
  allocate live order _ _ :=
    match (if order = 0 then (List.range 16).find? (frameFree live) else none) with
    | some f => .ok (some f)
    | none => .error .insufficientMemory
  fresh live order owner af pfn h := by
    split at h
    next f hf =>
      obtain rfl := Option.some.inj (Except.ok.inj h)
      split_ifs at hf with horder
      subst horder
      have hmem := List.mem_range.mp (List.mem_of_find?_eq_some hf)
      have hfree := List.find?_some hf
      refine ⟨by unfold Pmm.frameLimit; omega, fun base o hlive => ?_⟩
      by_cases hbase : base < f + 1
      · have := List.all_eq_true.mp hfree base (List.mem_range.mpr hbase)
        rw [hlive] at this
        exact .inl (of_decide_eq_true this)
      · exact .inr (by omega)
    next => cases h
  small live order owner af h := by
    split at h
    · cases Except.ok.inj h
    · cases h
  failure live order owner af e h := by
    split at h
    · cases h
    · exact Except.error.inj h ▸ rfl

def singlePlatform : Mm.Sparse.Platform :=
  { Mm.Sparse.pairPlatform true with frames := singleFrames }

/-- Memory after boot. -/
def bootMemory : Mm.Sparse.State where
  vmm := Mm.bootDomains Mm.someKernelEnd Vmm.initial
  pages _ _ := none
  live _ := none
  charge _ := none
  usage _ := 0

/-- `allocate_large` for one page aligned to two. -/
def largePage (m : Mm.Sparse.State) : Option (StStatus × Nat × Mm.Sparse.State) :=
  Sparse.stMmAllocateGlobalSparse singlePlatform m .kernelSlow 1 none (BitVec.ofNat 32 (afAlign 13))
    (mapFlagsFor .largeAlloc)

/-- Memory after the first such page. -/
def firstMemory : Mm.Sparse.State := ((largePage bootMemory).map (·.2.2)).getD bootMemory

theorem firstMemory_reachable : Vmm.Reachable firstMemory.vmm := by
  refine Mm.bootDomains_reachable.tail ?_
  exact Vmm.Step.reserveGlobal _ Vmm.noFrames (bootMemory.unmapped (.global .kernelSlow))
    .kernelSlow 1 none (BitVec.ofNat 32 (afAlign 13)) (mapFlagsFor .largeAlloc)

/-- `MEMMAP_KERNEL_SLOW_VPN_BASE` -/
def slowBase : Nat := 0xFFFFF80000000

/-- What the pool is told of these pages. -/
def pageByPage : PageSource where
  allocate rs count flags :=
    if count = 1 ∧ flags = afAlign 13 ∧ rs = [] then .ok slowBase
    else if count = 1 ∧ flags = afAlign 13 ∧
      rs = [⟨slowBase, 1, .largeAlloc⟩] then .ok (slowBase + 1)
    else .error .insufficientMemory
  fresh rs count flags v h := by
    split at h
    next hc =>
      obtain ⟨rfl, -, rfl⟩ := hc
      cases h
      exact ⟨by decide, by decide, by decide, fun r hr => nomatch hr⟩
    next =>
      split at h
      next hc =>
        obtain ⟨rfl, -, rfl⟩ := hc
        cases h
        exact ⟨by decide, by decide, by decide, by decide⟩
      next => cases h
  failure rs count flags e h := by
    split_ifs at h
    exact Except.error.inj h ▸ rfl

/-- The pool after the first block. -/
def firstPool : Config :=
  Config.allocated ⟨initial, []⟩ 1 (stPoolAllocateAligned pageByPage initial 1 13)

theorem firstPool_reachable : Reachable firstPool := .single (.allocateAligned _ pageByPage 1 13)

theorem servedBy_of_largePage (rs : List PoolRange) {m : Mm.Sparse.State} {v : Nat} {s : State}
    (hrs : s.ranges = rs)
    (hmm : ∀ count flags w, pageByPage.allocate rs count flags = .ok w → count = 1 ∧
      flags = afAlign 13 ∧ w = v)
    (h : (largePage m).map (fun r => (r.1, r.2.1)) = some (.success, v)) :
      ServedBy pageByPage s m := by
  intro count flags w hw
  rw [hrs] at hw
  obtain ⟨rfl, rfl, rfl⟩ := hmm count flags w hw
  obtain ⟨⟨st, v, m'⟩, hr, heq⟩ := Option.map_eq_some_iff.mp h
  cases heq
  exact ⟨singlePlatform, .largeAlloc, _, m', hr, rfl⟩

theorem initial_servedBy : ServedBy pageByPage initial bootMemory := by
  refine servedBy_of_largePage [] rfl (v := slowBase) (fun count flags w hw => ?_)
    (by decide +kernel)
  unfold pageByPage at hw
  dsimp only at hw
  split at hw
  next hc => exact ⟨hc.1, hc.2.1, (Except.ok.inj hw).symm⟩
  next =>
    split at hw
    next hc => cases hc.2.2
    next => cases hw

theorem firstPool_servedBy : ServedBy pageByPage firstPool.state firstMemory := by
  refine servedBy_of_largePage [⟨slowBase, 1, .largeAlloc⟩] rfl (v := slowBase + 1)
    (fun count flags w hw => ?_) (by decide +kernel)
  unfold pageByPage at hw
  dsimp only at hw
  split at hw
  next hc => cases hc.2.2
  next =>
    split at hw
    next hc => exact ⟨hc.1, hc.2.1, (Except.ok.inj hw).symm⟩
    next => cases hw

/-- The first block is aligned, since the domain is. -/
theorem first_page_aligned :
    (stPoolAllocateAligned pageByPage initial 1 13).1 = .success ∧
      2 ^ 13 ∣ (stPoolAllocateAligned pageByPage initial 1 13).2.1 := by
  refine ⟨by decide,
    (poolAllocation_aligned_iff ⟨initial, []⟩ .refl bootMemory Mm.bootDomains_reachable pageByPage
    initial_servedBy 1 13 _ _ _ (.inl rfl) (by decide)).mpr (.inr ⟨slowBase, ?_, by decide⟩)⟩
  exact ⟨⟨⟨by decide +kernel, by decide +kernel, by decide +kernel⟩, by decide +kernel⟩,
    fun w hw => hw.1.1⟩

/-- **The second block of a page is not aligned to 8 KiB**, though asked to be. -/
theorem second_page_misaligned : Reachable firstPool ∧ Vmm.Reachable firstMemory.vmm ∧
    ServedBy pageByPage firstPool.state firstMemory ∧
    (stPoolAllocateAligned pageByPage firstPool.state 1 13).1 = .success ∧
      ¬ 2 ^ 13 ∣ (stPoolAllocateAligned pageByPage firstPool.state 1 13).2.1 :=
  ⟨firstPool_reachable, firstMemory_reachable, firstPool_servedBy, by decide +kernel,
    by decide +kernel⟩

end FoliOS.Strata.Pool
