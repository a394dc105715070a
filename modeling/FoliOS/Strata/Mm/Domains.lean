import FoliOS.Strata.Paging.Preempt
import FoliOS.Strata.Vmm.Runs

/-!
# Strata — the global domains and the page tables (`arch/amd64/pc/init.c`, `plat/memmap.h`)

The VMM hands out ranges of the global domains that are set up at boot; `map_memory`, `remap_memory`
and `unmap_memory` have their own opinion of which ranges are valid. `handed_out_accepted_iff`: they
agree on every range but those that end with the last page of all, which `map_memory` turns away.
`last_page_rejected` is the first top-down reservation in `VMM_DOMAIN_KERNEL_FAST`.
-/

namespace FoliOS.Strata.Mm

open Paging (Call virtPageMax pml4HoleStart pml4HoleEnd endsInHole)
open Vmm

/-! ## Boot -/

/-- `MEMMAP_KERNEL_FAST_VPN_BASE`, where the kernel image lies. -/
def kernelFastVpnBase : Nat := 0xFFFFFFFF80000

/-- The first and the last page of the domains set up in `init.c`; `kernelEnd` is the page behind
the kernel image, `ADDR_TO_PAGE(ALIGN(__end, PAGE_SIZE))`. -/
def bootRange (kernelEnd : Nat) : GlobalDomain → Nat × Nat
  | .kernelFast => (kernelEnd, 0xFFFFFFFFFFFFF)
  | .kernelSlow => (0xFFFFF80000000, 0xFFFFFFFEFFFFF)
  | .io => (0xFFFFF00000000, 0xFFFFF7FFFFFFF)
  | .module => (0xFFFF800080000, 0xFFFFBFFF7FFFF)
  | .krtGlobal => (0xFFFF800000000, 0xFFFF80007FFFF)

/-- The calls of `StVmm_InitGlobalDomain`. -/
def bootDomains (kernelEnd : Nat) (s : Vmm.State) : Vmm.State :=
  [GlobalDomain.kernelFast, .kernelSlow, .io, .module, .krtGlobal].foldl
    (fun s d => (stVmmInitGlobalDomain s d (bootRange kernelEnd d).1 (bootRange kernelEnd d).2).2) s

/-- The domain is the one set up at boot. -/
def AtBoot (kernelEnd : Nat) (s : Vmm.State) (d : GlobalDomain) : Prop :=
  (s.doms (.global d)).initialized = true ∧
    ((s.doms (.global d)).baseVpn, (s.doms (.global d)).limitVpn) = bootRange kernelEnd d

/-- The kernel image ends inside its area. -/
def KernelFits (kernelEnd : Nat) : Prop := kernelFastVpnBase ≤ kernelEnd ∧ kernelEnd ≤ virtPageMax

theorem bootRange_le {kernelEnd : Nat} (h : KernelFits kernelEnd) (d : GlobalDomain) :
    pml4HoleEnd < (bootRange kernelEnd d).1 ∧
    (bootRange kernelEnd d).1 ≤ (bootRange kernelEnd d).2 ∧
      (bootRange kernelEnd d).2 ≤ virtPageMax ∧
      ((bootRange kernelEnd d).2 = virtPageMax ↔ d = .kernelFast) := by
  obtain ⟨h1, h2⟩ := h
  unfold kernelFastVpnBase at h1
  unfold virtPageMax at *
  unfold pml4HoleEnd
  cases d <;> refine ⟨?_, ?_, ?_, ?_⟩ <;> simp only [bootRange, reduceCtorEq, iff_false] <;> omega

theorem bootDomains_atBoot {kernelEnd : Nat} (h : KernelFits kernelEnd) (s : Vmm.State)
    (d : GlobalDomain) :
    AtBoot kernelEnd (bootDomains kernelEnd s) d := by
  have hinit : ∀ (s : Vmm.State) (d : GlobalDomain),
      stVmmInitGlobalDomain s d (bootRange kernelEnd d).1 (bootRange kernelEnd d).2 =
        (.success, s.modDom (.global d) fun _ => ⟨none, (bootRange kernelEnd d).1,
          (bootRange kernelEnd d).2,
          ((bootRange kernelEnd d).2 - (bootRange kernelEnd d).1 + 1) % wordLimit, true,
          none⟩) := by
    intro s d
    unfold stVmmInitGlobalDomain initDomain
    rw [if_neg (Nat.not_lt.mpr (bootRange_le h d).2.1)]
  unfold AtBoot bootDomains
  simp only [List.foldl_cons, List.foldl_nil, hinit, State.modDom]
  cases d <;> simp [Function.update]

/-! ## What is handed out -/

/-- `StVmm_ReserveGlobalPage` or `StVmm_ReserveGlobalPageTo` succeeds with `count` pages from `vpn`
on. -/
def HandsOut (fs : FrameSource) (unmapped : Nat → Bool) (s : Vmm.State) (d : GlobalDomain)
    (vpn count : Nat) : Prop :=
  ∃ owner af mf s',
    stVmmReserveGlobalPage fs unmapped s d count owner af mf = (.success, vpn, s') ∨
      stVmmReserveGlobalPageTo fs unmapped s d vpn count owner af mf = (.success, s')

/-- A range passes the argument checks of the three functions. -/
def Accepted (vpn count : UInt64) : Prop :=
  (∀ pfn mf, ¬ (Call.map pfn vpn count mf).Rejected) ∧
  (∀ mf, ¬ (Call.remap vpn count mf).Rejected) ∧
    ¬ (Call.unmap vpn count).Rejected

variable {s s' : Vmm.State} {L : DomainId → List NodeRef} {fs : FrameSource} {unmapped : Nat → Bool}
  {d : GlobalDomain}

/-- What a reserve operation adds is not empty and lies inside the domain. -/
theorem reserves_inside {vpn count : Nat} {req : Request}
    (h : Reserves unmapped s L (.global d) vpn count req .success s') :
    0 < count ∧ (s.doms (.global d)).baseVpn ≤ vpn ∧
    vpn + count ≤ (s.doms (.global d)).limitVpn + 1 := by
  rcases h with ⟨-, hcount, base, r, l1, l2, hvpn, -, hadd⟩ | hfail
  · have hin := (hadd.ok.lists (.global d)).inside r (by simp)
    have hbase : (s'.nodes r).baseVpn = base := hadd.field Node.baseVpn fun _ => rfl
    have hlimit : (s'.nodes r).limitVpn = vpn + count := hadd.field Node.limitVpn fun _ => rfl
    have hshape := hadd.kept.doms (.global d)
    have hb := congrArg (fun x => x.1) hshape
    have hl := congrArg (fun x => x.2.1) hshape
    simp only [Domain.shape] at hb hl
    omega
  · exact absurd hfail.status (by decide)

theorem handsOut_inside {vpn count : UInt64} (hs : Reachable s)
    (h : HandsOut fs unmapped s d vpn.toNat count.toNat) :
    0 < count.toNat ∧ (s.doms (.global d)).baseVpn ≤ vpn.toNat ∧
      vpn.toNat + count.toNat ≤ (s.doms (.global d)).limitVpn + 1 := by
  obtain ⟨L, hok⟩ := reachable_ok hs
  obtain ⟨owner, af, mf, s', h | h⟩ := h
  · obtain ⟨st, v, s1, heq, hres⟩ :=
      stVmmReserveGlobalPage_ok hok fs unmapped d count.toNat owner af mf
    rw [h] at heq
    cases heq
    exact reserves_inside hres
  · obtain ⟨st, s1, heq, hres⟩ := stVmmReserveGlobalPageTo_ok hok fs unmapped d vpn.toNat_lt
      count.toNat_lt owner af mf
    rw [h] at heq
    cases heq
    exact reserves_inside hres

/-- A range of the upper half passes the checks unless it ends with the last page. -/
theorem accepted_iff {vpn count : UInt64} (hlow : pml4HoleEnd < vpn.toNat)
    (hcount : 0 < count.toNat) (hhigh : vpn.toNat + count.toNat ≤ virtPageMax + 1) :
    Accepted vpn count ↔ vpn.toNat + count.toNat ≠ virtPageMax + 1 := by
  have hmax : virtPageMax + 1 < Paging.wordLimit := by decide
  have hmod : (vpn.toNat + count.toNat) % Paging.wordLimit = vpn.toNat + count.toNat :=
    Nat.mod_eq_of_lt (by omega)
  have hpred : (vpn.toNat + count.toNat + Paging.wordLimit - 1) % Paging.wordLimit =
      vpn.toNat + count.toNat - 1 := by
    rw [show vpn.toNat + count.toNat + Paging.wordLimit - 1 =
      vpn.toNat + count.toNat - 1 + Paging.wordLimit by omega, Nat.add_mod_right]
    exact Nat.mod_eq_of_lt (by omega)
  have hhole : ¬ (pml4HoleStart ≤ vpn.toNat ∧ vpn.toNat ≤ pml4HoleEnd) := by omega
  have hend : ¬ endsInHole vpn.toNat count.toNat := by
    unfold endsInHole
    omega
  have hsingle :
      ¬ (vpn.toNat > virtPageMax ∨ (pml4HoleStart ≤ vpn.toNat ∧ vpn.toNat ≤ pml4HoleEnd) ∨
      endsInHole vpn.toNat count.toNat) := by
    rintro (h | h | h)
    · omega
    · exact hhole h
    · exact hend h
  constructor
  · rintro ⟨hmap, -, -⟩ hlast
    exact hmap 0 0 (.inl (by rw [hmod]; omega))
  · refine fun hne => ⟨fun pfn mf => ?_, fun mf => hsingle, hsingle⟩
    rintro (h | h | h)
    · omega
    · exact hhole h
    · exact hend h

/-- **The VMM and the page tables agree on a range if and only if it does not end with the last page
of `VMM_DOMAIN_KERNEL_FAST`.** -/
theorem handed_out_accepted_iff (kernelEnd : Nat) (hkernel : KernelFits kernelEnd) (s : Vmm.State)
    (hs : Reachable s) (d : GlobalDomain) (hd : AtBoot kernelEnd s d) (vpn count : UInt64)
    (h : HandsOut fs unmapped s d vpn.toNat count.toNat) :
    Accepted vpn count ↔ ¬ (d = .kernelFast ∧ vpn.toNat + count.toNat = virtPageMax + 1) := by
  obtain ⟨hcount, hbase, hlimit⟩ := handsOut_inside hs h
  have hfirst : (s.doms (.global d)).baseVpn = (bootRange kernelEnd d).1 := congrArg Prod.fst hd.2
  have hlast : (s.doms (.global d)).limitVpn = (bootRange kernelEnd d).2 := congrArg Prod.snd hd.2
  obtain ⟨hlow, -, hhigh, hfast⟩ := bootRange_le hkernel d
  rw [accepted_iff (by omega) hcount (by omega), ← hfast, ne_eq, not_iff_not]
  omega

/-- The page behind a kernel image of 2 MiB. -/
def someKernelEnd : Nat := 0xFFFFFFFF80200

theorem someKernelEnd_fits : KernelFits someKernelEnd := by
  unfold KernelFits
  decide

theorem bootDomains_reachable : Reachable (bootDomains someKernelEnd initial) := by
  refine .head (Step.initGlobal initial .kernelFast 0xFFFFFFFF80200 0xFFFFFFFFFFFFF) ?_
  refine .head (Step.initGlobal _ .kernelSlow 0xFFFFF80000000 0xFFFFFFFEFFFFF) ?_
  refine .head (Step.initGlobal _ .io 0xFFFFF00000000 0xFFFFF7FFFFFFF) ?_
  refine .head (Step.initGlobal _ .module 0xFFFF800080000 0xFFFFBFFF7FFFF) ?_
  exact .single (Step.initGlobal _ .krtGlobal 0xFFFF800000000 0xFFFF80007FFFF)

/-- A first reservation in `VMM_DOMAIN_KERNEL_SLOW`. -/
theorem first_slow_page_accepted :
    HandsOut noFrames (fun _ => true) (bootDomains someKernelEnd initial) .kernelSlow
        (0xFFFFF80000000 : UInt64).toNat (1 : UInt64).toNat ∧ Accepted 0xFFFFF80000000 1 := by
  have hout : HandsOut noFrames (fun _ => true) (bootDomains someKernelEnd initial) .kernelSlow
      (0xFFFFF80000000 : UInt64).toNat (1 : UInt64).toNat :=
    ⟨none, 0, 0, _, .inl (Prod.ext (by decide +kernel) (Prod.ext (by decide +kernel) rfl))⟩
  exact ⟨hout,
    (handed_out_accepted_iff someKernelEnd someKernelEnd_fits _ bootDomains_reachable .kernelSlow
    (bootDomains_atBoot someKernelEnd_fits initial _) 0xFFFFF80000000 1 hout).mpr (by decide)⟩

/-- **The first top-down reservation in `VMM_DOMAIN_KERNEL_FAST`** is the last page of all, and
`map_memory` does not take it. -/
theorem last_page_rejected :
    Reachable (bootDomains someKernelEnd initial) ∧
    HandsOut noFrames (fun _ => true) (bootDomains someKernelEnd initial) .kernelFast
        (0xFFFFFFFFFFFFF : UInt64).toNat (1 : UInt64).toNat ∧
      ∀ pfn mf, (Call.map pfn 0xFFFFFFFFFFFFF 1 mf).Rejected := by
  refine ⟨bootDomains_reachable, ⟨none, afVmmAllocTopdown, 0, _,
    .inl (Prod.ext (by decide +kernel) (Prod.ext (by decide +kernel) rfl))⟩, fun pfn mf => .inl ?_⟩
  decide

end FoliOS.Strata.Mm
