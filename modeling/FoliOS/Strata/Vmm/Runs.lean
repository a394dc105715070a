import FoliOS.Strata.Vmm.Steps

/-!
# Strata — runs of the virtual memory manager

A run starts with no domain set up and takes any calls in any order, on any
domain and with any arguments. Frames for node slabs, and which pages happen
to be mapped, are chosen afresh at every call.

* `reachable_ok`       — some assignment of lists satisfies `VmmOk`.
* `reachable_vmmSafe`  — the reservation lists are well formed after every run.
-/

namespace FoliOS.Strata.Vmm

open Lib

/-- One call of the VMM interface. -/
inductive Step : State → State → Prop where
  | initGlobal (s : State) (g : GlobalDomain) (base limit : UInt64) :
      Step s (stVmmInitGlobalDomain s g base.toNat limit.toNat).2
  | initLocal (s : State) (asp : Nat) (base limit : UInt64) (owner : Option Nat) :
      Step s (stVmmInitLocalDomain s asp base.toNat limit.toNat owner).2
  | reserveGlobal (s : State) (fs : FrameSource) (unmapped : Nat → Bool) (g : GlobalDomain)
      (count : UInt64) (owner : Option Nat) (af : AllocFlags) (mf : MapFlags) :
      Step s (stVmmReserveGlobalPage fs unmapped s g count.toNat owner af mf).2.2
  | reserveLocal (s : State) (fs : FrameSource) (unmapped : Nat → Bool) (asp : Nat)
      (count : UInt64) (af : AllocFlags) (mf : MapFlags) :
      Step s (stVmmReserveLocalPage fs unmapped s asp count.toNat af mf).2.2
  | reserveGlobalTo (s : State) (fs : FrameSource) (unmapped : Nat → Bool) (g : GlobalDomain)
      (vpn count : UInt64) (owner : Option Nat) (af : AllocFlags) (mf : MapFlags) :
      Step s (stVmmReserveGlobalPageTo fs unmapped s g vpn.toNat count.toNat owner af mf).2
  | reserveLocalTo (s : State) (fs : FrameSource) (unmapped : Nat → Bool) (asp : Nat)
      (vpn count : UInt64) (af : AllocFlags) (mf : MapFlags) :
      Step s (stVmmReserveLocalPageTo fs unmapped s asp vpn.toNat count.toNat af mf).2
  | reserveLocalImageTo (s : State) (fs : FrameSource) (unmapped : Nat → Bool) (asp : Nat)
      (vpn count : UInt64) (backing : ImageBacking) (af : AllocFlags) (mf : MapFlags) :
      Step s (stVmmReserveLocalImagePageTo fs unmapped s asp vpn.toNat count.toNat backing af mf).2
  | releaseGlobal (s : State) (g : GlobalDomain) (vpn count : UInt64) :
      Step s (stVmmReleaseGlobalPage s g vpn.toNat count.toNat)
  | releaseLocal (s : State) (asp : Nat) (vpn count : UInt64) :
      Step s (stVmmReleaseLocalPage s asp vpn.toNat count.toNat)
  | setMapFlags (s : State) (asp : Nat) (vpn count : UInt64) (mf : MapFlags) :
      Step s (stVmmSetLocalPageReservationMapFlags s asp vpn.toNat count.toNat mf).2
  | resolve (s : State) (unmapped : Nat → Bool) (asp : Nat) (vpn : UInt64) :
      Step s (stVmmResolveLocalPage unmapped s asp vpn.toNat).2
  | closeOwner (s : State) (o : Nat) : Step s (s.modOwner o fun w => { w with closed := true })

/-- The states a run can reach. -/
def Reachable (s : State) : Prop := Relation.ReflTransGen Step initial s

/-- The invariant before any domain is made. -/
theorem initial_ok : VmmOk initial fun _ => [] := by
  refine ⟨⟨by simp [initial], by simp [initial], by simp [initial], by simp [initial], by simp,
    by simp, by simp, by simp⟩, fun d => ?_, fun d => ?_⟩
  · exact ⟨⟨rfl, List.nodup_nil, trivial⟩, ⟨List.Pairwise.nil, by simp⟩, by simp⟩
  · exact ⟨fun _ => rfl, ⟨le_rfl, by simp [initial, wordLimit]⟩, by simp [initial]⟩

variable {s s' : State} {L : DomainId → List NodeRef} {d : DomainId}

/-- A reservation keeps the invariant. -/
theorem Reserves.ok {unmapped : Nat → Bool} {vpn count : Nat} {req : Request} {st : StStatus}
    (h : Reserves unmapped s L d vpn count req st s') : ∃ L', VmmOk s' L' := by
  rcases h with ⟨-, -, base, r, l1, l2, -, -, hadd⟩ | hfail
  · exact ⟨_, hadd.ok⟩
  · exact ⟨L, hfail.ok⟩

/-- A release keeps the invariant. -/
theorem Releases.ok {vpn count : Nat} (h : VmmOk s L) (hr : Releases s L d vpn count s') :
    ∃ L', VmmOk s' L' := by
  rcases hr with rfl | ⟨r, -, -, -, hok, -⟩
  · exact ⟨L, h⟩
  · exact ⟨_, hok⟩

theorem initDomain_snd_ok (h : VmmOk s L) {base limit : Nat} (hlimit : limit < wordLimit)
    (owner : Option Nat) : ∃ L', VmmOk (initDomain s d base limit owner).2 L' := by
  rcases initDomain_ok (d := d) h base hlimit owner with heq | ⟨s', heq, hok⟩
  · exact ⟨L, by rw [heq]; exact h⟩
  · exact ⟨_, by rw [heq]; exact hok⟩

/-- Every call keeps the lists in order. -/
theorem step_ok (hstep : Step s s') (h : ∃ L, VmmOk s L) : ∃ L, VmmOk s' L := by
  obtain ⟨L, h⟩ := h
  cases hstep with
  | initGlobal g base limit => exact initDomain_snd_ok h limit.toNat_lt none
  | initLocal asp base limit owner => exact initDomain_snd_ok h limit.toNat_lt owner
  | reserveGlobal fs unmapped g count owner af mf =>
    obtain ⟨st, vpn, s', heq, hres⟩ :=
      stVmmReserveGlobalPage_ok h fs unmapped g count.toNat owner af mf
    rw [heq]
    exact hres.ok
  | reserveLocal fs unmapped asp count af mf =>
    obtain ⟨st, vpn, s', heq, hres⟩ := stVmmReserveLocalPage_ok h fs unmapped asp count.toNat af mf
    rw [heq]
    exact hres.ok
  | reserveGlobalTo fs unmapped g vpn count owner af mf =>
    obtain ⟨st, s', heq, hres⟩ := stVmmReserveGlobalPageTo_ok h fs unmapped g vpn.toNat_lt
      count.toNat_lt owner af mf
    rw [heq]
    exact hres.ok
  | reserveLocalTo fs unmapped asp vpn count af mf =>
    obtain ⟨st, s', heq, hres⟩ := reserveLocalPageToWithPolicy_ok h fs unmapped asp vpn.toNat_lt
      count.toNat_lt af mf (localPageMappingPolicyFromFlags af mf)
    rw [stVmmReserveLocalPageTo, heq]
    exact hres.ok
  | reserveLocalImageTo fs unmapped asp vpn count backing af mf =>
    obtain ⟨st, s', heq, hres⟩ := stVmmReserveLocalImagePageTo_ok h fs unmapped asp vpn.toNat_lt
      count.toNat_lt backing af mf
    rw [heq]
    exact hres.ok
  | releaseGlobal g vpn count => exact (stVmmReleaseGlobalPage_ok h g _ _).ok h
  | releaseLocal asp vpn count => exact (stVmmReleaseLocalPage_ok h asp _ _).ok h
  | setMapFlags asp vpn count mf =>
    exact ⟨L, h.sameLists (stVmmSetLocalPageReservationMapFlags_same s asp _ _ mf).unflagged_core⟩
  | resolve unmapped asp vpn =>
    obtain ⟨st, s', heq, hres⟩ := stVmmResolveLocalPage_ok h unmapped asp vpn.toNat
    rw [heq]
    rcases hres with rfl | ⟨-, r, hgrown⟩
    · exact ⟨L, h⟩
    · exact ⟨L, hgrown.ok⟩
  | closeOwner o => exact ⟨L, h.sameLists ((SameUpTo.refl s).modOwner o _)⟩

/-- **The invariant holds in every run.** -/
theorem reachable_ok (hs : Reachable s) : ∃ L, VmmOk s L := by
  induction hs with
  | refl => exact ⟨_, initial_ok⟩
  | tail _ hstep ih => exact step_ok hstep ih

/-! ## The reservation lists after any run -/

/-- The reservation list of a domain is well formed, and the free count is exact. -/
structure DomainSafe (s : State) (d : DomainId) : Prop where
  linked    : IsDList s.nx s.pv (s.doms d).head (s.listOf d)
  ascending : (s.listOf d).Pairwise fun a b => (s.nodes a).baseVpn < (s.nodes b).baseVpn
  disjoint  : (s.listOf d).Pairwise fun a b => (s.nodes a).limitVpn ≤ (s.nodes b).baseVpn
  nonempty  : ∀ r ∈ s.listOf d, (s.nodes r).baseVpn < (s.nodes r).limitVpn
  inside    : ∀ r ∈ s.listOf d, (s.doms d).baseVpn ≤ (s.nodes r).baseVpn ∧
                (s.nodes r).limitVpn ≤ (s.doms d).limitVpn + 1
  count     : (s.doms d).initialized = true →
                s.reserved (s.listOf d) ≤
                  ((s.doms d).limitVpn - (s.doms d).baseVpn + 1) % wordLimit ∧
                (s.doms d).freeCount =
                  ((s.doms d).limitVpn - (s.doms d).baseVpn + 1) % wordLimit -
                    s.reserved (s.listOf d)

structure VmmSafe (s : State) : Prop where
  domain  : ∀ d, DomainSafe s d
  once    : ∀ d d' r, r ∈ s.listOf d → r ∈ s.listOf d' → d = d'
  unused  : ∀ fs r, (createReservationNode fs s).1 = .ok r → ∀ d, r ∉ s.listOf d

/-- What the invariant says of one domain. -/
theorem VmmOk.domainSafe (h : VmmOk s L) (d : DomainId) : DomainSafe s d := by
  have hlist := h.listOf_eq d
  obtain ⟨hdl, ⟨hasc, hne⟩, hinside⟩ := h.lists d
  have hne' : ∀ r ∈ L d, (s.nodes r).baseVpn < (s.nodes r).limitVpn := fun r hr =>
    hne (s.span r) (List.mem_map_of_mem hr)
  have hdisj : (L d).Pairwise fun a b => (s.nodes a).limitVpn ≤ (s.nodes b).baseVpn :=
    List.pairwise_map.mp hasc
  rw [← hlist] at hdl hinside hne' hdisj
  refine ⟨hdl, ?_, hdisj, hne', hinside, fun hi => ?_⟩
  · exact hdisj.imp_of_mem fun ha _ hab => lt_of_lt_of_le (hne' _ ha) hab
  · have hcount := (h.counts d).count hi
    rw [← hlist] at hcount
    omega

/-- **Reservation lists.** After any run, every domain's list is doubly linked,
ascending and made of disjoint non-empty ranges of the domain, no node is linked
twice or handed out while linked, and the free count is what the ranges leave. -/
theorem reachable_vmmSafe (s : State) (hs : Reachable s) : VmmSafe s := by
  obtain ⟨L, h⟩ := reachable_ok hs
  refine ⟨h.domainSafe, fun d d' r hr hr' => ?_, fun fs r hcreate d hr => ?_⟩
  · rw [h.listOf_eq] at hr hr'
    exact h.nodes.apart d d' r hr hr'
  · rw [h.listOf_eq] at hr
    have hcreated := createReservationNode_ok h fs
    generalize createReservationNode fs s = res at hcreated hcreate
    obtain ⟨out, s'⟩ := res
    subst hcreate
    exact hcreated.2.2.unlinked d hr

/-- No frames for slabs. -/
def noFrames : FrameSource where
  allocate _ _ := .error .insufficientMemory
  fresh _ _ _ h := by simp at h
  failure _ _ e h := by
    cases h
    rfl

/-- A guarded grow-down stack, a second reservation that is released again, and one
fault on the guard page. -/
def stackRun : State :=
  let s := (stVmmInitLocalDomain initial 0 (16 : UInt64).toNat (99 : UInt64).toNat none).2
  let s := (stVmmReserveLocalPageTo noFrames (fun _ => true) s 0 (40 : UInt64).toNat
    (2 : UInt64).toNat afVmmReservationOnDemand (mfGuard ||| mfGuardGrowDown)).2
  let s := (stVmmReserveLocalPage noFrames (fun _ => true) s 0 (3 : UInt64).toNat 0 0).2.2
  let s := stVmmReleaseLocalPage s 0 (16 : UInt64).toNat (3 : UInt64).toNat
  (stVmmResolveLocalPage (fun _ => true) s 0 (39 : UInt64).toNat).2

theorem stackRun_reachable : Reachable stackRun := by
  refine .head (Step.initLocal initial 0 16 99 none) ?_
  refine .head (Step.reserveLocalTo _ noFrames (fun _ => true) 0 40 2 afVmmReservationOnDemand
    (mfGuard ||| mfGuardGrowDown)) ?_
  refine .head (Step.reserveLocal _ noFrames (fun _ => true) 0 3 0 0) ?_
  refine .head (Step.releaseLocal _ 0 16 3) ?_
  exact .single (Step.resolve _ (fun _ => true) 0 39)

theorem reachable_vmmSafe_stack : VmmSafe stackRun ∧
    (stackRun.listOf (.local 0)).map stackRun.span = [(38, 42)] ∧
    (stackRun.doms (.local 0)).freeCount = 80 :=
  ⟨reachable_vmmSafe stackRun stackRun_reachable, by decide +kernel, by decide +kernel⟩

end FoliOS.Strata.Vmm
