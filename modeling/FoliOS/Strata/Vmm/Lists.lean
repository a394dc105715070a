import FoliOS.Lib.DList
import FoliOS.Strata.Vmm.Search

/-!
# Strata — the reservation lists of the VMM

`VmmOk s L` says that the nodes in memory thread exactly the lists `L d`, one
per domain, that these are disjoint ascending ranges inside their domain, that
`freeCount` is what the ranges leave free, and that no linked node is free for
reuse. This file shows what the list operations of `vmm.c` write, and that the
walks they make see the whole list.
-/

namespace FoliOS.Strata.Vmm

open Function Lib

variable {f : Node → Node} {r : NodeRef} {s : State} {d : DomainId}

def State.nx (s : State) (r : NodeRef) : Option NodeRef := (s.nodes r).next
def State.pv (s : State) (r : NodeRef) : Option NodeRef := (s.nodes r).prev

/-- The page range of a node. -/
def State.span (s : State) (r : NodeRef) : Nat × Nat :=
  ((s.nodes r).baseVpn, (s.nodes r).limitVpn)

/-- The nodes `create_reservation_node` can ever have returned. -/
def InPool (s : State) : NodeRef → Prop
  | .early i => i < s.earlyUsed
  | .slab pfn i => pfn ∈ s.slabs ∧ i < nodesPerSlab

/-- The number of pages held by the nodes of a list. -/
def State.reserved (s : State) (l : List NodeRef) : Nat :=
  (l.map fun r => (s.nodes r).totalPageCount).sum

/-- The nodes of `l` are the list of domain `d`, in ascending disjoint ranges. -/
structure ListOk (s : State) (d : DomainId) (l : List NodeRef) : Prop where
  list   : IsDList s.nx s.pv (s.doms d).head l
  asc    : Ascending (l.map s.span)
  inside : ∀ r ∈ l, (s.doms d).baseVpn ≤ (s.nodes r).baseVpn ∧
             (s.nodes r).limitVpn ≤ (s.doms d).limitVpn + 1

/-- `freeCount` is what the list leaves free of the domain. -/
structure CountOk (s : State) (d : DomainId) (l : List NodeRef) : Prop where
  uninit : (s.doms d).initialized = false → l = []
  range  : (s.doms d).baseVpn ≤ (s.doms d).limitVpn ∧ (s.doms d).limitVpn < wordLimit
  count  : (s.doms d).initialized = true →
             (s.doms d).freeCount + s.reserved l =
               ((s.doms d).limitVpn - (s.doms d).baseVpn + 1) % wordLimit

/-- Linked nodes are pool nodes in use, and none is linked twice. -/
structure NodesOk (s : State) (L : DomainId → List NodeRef) : Prop where
  early  : s.earlyUsed ≤ earlyReservationNodePoolCount
  slabs  : s.slabs.Nodup
  free   : s.freelist.Nodup
  slab   : ∀ r ∈ s.freelist, isNodeInDynamicPool s r = true
  pool   : ∀ d, ∀ r ∈ L d, InPool s r
  live   : ∀ d, ∀ r ∈ L d, (s.nodes r).isLive = true
  busy   : ∀ d, ∀ r ∈ L d, r ∉ s.freelist
  apart  : ∀ d d' r, r ∈ L d → r ∈ L d' → d = d'

structure VmmOk (s : State) (L : DomainId → List NodeRef) : Prop where
  nodes  : NodesOk s L
  lists  : ∀ d, ListOk s d (L d)
  counts : ∀ d, CountOk s d (L d)

/-- The fields of a domain fixed at initialisation. -/
def Domain.shape (x : Domain) : Nat × Nat × Bool × Option Nat :=
  (x.baseVpn, x.limitVpn, x.initialized, x.owner)

/-! ## Field updates -/

theorem modNode_eq (s : State) (r : NodeRef) (f : Node → Node) :
    s.modNode r f = { s with nodes := fun a => if a = r then f (s.nodes a) else s.nodes a } := by
  unfold State.modNode
  congr
  funext a
  by_cases ha : a = r
  · subst ha; simp
  · simp [ha]

theorem modNode?_eq (s : State) (p : Option NodeRef) (f : Node → Node) :
    s.modNode? p f =
      { s with nodes := fun a => if p = some a then f (s.nodes a) else s.nodes a } := by
  cases p with
  | none => simp [State.modNode?]
  | some r => simp [State.modNode?, modNode_eq, eq_comm]

theorem modDom_eq (s : State) (d : DomainId) (f : Domain → Domain) :
    s.modDom d f = { s with doms := fun e => if e = d then f (s.doms e) else s.doms e } := by
  unfold State.modDom
  congr
  funext e
  by_cases he : e = d
  · subst he; simp
  · simp [he]

/-! ## Updates the lists do not see -/

/-- The node fields the lists are made of. -/
def Node.core (n : Node) : Option NodeRef × Option NodeRef × Nat × Nat × Bool :=
  (n.prev, n.next, n.baseVpn, n.limitVpn, n.isLive)

/-- A node without its owner fields. -/
def Node.disowned (n : Node) : Node :=
  { n with owner := none, ownerPrev := none, ownerNext := none }

/-- `s'` differs from `s` only in owners and in node fields that `π` does not show. -/
def SameUpTo {β : Type} (π : Node → β) (s s' : State) : Prop :=
  ∃ nodes owners, s' = { s with nodes := nodes, owners := owners } ∧
    ∀ r, π (nodes r) = π (s.nodes r)

section SameUpTo

variable {β : Type} {π : Node → β} {s t : State}

theorem SameUpTo.refl (s : State) : SameUpTo π s s := ⟨s.nodes, s.owners, rfl, fun _ => rfl⟩

section

variable (h : SameUpTo π s t)
include h

theorem SameUpTo.trans {u : State} (h' : SameUpTo π t u) : SameUpTo π s u := by
  obtain ⟨n, o, rfl, hn⟩ := h
  obtain ⟨n', o', rfl, hn'⟩ := h'
  exact ⟨n', o', rfl, fun r => (hn' r).trans (hn r)⟩

/-- An update that `π` does not see. -/
theorem SameUpTo.modNode (hf : ∀ n, π (f n) = π n) (r : NodeRef) :
    SameUpTo π s (t.modNode r f) := by
  refine h.trans ⟨_, t.owners, modNode_eq t r f, fun a => ?_⟩
  split
  · exact hf _
  · rfl

theorem SameUpTo.modNode? (hf : ∀ n, π (f n) = π n) (p : Option NodeRef) :
    SameUpTo π s (t.modNode? p f) := by
  cases p with
  | none => exact h
  | some r => exact h.modNode hf r

theorem SameUpTo.modOwner (o : Nat) (f : Owner → Owner) : SameUpTo π s (t.modOwner o f) :=
  h.trans ⟨t.nodes, _, rfl, fun _ => rfl⟩

theorem SameUpTo.modOwnerIf (c : Prop) [Decidable c] (o : Nat) (f : Owner → Owner) :
    SameUpTo π s (if c then t.modOwner o f else t) := by
  split
  · exact h.modOwner o f
  · exact h

end

/-- Only nodes and owners differ. -/
theorem SameUpTo.doms (h : SameUpTo π s t) : t.doms = s.doms := by
  obtain ⟨n, o, rfl, -⟩ := h
  rfl

/-- What is seen of a node through `π` is the same. -/
theorem SameUpTo.field {α : Type} (h : SameUpTo π s t) (g : Node → α)
    (hg : ∀ {n n'}, π n = π n' → g n = g n') (r : NodeRef) : g (t.nodes r) = g (s.nodes r) := by
  obtain ⟨n, o, rfl, hn⟩ := h
  exact hg (hn r)

/-- A projection that says less. -/
theorem SameUpTo.coarser {α : Type} {ρ : Node → α} (h : SameUpTo π s t)
    (hρ : ∀ {n n'}, π n = π n' → ρ n = ρ n') : SameUpTo ρ s t := by
  obtain ⟨n, o, rfl, hn⟩ := h
  exact ⟨n, o, rfl, fun r => hρ (hn r)⟩

theorem SameUpTo.core (h : SameUpTo Node.disowned s t) : SameUpTo Node.core s t :=
  h.coarser (congrArg Node.core)

end SameUpTo

/-- The owner lists show in owners and links only. -/
theorem attachOwnerNode_same (s : State) (r : NodeRef) (o : Option Nat) :
    SameUpTo Node.disowned s (attachOwnerNode s r o).2 := by
  unfold attachOwnerNode
  have hcleared := (show SameUpTo Node.disowned s s from SameUpTo.refl s).modNode
    (f := fun n => { n with owner := none, ownerPrev := none, ownerNext := none })
    (fun _ => rfl) r
  cases o with
  | none => exact hcleared
  | some o =>
    dsimp only
    split
    · exact hcleared
    · dsimp only
      refine SameUpTo.modOwner ?_ _ _
      refine SameUpTo.modOwnerIf ?_ _ _ _
      refine SameUpTo.modNode? ?_ (by intro _; rfl) _
      exact hcleared.modNode (by intro _; rfl) r

theorem detachOwnerNode_same (s : State) (r : NodeRef) :
    SameUpTo Node.disowned s (detachOwnerNode s r) := by
  unfold detachOwnerNode
  dsimp only
  split
  · exact .refl _
  · refine SameUpTo.modNode ?_ (by intro _; rfl) r
    refine SameUpTo.modOwnerIf ?_ _ _ _
    refine SameUpTo.modNode? ?_ (by intro _; rfl) _
    refine SameUpTo.modOwnerIf ?_ _ _ _
    exact (SameUpTo.refl s).modNode? (by intro _; rfl) _

/-! ## The invariant only depends on the core of linked nodes -/

section Frame

variable {s s' : State} {d : DomainId} {l : List NodeRef} {L : DomainId → List NodeRef}

/-- Lists depend on the core of their nodes. -/
theorem ListOk.congr (h : ListOk s d l) (hdom : s'.doms d = s.doms d)
    (hcore : ∀ r ∈ l, (s'.nodes r).core = (s.nodes r).core) : ListOk s' d l := by
  simp only [Node.core, Prod.mk.injEq] at hcore
  have hspan : l.map s'.span = l.map s.span := by
    refine List.map_congr_left fun r hr => ?_
    rw [State.span, State.span, (hcore r hr).2.2.1, (hcore r hr).2.2.2.1]
  refine ⟨?_, hspan ▸ h.asc, fun r hr => ?_⟩
  · rw [hdom]
    exact h.list.congr (fun r hr => (hcore r hr).2.1) (fun r hr => (hcore r hr).1)
  · rw [hdom, (hcore r hr).2.2.1, (hcore r hr).2.2.2.1]
    exact h.inside r hr

theorem reserved_congr (hcore : ∀ r ∈ l, (s'.nodes r).core = (s.nodes r).core) :
    s'.reserved l = s.reserved l := by
  simp only [Node.core, Prod.mk.injEq] at hcore
  refine congrArg List.sum (List.map_congr_left fun r hr => ?_)
  rw [Node.totalPageCount, Node.totalPageCount, (hcore r hr).2.2.1, (hcore r hr).2.2.2.1]

/-- Counters depend on the core of the nodes. -/
theorem CountOk.congr (h : CountOk s d l) (hdom : s'.doms d = s.doms d)
    (hcore : ∀ r ∈ l, (s'.nodes r).core = (s.nodes r).core) : CountOk s' d l := by
  refine ⟨hdom ▸ h.uninit, hdom ▸ h.range, fun hi => ?_⟩
  rw [hdom] at hi ⊢
  rw [reserved_congr hcore]
  exact h.count hi

theorem InPool.mono (h : InPool s r) (he : s.earlyUsed ≤ s'.earlyUsed) (hs : s.slabs ⊆ s'.slabs) :
    InPool s' r := by
  cases r with
  | early i => exact lt_of_lt_of_le h he
  | slab pfn i => exact ⟨hs h.1, h.2⟩

theorem isNodeInDynamicPool_mono (hs : s.slabs ⊆ s'.slabs) (h : isNodeInDynamicPool s r = true) :
    isNodeInDynamicPool s' r = true := by
  cases r with
  | early i => exact h
  | slab pfn i =>
    simp only [isNodeInDynamicPool, Bool.and_eq_true, decide_eq_true_eq] at h ⊢
    exact ⟨hs h.1, h.2⟩

/-- The pool and the lists in another state. -/
theorem NodesOk.congr (h : NodesOk s L) (he : s'.earlyUsed = s.earlyUsed)
    (hf : s'.freelist = s.freelist) (hs : s'.slabs = s.slabs)
    (hlive : ∀ d, ∀ r ∈ L d, (s'.nodes r).isLive = (s.nodes r).isLive) : NodesOk s' L where
  early := he ▸ h.early
  slabs := hs ▸ h.slabs
  free := hf ▸ h.free
  slab r hr := isNodeInDynamicPool_mono (hs ▸ List.Subset.refl _) (h.slab r (hf ▸ hr))
  pool d r hr := (h.pool d r hr).mono he.symm.le (hs ▸ List.Subset.refl _)
  live d r hr := (hlive d r hr).trans (h.live d r hr)
  busy := hf ▸ h.busy
  apart := h.apart

/-- Nodes may leave the lists. -/
theorem NodesOk.mono {L' : DomainId → List NodeRef} (h : NodesOk s L) (hsub : ∀ d, L' d ⊆ L d) :
    NodesOk s L' where
  __ := h
  pool d r hr := h.pool d r (hsub d hr)
  live d r hr := h.live d r (hsub d hr)
  busy d r hr := h.busy d r (hsub d hr)
  apart d d' r hr hr' := h.apart d d' r (hsub d hr) (hsub d' hr')

/-- **The invariant depends on the cores only.** -/
theorem VmmOk.sameLists (h : VmmOk s L) (hs : SameUpTo Node.core s s') : VmmOk s' L := by
  obtain ⟨nodes, owners, rfl, hcore⟩ := hs
  exact ⟨h.nodes.congr rfl rfl rfl fun d r _ => congrArg (fun c => c.2.2.2.2) (hcore r),
    fun d => (h.lists d).congr rfl fun r _ => hcore r,
    fun d => (h.counts d).congr rfl fun r _ => hcore r⟩

/-- The list of domain `d` is replaced, and nothing that the other lists are made of is written. -/
theorem VmmOk.update (h : VmmOk s L) (hnodes : NodesOk s' (update L d l))
    (hdoms : ∀ e ≠ d, s'.doms e = s.doms e)
    (hcore : ∀ e ≠ d, ∀ a ∈ L e, (s'.nodes a).core = (s.nodes a).core) (hlist : ListOk s' d l)
    (hcount : CountOk s' d l) : VmmOk s' (update L d l) := by
  refine ⟨hnodes, fun e => ?_, fun e => ?_⟩ <;> rcases eq_or_ne e d with rfl | he
  · rwa [update_self]
  · rw [update_of_ne he]
    exact (h.lists e).congr (hdoms e he) (hcore e he)
  · rwa [update_self]
  · rw [update_of_ne he]
    exact (h.counts e).congr (hdoms e he) (hcore e he)

/-- Pages that a list gains or loses are taken from the free count or given back to it. -/
theorem CountOk.update (h : CountOk s d l) (hi : (s.doms d).initialized = true) {l' : List NodeRef}
    (hshape : (s'.doms d).shape = (s.doms d).shape)
    (hcount : (s'.doms d).freeCount + s'.reserved l' = (s.doms d).freeCount + s.reserved l) :
    CountOk s' d l' := by
  simp only [Domain.shape, Prod.mk.injEq] at hshape
  obtain ⟨hbase, hlimit, hinit, -⟩ := hshape
  refine ⟨fun hu => ?_, ?_, fun _ => ?_⟩
  · rw [hinit, hi] at hu
    cases hu
  · rw [hbase, hlimit]
    exact h.range
  · rw [hcount, hbase, hlimit]
    exact h.count hi

end Frame

/-! ## Walks see the whole list -/

/-- Every node `create_reservation_node` can have returned. -/
def poolNodes (s : State) : List NodeRef :=
  (List.range s.earlyUsed).map NodeRef.early ++
    s.slabs.flatMap fun pfn => (List.range nodesPerSlab).map (NodeRef.slab pfn)

theorem length_poolNodes (s : State) : (poolNodes s).length = s.earlyUsed + s.dynamicTotal := by
  simp [poolNodes, State.dynamicTotal, List.length_flatMap]

/-- Every node in use comes from the pool. -/
theorem mem_poolNodes (h : InPool s r) : r ∈ poolNodes s := by
  cases r with
  | early i => exact List.mem_append_left _ (List.mem_map_of_mem (List.mem_range.mpr h))
  | slab pfn i =>
    refine List.mem_append_right _ (List.mem_flatMap.mpr ⟨pfn, h.1, ?_⟩)
    exact List.mem_map_of_mem (List.mem_range.mpr h.2)

/-- A walk with enough fuel returns the list. -/
theorem walk_eq {fuel : Nat} {l : List NodeRef} {p : Option NodeRef} (hseg : Seg s.nx s.pv p l none)
    (hlen : l.length ≤ fuel) : s.walk fuel l.head? = l := by
  induction fuel generalizing l p with
  | zero =>
    rw [List.eq_nil_of_length_eq_zero (Nat.le_zero.mp hlen)]
    rfl
  | succ fuel ih =>
    cases l with
    | nil => rfl
    | cons r l =>
      obtain ⟨-, hnext, hrest⟩ := hseg
      rw [Option.or_none] at hnext
      show r :: s.walk fuel (s.nx r) = r :: l
      rw [hnext, ih hrest (by simpa using hlen)]

section Walks

variable {s : State} {L : DomainId → List NodeRef}

/-- No list is longer than the number of nodes there are. -/
theorem VmmOk.length_le (h : VmmOk s L) (d : DomainId) :
    (L d).length ≤ s.earlyUsed + s.dynamicTotal := by
  rw [← length_poolNodes]
  exact ((h.lists d).list.nodup.subperm fun r hr => mem_poolNodes (h.nodes.pool d r hr)).length_le

/-- The list that is read is the list that is linked. -/
theorem VmmOk.listOf_eq (h : VmmOk s L) (d : DomainId) : s.listOf d = L d := by
  rw [State.listOf, (h.lists d).list.head_eq]
  exact walk_eq (h.lists d).list.seg (h.length_le d)

theorem VmmOk.spans_eq (h : VmmOk s L) (d : DomainId) : s.spans d = (L d).map s.span := by
  rw [State.spans, h.listOf_eq]
  rfl

theorem NodesOk.isNodeInPool (h : NodesOk s L) (hr : r ∈ L d) : isNodeInPool s r = true := by
  have hp := h.pool d r hr
  cases r with
  | early i => simpa [Vmm.isNodeInPool] using lt_of_lt_of_le hp h.early
  | slab pfn i => simpa [Vmm.isNodeInPool, isNodeInDynamicPool, InPool] using hp

/-- The check of a list accepts it. -/
theorem validateLoop_eq_true (h : NodesOk s L) {l : List NodeRef} {p : Option NodeRef} {guard : Nat}
    (hsub : l ⊆ L d) (hseg : Seg s.nx s.pv p l none) (hasc : Ascending (l.map s.span))
    (hlen : l.length ≤ guard)
    (hp : (∀ a, p = some a → ∀ r ∈ l, (s.nodes a).baseVpn < (s.nodes r).baseVpn)) :
    validateLoop s guard p l.head? = true := by
  induction l generalizing p guard with
  | nil => cases guard <;> rfl
  | cons r l ih =>
    obtain ⟨hpv, hnx, hrest⟩ := hseg
    rw [Option.or_none] at hnx
    have hr : r ∈ L d := hsub List.mem_cons_self
    have hlt : (s.nodes r).baseVpn < (s.nodes r).limitVpn := hasc.2 _ (List.mem_cons_self)
    cases guard with
    | zero => simp at hlen
    | succ guard =>
      have hrec : validateLoop s guard (some r) (s.nodes r).next = true := by
        show validateLoop s guard (some r) (s.nx r) = true
        rw [hnx]
        refine ih (fun a ha => hsub (List.mem_cons_of_mem _ ha)) hrest hasc.tail
          (by simpa using hlen) ?_
        rintro a ⟨⟩ b hb
        exact lt_of_lt_of_le hlt (hasc.head_le (s.span b) (List.mem_map_of_mem hb))
      have hpv' : (s.nodes r).prev = p := hpv
      simp only [List.head?_cons, validateLoop, Bool.and_eq_true, decide_eq_true_eq]
      refine ⟨⟨⟨⟨⟨⟨h.isNodeInPool hr, h.live d r hr⟩, hpv'⟩, hlt⟩, ?_⟩, ?_⟩, hrec⟩
      · cases p with
        | none => rfl
        | some a => exact decide_eq_true (hp a rfl r List.mem_cons_self)
      · cases hq : (s.nodes r).next with
        | none => rfl
        | some q =>
          refine h.isNodeInPool (hsub (List.mem_cons_of_mem _ (List.mem_of_head? ?_)))
          exact hnx.symm.trans hq

/-- The run-time validation never fails. -/
theorem VmmOk.validate (h : VmmOk s L) (d : DomainId) : validateDomainList s d = true := by
  rw [validateDomainList, (h.lists d).list.head_eq]
  refine validateLoop_eq_true h.nodes (List.Subset.refl _) (h.lists d).list.seg (h.lists d).asc ?_
    (by simp)
  exact Nat.le_succ_of_le (h.length_le d)

end Walks

end FoliOS.Strata.Vmm
