import FoliOS.Strata.Vmm.Lists

/-!
# Strata — linking and unlinking reservations

`create_reservation_node` hands out a node that no list holds, and a node that has left its list can
be given back: `createReservationNode_ok`, `releaseReservationNode_ok`. `insert_domain_node_sorted`
finds the place that keeps a list ascending, and together with the free-count update it keeps
`VmmOk` (`insertNode_ok`); so do the steps that take a node out and give it back (`removeNode_ok`).
-/

namespace FoliOS.Strata.Vmm

open Function Lib

section Pool

variable {s s' : State} {L : DomainId → List NodeRef} {r : NodeRef}

/-- A pool node that is in use and in no list. -/
structure Loose (s : State) (L : DomainId → List NodeRef) (r : NodeRef) : Prop where
  pool     : InPool s r
  busy     : r ∉ s.freelist
  unlinked : ∀ d, r ∉ L d

/-- Domains and linked nodes are as before. -/
structure Quiet (s s' : State) (L : DomainId → List NodeRef) : Prop where
  doms  : s'.doms = s.doms
  nodes : ∀ d, ∀ r ∈ L d, s'.nodes r = s.nodes r

theorem Quiet.refl (s : State) (L : DomainId → List NodeRef) : Quiet s s L :=
  ⟨rfl, fun _ _ _ => rfl⟩

theorem Quiet.trans {s'' : State} (h : Quiet s s' L) (h' : Quiet s' s'' L) : Quiet s s'' L :=
  ⟨h'.doms.trans h.doms, fun d r hr => (h'.nodes d r hr).trans (h.nodes d r hr)⟩

/-- A change that no list sees. -/
theorem VmmOk.quiet (h : VmmOk s L) (hq : Quiet s s' L) (hn : NodesOk s' L) : VmmOk s' L :=
  ⟨hn, fun d => (h.lists d).congr (by rw [hq.doms]) fun r hr => by rw [hq.nodes d r hr],
    fun d => (h.counts d).congr (by rw [hq.doms]) fun r hr => by rw [hq.nodes d r hr]⟩

/-- Nodes on lists stay live. -/
theorem VmmOk.quiet_live (h : VmmOk s L) (hq : Quiet s s' L) :
    ∀ d, ∀ r ∈ L d, (s'.nodes r).isLive = true :=
  fun d r hr => hq.nodes d r hr ▸ h.nodes.live d r hr

/-- Any write to a node that is not linked. -/
theorem Quiet.modUnlinked (hr : ∀ d, r ∉ L d) (f : Node → Node) : Quiet s (s.modNode r f) L := by
  refine ⟨rfl, fun d a ha => ?_⟩
  have hne : a ≠ r := fun he => hr d (he ▸ ha)
  simp [modNode_eq, hne]

/-- A node on no list may change freely. -/
theorem VmmOk.modUnlinked (h : VmmOk s L) (hr : ∀ d, r ∉ L d) (f : Node → Node) :
    VmmOk (s.modNode r f) L :=
  have hq := Quiet.modUnlinked (s := s) hr f
  h.quiet hq (h.nodes.congr rfl rfl rfl fun d a ha => congrArg Node.isLive (hq.nodes d a ha))

/-! ## Slabs -/

/-- Pushing the nodes `l` of a slab one after the other. -/
theorem pushNodes_eq (pfn : Nat) (l : List Nat) (s : State) :
    l.foldl (fun s i => { (s.modNode (.slab pfn i) fun _ => Node.zeroed) with
      freelist := .slab pfn i :: s.freelist }) s =
      { s with
      nodes := fun a => if a ∈ l.map (NodeRef.slab pfn) then Node.zeroed else s.nodes a
      freelist := (l.map (NodeRef.slab pfn)).reverse ++ s.freelist } := by
  induction l generalizing s with
  | nil => simp
  | cons i l ih =>
    rw [List.foldl_cons, ih]
    simp only [modNode_eq, List.map_cons, List.reverse_cons, List.append_assoc,
      List.singleton_append, State.mk.injEq, and_true]
    funext a
    by_cases h1 : a = .slab pfn i <;> by_cases h2 : a ∈ l.map (NodeRef.slab pfn) <;> simp [h1, h2]

theorem pushSlab_eq (s : State) (pfn : Nat) :
    pushSlab s pfn =
      { s with
        nodes := fun a => if a ∈ (List.range nodesPerSlab).map (NodeRef.slab pfn) then Node.zeroed
          else s.nodes a
        freelist := ((List.range nodesPerSlab).map (NodeRef.slab pfn)).reverse ++ s.freelist
        slabs := s.slabs ++ [pfn] } :=
  pushNodes_eq pfn _ _

theorem mem_slabNodes {pfn : Nat} (h : r ∈ (List.range nodesPerSlab).map (NodeRef.slab pfn)) :
    ∃ i, r = .slab pfn i ∧ i < nodesPerSlab := by
  obtain ⟨i, hi, rfl⟩ := List.mem_map.mp h
  exact ⟨i, rfl, List.mem_range.mp hi⟩

/-- A new slab adds free nodes and changes nothing that is linked. -/
theorem pushSlab_ok (h : VmmOk s L) {pfn : Nat} (hpfn : pfn ∉ s.slabs) :
    VmmOk (pushSlab s pfn) L ∧ Quiet s (pushSlab s pfn) L := by
  -- the slab's nodes are neither linked nor free yet
  have hlinked : ∀ d, ∀ r ∈ L d, r ∉ (List.range nodesPerSlab).map (NodeRef.slab pfn) := by
    intro d r hr hmem
    obtain ⟨i, rfl, -⟩ := mem_slabNodes hmem
    exact hpfn (h.nodes.pool d _ hr).1
  have hfree : ∀ r ∈ s.freelist, r ∉ (List.range nodesPerSlab).map (NodeRef.slab pfn) := by
    intro r hr hmem
    obtain ⟨i, rfl, -⟩ := mem_slabNodes hmem
    have := h.nodes.slab _ hr
    simp only [isNodeInDynamicPool, Bool.and_eq_true, decide_eq_true_eq] at this
    exact hpfn this.1
  have hquiet : Quiet s (pushSlab s pfn) L := by
    rw [pushSlab_eq]
    exact ⟨rfl, fun d r hr => if_neg (hlinked d r hr)⟩
  refine ⟨h.quiet hquiet ?_, hquiet⟩
  have hlive := h.quiet_live hquiet
  rw [pushSlab_eq] at hlive ⊢
  refine ⟨h.nodes.early, ?_, ?_, ?_, ?_, hlive, ?_, h.nodes.apart⟩
  · exact List.nodup_append.mpr ⟨h.nodes.slabs, by simp, fun a ha b hb => by
      rw [List.mem_singleton] at hb
      exact fun he => hpfn (hb ▸ he ▸ ha)⟩
  · refine List.nodup_append.mpr ⟨List.nodup_reverse.mpr ?_, h.nodes.free, ?_⟩
    · exact List.nodup_range.map fun i j hij => by simpa using hij
    · intro a ha b hb he
      exact hfree b hb (List.mem_reverse.mp (he ▸ ha))
  · intro r hr
    rcases List.mem_append.mp hr with hr | hr
    · obtain ⟨i, rfl, hi⟩ := mem_slabNodes (List.mem_reverse.mp hr)
      simp [isNodeInDynamicPool, hi]
    · exact isNodeInDynamicPool_mono (List.subset_append_left _ _) (h.nodes.slab r hr)
  · exact fun d r hr => (h.nodes.pool d r hr).mono le_rfl (List.subset_append_left _ _)
  · intro d r hr hmem
    rcases List.mem_append.mp hmem with hmem | hmem
    · exact hlinked d r hr (List.mem_reverse.mp hmem)
    · exact h.nodes.busy d r hr hmem

/-- A top-up keeps the invariant. -/
theorem topup_ok (h : VmmOk s L) (fs : FrameSource) (k : Nat) :
    VmmOk (topupDynamicReservationNodePool fs k s).2 L ∧
      Quiet s (topupDynamicReservationNodePool fs k s).2 L := by
  unfold topupDynamicReservationNodePool
  split
  · exact ⟨h, .refl s L⟩
  · split
    · exact ⟨h, .refl s L⟩
    · rename_i pfn hpfn
      exact pushSlab_ok h (fs.fresh _ _ _ hpfn)

theorem maybeTopup_ok (h : VmmOk s L) (fs : FrameSource) :
    VmmOk (maybeTopupDynamicReservationNodePool fs s) L ∧
      Quiet s (maybeTopupDynamicReservationNodePool fs s) L := by
  unfold maybeTopupDynamicReservationNodePool
  split
  · exact ⟨h, .refl s L⟩
  · exact topup_ok h fs 0

/-! ## Creating and releasing nodes -/

/-- What `create_reservation_node` guarantees. -/
def Created (s : State) (L : DomainId → List NodeRef) : Except StStatus NodeRef × State → Prop
  | (.ok r, s') => VmmOk s' L ∧ Quiet s s' L ∧ Loose s' L r
  | (.error e, s') => VmmOk s' L ∧ Quiet s s' L ∧ checkSuccess e = false

/-- **What the creation of a node leaves.** -/
theorem createReservationNode_ok (h : VmmOk s L) (fs : FrameSource) :
    Created s L (createReservationNode fs s) := by
  have hearly : ∀ i, NodeRef.early i ∉ s.freelist := by
    intro i hmem
    have := h.nodes.slab _ hmem
    simp [isNodeInDynamicPool] at this
  unfold createReservationNode
  split
  · -- a dead early node: linked nodes are live
    rename_i i hfind
    have hdead : (s.nodes (.early i)).isLive = false := by
      simpa using List.find?_some hfind
    have hloose : ∀ d, NodeRef.early i ∉ L d := by
      intro d hr
      rw [h.nodes.live d _ hr] at hdead
      simp at hdead
    refine ⟨h.modUnlinked hloose _, .modUnlinked hloose _, ?_, hearly i, hloose⟩
    exact List.mem_range.mp (List.mem_of_find?_eq_some hfind)
  · split
    · -- the next unused early node
      rename_i hlt
      have hloose : ∀ d, NodeRef.early s.earlyUsed ∉ L d := fun d hr =>
        absurd (h.nodes.pool d _ hr) (by simp [InPool])
      have hq : Quiet s { (s.modNode (.early s.earlyUsed) fun _ => Node.zeroed) with
          earlyUsed :=
            s.earlyUsed + 1 } L := ⟨rfl, (Quiet.modUnlinked hloose fun _ => Node.zeroed).nodes⟩
      refine ⟨h.quiet hq ⟨hlt, h.nodes.slabs, h.nodes.free, h.nodes.slab, fun d r hr => ?_,
        h.quiet_live hq, h.nodes.busy, h.nodes.apart⟩, hq, Nat.lt_succ_self _, hearly _, hloose⟩
      exact (h.nodes.pool d r hr).mono (Nat.le_succ _) (List.Subset.refl _)
    · -- a node from the dynamic pool
      obtain ⟨h1, hq1⟩ := maybeTopup_ok h fs
      generalize maybeTopupDynamicReservationNodePool fs s = s1 at h1 hq1
      have hstep : VmmOk (if s1.freelist = [] then
          (topupDynamicReservationNodePool fs 1 s1).2 else s1) L ∧
          Quiet s (if s1.freelist = [] then
            (topupDynamicReservationNodePool fs 1 s1).2 else s1) L := by
        split
        · obtain ⟨h2, hq2⟩ := topup_ok h1 fs 1
          exact ⟨h2, hq1.trans hq2⟩
        · exact ⟨h1, hq1⟩
      dsimp only
      generalize (if s1.freelist = [] then
        (topupDynamicReservationNodePool fs 1 s1).2 else s1) = s2 at hstep
      obtain ⟨h2, hq2⟩ := hstep
      cases hlist : s2.freelist with
      | nil => exact ⟨h2, hq2, rfl⟩
      | cons r rest =>
        have hfree : r ∈ s2.freelist := by rw [hlist]; exact List.mem_cons_self
        have hnd := h2.nodes.free
        rw [hlist, List.nodup_cons] at hnd
        have hloose : ∀ d, r ∉ L d := fun d hr => h2.nodes.busy d r hr hfree
        have hq : Quiet s2 { (s2.modNode r fun _ => Node.zeroed) with freelist := rest } L :=
          ⟨rfl, (Quiet.modUnlinked hloose fun _ => Node.zeroed).nodes⟩
        have hrest : ∀ a ∈ rest, a ∈ s2.freelist := fun a ha => by
          rw [hlist]; exact List.mem_cons_of_mem _ ha
        refine ⟨h2.quiet hq ⟨h2.nodes.early, h2.nodes.slabs, hnd.2, fun a ha => ?_,
          h2.nodes.pool, h2.quiet_live hq, fun d a ha hmem => ?_, h2.nodes.apart⟩, hq2.trans hq,
          ?_, hnd.1, hloose⟩
        · exact h2.nodes.slab a (hrest a ha)
        · exact h2.nodes.busy d a ha (hrest a hmem)
        · have := h2.nodes.slab r hfree
          cases r with
          | early i => simp [isNodeInDynamicPool] at this
          | slab p i =>
            show p ∈ s2.slabs ∧ i < nodesPerSlab
            simpa [isNodeInDynamicPool] using this

/-- A node on no list goes back to the pool. -/
theorem releaseReservationNode_ok (h : VmmOk s L) (hr : Loose s L r) :
    VmmOk (releaseReservationNode s r) L ∧ Quiet s (releaseReservationNode s r) L := by
  unfold releaseReservationNode
  dsimp only
  have h1 := h.modUnlinked hr.unlinked fun n => { n with isLive := false }
  have hq1 : Quiet s (s.modNode r fun n => { n with isLive := false }) L :=
    .modUnlinked hr.unlinked _
  have hbusy : r ∉ (s.modNode r fun n => { n with isLive := false }).freelist := hr.busy
  generalize (s.modNode r fun n => { n with isLive := false }) = s1 at h1 hq1 hbusy
  split
  · rename_i hdyn
    have hq : Quiet s1 { s1 with freelist := r :: s1.freelist } L := ⟨rfl, fun _ _ _ => rfl⟩
    refine ⟨h1.quiet hq ⟨h1.nodes.early, h1.nodes.slabs, ?_, ?_, h1.nodes.pool, h1.nodes.live, ?_,
      h1.nodes.apart⟩, hq1.trans hq⟩
    · exact List.nodup_cons.mpr ⟨hbusy, h1.nodes.free⟩
    · intro a ha
      rcases List.mem_cons.mp ha with rfl | ha
      · exact hdyn
      · exact h1.nodes.slab a ha
    · intro d a ha hmem
      rcases List.mem_cons.mp hmem with rfl | hmem
      · exact hr.unlinked d ha
      · exact h1.nodes.busy d a ha hmem
  · exact ⟨h1, hq1⟩

end Pool

variable {l1 l2 : List (Nat × Nat)} {e : DomainId} {a : NodeRef}

variable {s : State} {L : DomainId → List NodeRef} {d : DomainId} {r : NodeRef}

/-- A node without its links: what a reservation is, wherever it is threaded. -/
def Node.data (n : Node) : Node := { n.disowned with prev := none, next := none }

theorem subWord_eq {a b : Nat} (ha : a < wordLimit) (hb : b ≤ a) : subWord a b = a - b := by
  rw [subWord, show a + wordLimit - b = (a - b) + wordLimit by omega, Nat.add_mod_right,
    Nat.mod_eq_of_lt (by omega)]

theorem CountOk.freeCount_lt {l : List NodeRef} (h : CountOk s d l)
    (hi : (s.doms d).initialized = true) : (s.doms d).freeCount + s.reserved l < wordLimit := by
  rw [h.count hi]
  exact Nat.mod_lt _ (by simp [wordLimit])

/-! ## Insertion -/

/-- The search stops between the ranges below and at or above `base`. -/
theorem insertPosition_eq (s : State) (base : Nat) (l : List NodeRef) (p : Option NodeRef) :
    ∃ l1 l2, l = l1 ++ l2 ∧ insertPosition s base p l = (l1.getLast?.or p, l2.head?) ∧
      (∀ a ∈ l1, (s.nodes a).baseVpn < base) ∧
      ∀ a, l2.head? = some a → base ≤ (s.nodes a).baseVpn := by
  induction l generalizing p with
  | nil => exact ⟨[], [], rfl, rfl, by simp, by simp⟩
  | cons a l ih =>
    by_cases hlt : (s.nodes a).baseVpn < base
    · obtain ⟨l1, l2, rfl, heq, h1, h2⟩ := ih (some a)
      refine ⟨a :: l1, l2, rfl, ?_, ?_, h2⟩
      · rw [insertPosition, if_pos hlt, heq]
        cases l1 with
        | nil => rfl
        | cons b l1 => simp [List.getLast?_cons]
      · intro b hb
        rcases List.mem_cons.mp hb with rfl | hb
        · exact hlt
        · exact h1 b hb
    · refine ⟨[], a :: l, rfl, ?_, by simp, ?_⟩
      · rw [insertPosition, if_neg hlt]
        rfl
      · rintro b ⟨⟩
        omega

/-- Threading `r` between two neighbours of domain `d`. -/
def threaded (s : State) (d : DomainId) (r : NodeRef) (prev curr : Option NodeRef) : State :=
  { s with
    nodes := fun a =>
      { s.nodes a with
        prev := insertPrev s.pv r prev curr a, next := insertNext s.nx r prev curr a }
    doms := fun e => if e = d ∧ prev = none then { s.doms e with head := some r } else s.doms e }

/-- The insertion is one change of links. -/
theorem insertDomainNodeSorted_eq {prev curr : Option NodeRef}
    (hpos : insertPosition s (s.nodes r).baseVpn none (s.listOf d) = (prev, curr))
    (hne : ∀ c, curr = some c → (s.nodes c).baseVpn ≠ (s.nodes r).baseVpn) (hp : prev ≠ some r)
    (hc : curr ≠ some r) : insertDomainNodeSorted s d r = (.success, threaded s d r prev curr) := by
  unfold insertDomainNodeSorted
  simp only [hpos]
  rw [if_neg ?_]
  · simp only [threaded, modNode_eq, modNode?_eq, modDom_eq, Prod.mk.injEq, true_and]
    by_cases hprev : prev = none
    · simp only [hprev, if_true, and_true, State.mk.injEq]
      funext a
      by_cases ha : a = r
      · subst ha; simp [insertPrev, insertNext, hc]
      · by_cases hca : curr = some a <;> simp [insertPrev, insertNext, ha, hca, State.pv, State.nx]
    · simp only [hprev, if_false, and_false, State.mk.injEq, and_true]
      funext a
      by_cases ha : a = r
      · subst ha; simp [insertPrev, insertNext, hp, hc]
      · by_cases hpa : prev = some a <;> by_cases hca : curr = some a <;>
          simp [insertPrev, insertNext, ha, hpa, hca, State.pv, State.nx]
  · cases curr with
    | none => simp
    | some c => simpa using hne c rfl

/-- Putting a range that avoids an ascending list at its place keeps it ascending. -/
theorem Ascending.insert {x : Nat × Nat} (h : Ascending (l1 ++ l2)) (hx : x.1 < x.2)
    (h1 : ∀ y ∈ l1, y.2 ≤ x.1) (h2 : ∀ y ∈ l2, x.2 ≤ y.1) : Ascending (l1 ++ x :: l2) := by
  obtain ⟨hp1, hp2, hcross⟩ := List.pairwise_append.mp h.1
  obtain ⟨hne1, hne2⟩ := List.forall_mem_append.mp h.2
  refine ⟨List.pairwise_append.mpr ⟨hp1, List.pairwise_cons.mpr ⟨h2, hp2⟩, fun y hy => ?_⟩, ?_⟩
  · exact List.forall_mem_cons.mpr ⟨h1 y hy, hcross y hy⟩
  · exact List.forall_mem_append.mpr ⟨hne1, List.forall_mem_cons.mpr ⟨hx, hne2⟩⟩

/-- Below the first range that starts at or above `base`, everything ends by then;
from it on, everything starts past a range that avoids the list. -/
theorem avoids_split {base count : Nat} (h : Ascending (l1 ++ l2)) (hcount : 0 < count)
    (hav : Avoids (l1 ++ l2) base count) (h1 : ∀ y ∈ l1, y.1 < base)
    (h2 : ∀ y, l2.head? = some y → base ≤ y.1) :
    (∀ y ∈ l1, y.2 ≤ base) ∧ ∀ y ∈ l2, base + count ≤ y.1 := by
  refine ⟨fun y hy => ?_, fun y hy => ?_⟩
  · have := h1 y hy
    rcases hav y (List.mem_append_left _ hy) with h' | h'
    · exact h'
    · omega
  · have hy' := List.mem_append_right l1 hy
    have hne := h.2 y hy'
    have hbase : base ≤ y.1 := by
      cases l2 with
      | nil => simp at hy
      | cons z l2 =>
        have hz := h2 z rfl
        have hzne := h.2 z (by simp)
        rcases List.mem_cons.mp hy with rfl | hy
        · exact hz
        · have := (List.pairwise_cons.mp (List.pairwise_append.mp h.1).2.1).1 y hy
          omega
    rcases hav y hy' with h' | h'
    · omega
    · exact h'

theorem reserved_append (l1 l2 : List NodeRef) :
    s.reserved (l1 ++ l2) = s.reserved l1 + s.reserved l2 := by
  simp [State.reserved]

theorem reserved_cons (l : List NodeRef) :
    s.reserved (r :: l) = (s.nodes r).totalPageCount + s.reserved l := by
  simp [State.reserved]

theorem mem_update_insert {l1 l2 : List NodeRef} (hL : L d = l1 ++ l2) :
    a ∈ update L d (l1 ++ r :: l2) e ↔ (e = d ∧ a = r) ∨ a ∈ L e := by
  rcases eq_or_ne e d with rfl | he
  · rw [update_self, hL]
    simp only [List.mem_append, List.mem_cons, true_and]
    tauto
  · simp [he]

/-- Lists with `r` added to the one of domain `d`. -/
theorem NodesOk.insert (h : NodesOk s L) (hr : Loose s L r) (hlive : (s.nodes r).isLive = true)
    {l1 l2 : List NodeRef} (hL : L d = l1 ++ l2) : NodesOk s (update L d (l1 ++ r :: l2)) := by
  have hall : ∀ {P : NodeRef → Prop}, P r → (∀ e, ∀ a ∈ L e, P a) →
      ∀ e, ∀ a ∈ update L d (l1 ++ r :: l2) e, P a := by
    intro P hnew hold e a ha
    rcases (mem_update_insert hL).mp ha with ⟨-, rfl⟩ | ha
    · exact hnew
    · exact hold e a ha
  refine ⟨h.early, h.slabs, h.free, h.slab, hall hr.pool h.pool, hall hlive h.live,
    hall hr.busy h.busy, fun e e' a ha ha' => ?_⟩
  · rcases (mem_update_insert hL).mp ha with ⟨he, har⟩ | ha <;>
      rcases (mem_update_insert hL).mp ha' with ⟨he', har'⟩ | ha'
    · exact he.trans he'.symm
    · exact absurd (har ▸ ha') (hr.unlinked e')
    · exact absurd (har' ▸ ha) (hr.unlinked e)
    · exact h.apart e e' a ha ha'

/-- Threading a loose node at its place, with the free count lowered by its size. -/
def insertNode (s : State) (d : DomainId) (r : NodeRef) (prev curr : Option NodeRef) : State :=
  (threaded s d r prev curr).modDom d fun x =>
    { x with freeCount := subWord x.freeCount (s.nodes r).totalPageCount }

section

variable (prev curr : Option NodeRef)
include prev curr

theorem insertNode_nodes (a : NodeRef) :
    (insertNode s d r prev curr).nodes a =
      { s.nodes a with
        prev := insertPrev s.pv r prev curr a, next := insertNext s.nx r prev curr a } := rfl

theorem insertNode_doms (e : DomainId) :
    (insertNode s d r prev curr).doms e =
      if e = d then { s.doms e with
        head := if prev = none then some r else (s.doms e).head
        freeCount := subWord (s.doms e).freeCount (s.nodes r).totalPageCount } else s.doms e := by
  simp only [insertNode, modDom_eq, threaded]
  by_cases he : e = d <;> by_cases hp : prev = none <;> simp [he, hp]

theorem insertNode_span (l : List NodeRef) :
    l.map (insertNode s d r prev curr).span = l.map s.span := rfl

theorem insertNode_reserved (l : List NodeRef) :
    (insertNode s d r prev curr).reserved l = s.reserved l := rfl

end

/-- **Linking a reservation.** A loose node whose range lies in the domain and
avoids its reservations is inserted without error, and the lists stay in order. -/
theorem insertNode_ok (h : VmmOk s L) (hr : Loose s L r) (hlive : (s.nodes r).isLive = true)
    (hi : (s.doms d).initialized = true) (hne : (s.nodes r).baseVpn < (s.nodes r).limitVpn)
    (hin : (s.doms d).baseVpn ≤ (s.nodes r).baseVpn ∧
      (s.nodes r).limitVpn ≤ (s.doms d).limitVpn + 1)
    (hav : Avoids ((L d).map s.span) (s.nodes r).baseVpn (s.nodes r).totalPageCount)
    (hfree : (s.nodes r).totalPageCount ≤ (s.doms d).freeCount) :
    ∃ l1 l2, L d = l1 ++ l2 ∧
      insertDomainNodeSorted s d r = (.success, threaded s d r l1.getLast? l2.head?) ∧
      VmmOk (insertNode s d r l1.getLast? l2.head?) (update L d (l1 ++ r :: l2)) := by
  obtain ⟨l1, l2, hL, hpos, hlow, hhigh⟩ :=
    insertPosition_eq s (s.nodes r).baseVpn (s.listOf d) none
  rw [h.listOf_eq] at hL
  rw [Option.or_none] at hpos
  have hasc := (h.lists d).asc
  have hdl := (h.lists d).list
  have hnotin := hr.unlinked d
  rw [hL, List.map_append] at hasc hav
  rw [hL] at hdl hnotin
  have htotal : 0 < (s.nodes r).totalPageCount := by
    rw [Node.totalPageCount]
    omega
  obtain ⟨hbelow, habove⟩ := avoids_split hasc htotal hav
    (by
      intro y hy
      obtain ⟨a, ha, rfl⟩ := List.mem_map.mp hy
      exact hlow a ha)
    (by
      intro y hy
      rw [List.head?_map, Option.map_eq_some_iff] at hy
      obtain ⟨a, ha, rfl⟩ := hy
      exact hhigh a ha)
  refine ⟨l1, l2, hL, ?_, ?_⟩
  · refine insertDomainNodeSorted_eq hpos (fun c hc => ?_) (fun hp => ?_) (fun hc => ?_)
    · have := habove (s.span c) (List.mem_map_of_mem (List.mem_of_head? hc))
      simp only [State.span] at this
      omega
    · exact hnotin (List.mem_append_left _ (List.mem_of_getLast? hp))
    · exact hnotin (List.mem_append_right _ (List.mem_of_head? hc))
  · have hself := insertNode_doms (s := s) (d := d) (r := r) l1.getLast? l2.head? d
    rw [if_pos rfl] at hself
    have hlt := (h.counts d).freeCount_lt hi
    refine h.update ((h.nodes.insert hr hlive hL).congr rfl rfl rfl fun _ _ _ => rfl)
      (fun e he => ?_) (fun e he a ha => ?_) ⟨?_, ?_, fun a ha => ?_⟩
      ((h.counts d).update hi (by rw [hself]; rfl) ?_)
    · rw [insertNode_doms, if_neg he]
    · -- links of other lists are not written
      have h1 : a ≠ r := fun har => hr.unlinked e (har ▸ ha)
      have hout : a ∉ l1 ++ l2 := fun hmem => he (h.nodes.apart e d a ha (hL ▸ hmem))
      have h2 : l1.getLast? ≠ some a := fun hp =>
        hout (List.mem_append_left _ (List.mem_of_getLast? hp))
      have h3 : l2.head? ≠ some a := fun hc =>
        hout (List.mem_append_right _ (List.mem_of_head? hc))
      simp [insertNode_nodes, Node.core, insertPrev, insertNext, h1, h2, h3, State.pv, State.nx]
    · rw [hself]
      exact hdl.insert hnotin
    · rw [insertNode_span, List.map_append, List.map_cons]
      refine hasc.insert hne hbelow fun y hy => ?_
      have := habove y hy
      simp only [Node.totalPageCount] at this
      simp only [State.span]
      omega
    · rw [hself, insertNode_nodes]
      rcases List.mem_append.mp ha with ha | ha
      · exact (h.lists d).inside a (hL ▸ List.mem_append_left _ ha)
      · rcases List.mem_cons.mp ha with rfl | ha
        · exact hin
        · exact (h.lists d).inside a (hL ▸ List.mem_append_right _ ha)
    · rw [hself, insertNode_reserved, hL, reserved_append, reserved_append, reserved_cons,
        subWord_eq (by omega) hfree]
      dsimp only
      omega

/-! ## Removal -/

/-- The removal is one change of links. -/
theorem removeDomainNode_eq (s : State) (d : DomainId) (r : NodeRef) :
    removeDomainNode s d r =
      { s with
        nodes := fun a => { s.nodes a with
          prev := removePrev s.nx s.pv r a, next := removeNext s.nx s.pv r a }
        doms := fun e => if e = d ∧ s.pv r = none ∧ (s.doms d).head = some r then
          { s.doms e with head := s.nx r } else s.doms e } := by
  unfold removeDomainNode
  simp only [modNode_eq, modNode?_eq, modDom_eq, removeNext, removePrev, State.nx, State.pv]
  by_cases hhd : (s.nodes r).prev = none ∧ (s.doms d).head = some r
  · simp only [hhd, and_self, if_true, and_true, State.mk.injEq]
    funext a
    by_cases ha : a = r
    · subst ha
      by_cases hq : (s.nodes a).next = some a <;> simp [hq]
    · by_cases hq : (s.nodes r).next = some a <;> simp [ha, hq]
  · simp only [hhd, if_false, and_false, State.mk.injEq, and_true]
    funext a
    by_cases ha : a = r
    · subst ha
      by_cases hp : (s.nodes a).prev = some a <;> by_cases hq : (s.nodes a).next = some a <;>
        simp [hp, hq]
    · by_cases hp : (s.nodes r).prev = some a <;> by_cases hq : (s.nodes r).next = some a <;>
        simp [ha, hp, hq]

/-- A node taken out of its list, with the free count raised by its size. -/
def removeNode (s : State) (d : DomainId) (r : NodeRef) : State :=
  (removeDomainNode s d r).modDom d fun x =>
    { x with freeCount := (x.freeCount + (s.nodes r).totalPageCount) % wordLimit }

theorem removeNode_nodes (a : NodeRef) :
    (removeNode s d r).nodes a =
      { s.nodes a with
        prev := removePrev s.nx s.pv r a, next := removeNext s.nx s.pv r a } := by
  rw [removeNode, modDom_eq, removeDomainNode_eq]

theorem removeNode_doms (hr : s.pv r = none → (s.doms d).head = some r) (e : DomainId) :
    (removeNode s d r).doms e =
      if e = d then { s.doms e with
        head := if s.pv r = none then s.nx r else (s.doms e).head
        freeCount := ((s.doms e).freeCount + (s.nodes r).totalPageCount) % wordLimit }
      else s.doms e := by
  simp only [removeNode, modDom_eq, removeDomainNode_eq]
  by_cases he : e = d
  · by_cases hp : s.pv r = none
    · simp [he, hp, hr hp]
    · simp [he, hp]
  · simp [he]

theorem removeNode_span (l : List NodeRef) : l.map (removeNode s d r).span = l.map s.span := by
  simp [State.span, removeNode_nodes]

theorem removeNode_reserved (l : List NodeRef) : (removeNode s d r).reserved l = s.reserved l := by
  refine congrArg List.sum (List.map_congr_left fun a _ => ?_)
  simp [Node.totalPageCount, removeNode_nodes]

theorem removeNode_pool : (removeNode s d r).earlyUsed = s.earlyUsed ∧
    (removeNode s d r).freelist = s.freelist ∧ (removeNode s d r).slabs = s.slabs := by
  simp [removeNode, modDom_eq, removeDomainNode_eq]

/-- No list gains a node. -/
theorem mem_update_erase (hr : r ∈ L d) (ha : a ∈ update L d ((L d).erase r) e) : a ∈ L e := by
  rcases eq_or_ne e d with rfl | he
  · rw [update_self] at ha
    exact List.mem_of_mem_erase ha
  · rwa [update_of_ne he] at ha

/-- **Unlinking a reservation.** The lists stay in order, and the node is loose. -/
theorem removeNode_ok (h : VmmOk s L) (hr : r ∈ L d) (hi : (s.doms d).initialized = true) :
    VmmOk (removeNode s d r) (update L d ((L d).erase r)) ∧
      Loose (removeNode s d r) (update L d ((L d).erase r)) r := by
  have hdl := (h.lists d).list
  have hhead : s.pv r = none → (s.doms d).head = some r := (hdl.pv_eq_none_iff hr).mp
  have hself := removeNode_doms hhead d
  rw [if_pos rfl] at hself
  obtain ⟨hearly, hfreelist, hslabs⟩ := removeNode_pool (s := s) (d := d) (r := r)
  have hnodes : NodesOk (removeNode s d r) (update L d ((L d).erase r)) :=
    (h.nodes.mono fun e a ha => mem_update_erase hr ha).congr hearly hfreelist hslabs
      fun e a _ => by rw [removeNode_nodes]
  have hlt := (h.counts d).freeCount_lt hi
  constructor
  · refine h.update hnodes (fun e he => ?_) (fun e he a ha => ?_) ⟨?_, ?_, fun a ha => ?_⟩
      ((h.counts d).update hi (by rw [hself]; rfl) ?_)
    · rw [removeNode_doms hhead, if_neg he]
    · -- links of other lists are not written
      have hout : a ∉ L d := fun hmem => he (h.nodes.apart e d a ha hmem)
      have h1 := hdl.removeNext_of_notMem hr hout
      have h2 := hdl.removePrev_of_notMem hr hout
      simp only [removeNode_nodes, Node.core, h1, h2, State.pv, State.nx]
    · rw [hself]
      refine (hdl.erase hr).congr (fun a _ => ?_) (fun a _ => ?_)
      · simp [State.nx, removeNode_nodes]
      · simp [State.pv, removeNode_nodes]
    · rw [removeNode_span]
      exact (h.lists d).asc.sublist (List.erase_sublist.map _)
    · rw [hself, removeNode_nodes]
      exact (h.lists d).inside a (List.mem_of_mem_erase ha)
    · have hperm : s.reserved (L d) = (s.nodes r).totalPageCount + s.reserved ((L d).erase r) := by
        exact ((List.perm_cons_erase hr).map _).sum_nat
      rw [hself, removeNode_reserved]
      dsimp only
      rw [Nat.mod_eq_of_lt (a := (s.doms d).freeCount + (s.nodes r).totalPageCount) (by omega)]
      omega
  · refine ⟨(h.nodes.pool d r hr).mono hearly.symm.le (hslabs ▸ List.Subset.refl _), ?_,
      fun e ha => ?_⟩
    · rw [hfreelist]
      exact h.nodes.busy d r hr
    · rcases eq_or_ne e d with rfl | he
      · rw [update_self] at ha
        exact (hdl.nodup.not_mem_erase) ha
      · exact he (h.nodes.apart e d r (mem_update_erase hr ha) hr)

end FoliOS.Strata.Vmm
