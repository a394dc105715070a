import FoliOS.Strata.Vmm.Links

/-!
# Strata — what each VMM operation does to the reservations

One specification per operation: the lists stay in order, a successful reserve
adds one node for the range it returns, a release takes at most one out, and
every other reservation keeps its range, flags and policy.
-/

namespace FoliOS.Strata.Vmm

open Function Lib

variable {β : Type} {base limit total count guard vpn : Nat} {req : Request} {st e : StStatus}
  {fs : FrameSource}

variable {s s' : State} {L : DomainId → List NodeRef} {d : DomainId} {r : NodeRef}

theorem Node.range_of_data {n m : Node} (h : n.data = m.data) :
    n.baseVpn = m.baseVpn ∧ n.limitVpn = m.limitVpn ∧ n.isLive = m.isLive :=
  ⟨show n.data.baseVpn = m.data.baseVpn by rw [h],
    show n.data.limitVpn = m.data.limitVpn by rw [h], show n.data.isLive = m.data.isLive by rw [h]⟩

/-- Domains keep their bounds, and the nodes of `L` keep their data. -/
structure Kept (s s' : State) (L : DomainId → List NodeRef) : Prop where
  doms : ∀ e, (s'.doms e).shape = (s.doms e).shape
  data : ∀ e, ∀ a ∈ L e, (s'.nodes a).data = (s.nodes a).data

theorem Kept.refl (s : State) (L : DomainId → List NodeRef) : Kept s s L :=
  ⟨fun _ => rfl, fun _ _ _ => rfl⟩

theorem Kept.trans {s'' : State} (h : Kept s s' L) (h' : Kept s' s'' L) : Kept s s'' L :=
  ⟨fun e => (h'.doms e).trans (h.doms e), fun e a ha => (h'.data e a ha).trans (h.data e a ha)⟩

/-- Nodes on a list keep their range. -/
theorem Kept.span {a : NodeRef} (h : Kept s s' L) (ha : a ∈ L d) : s'.span a = s.span a := by
  have hrange := Node.range_of_data (h.data d a ha)
  exact Prod.ext hrange.1 hrange.2.1

theorem Quiet.kept (h : Quiet s s' L) : Kept s s' L :=
  ⟨fun e => by rw [h.doms], fun e a ha => by rw [h.nodes e a ha]⟩

theorem SameUpTo.data (h : SameUpTo Node.disowned s s') (a : NodeRef) :
    (s'.nodes a).data = (s.nodes a).data := by
  obtain ⟨n, o, rfl, hn⟩ := h
  simp only [Node.data, hn a]

theorem SameUpTo.kept (h : SameUpTo Node.disowned s s') : Kept s s' L :=
  ⟨fun e => by rw [h.doms], fun _ a _ => h.data a⟩

/-- A loose node stays loose. -/
theorem Loose.same (h : Loose s L r) {π : Node → β} (hs : SameUpTo π s s') : Loose s' L r := by
  obtain ⟨n, o, rfl, hn⟩ := hs
  exact ⟨h.pool.mono le_rfl (List.Subset.refl _), h.busy, h.unlinked⟩

/-! ## Reserving -/

/-- A reservation of `[base, limit)` for `req` was added to the list of `d`. -/
structure Added (s s' : State) (L : DomainId → List NodeRef) (d : DomainId) (base limit : Nat)
    (req : Request) (r : NodeRef) (l₁ l₂ : List NodeRef) : Prop where
  split  : L d = l₁ ++ l₂
  ok     : VmmOk s' (update L d (l₁ ++ r :: l₂))
  fresh  : ∀ e, r ∉ L e
  data   : (s'.nodes r).data = (newNode d base limit req).data
  kept   : Kept s s' L

/-- The new node's fields, apart from its links and its owner, are those of the request. -/
theorem Added.field {l1 l2 : List NodeRef} (h : Added s s' L d base limit req r l1 l2) {α : Type}
    (f : Node → α) (hf : ∀ n : Node, f n.data = f n) :
    f (s'.nodes r) = f (newNode d base limit req) := by
  rw [← hf (s'.nodes r), h.data, hf]

/-- An operation that failed and changed no reservation. -/
structure Failed (s s' : State) (L : DomainId → List NodeRef) (st : StStatus) : Prop where
  status : checkSuccess st = false
  ok     : VmmOk s' L
  kept   : Kept s s' L

/-- A failure that changed nothing. -/
theorem VmmOk.failed (h : VmmOk s L) (hst : checkSuccess st = false) : Failed s s L st :=
  ⟨hst, h, .refl s L⟩

theorem attachOwnerNode_status (s : State) (r : NodeRef) (o : Option Nat) :
    (attachOwnerNode s r o).1 = .success ∨ (attachOwnerNode s r o).1 = .conflictingState := by
  unfold attachOwnerNode
  cases o with
  | none => exact .inl rfl
  | some o =>
    dsimp only
    split
    · exact .inr rfl
    · exact .inl rfl

theorem insertNode_kept (prev curr : Option NodeRef) : Kept s (insertNode s d r prev curr) L := by
  refine ⟨fun e => ?_, fun _ _ _ => rfl⟩
  rw [insertNode_doms]
  split <;> rfl

/-- The ways `linkReservation` can go. -/
inductive Linked (fs : FrameSource) (s : State) (d : DomainId) (base limit total : Nat)
  (req : Request) :
    StStatus → State → Prop where
  | starved {e : StStatus} {s₁ : State} (hcreate : createReservationNode fs s = (.error e, s₁)) :
      Linked fs s d base limit total req e s₁
  | refused {r : NodeRef} {s₁ s₂ : State} {st : StStatus}
      (hcreate : createReservationNode fs s = (.ok r, s₁))
      (hattach : attachOwnerNode (s₁.modNode r fun _ => newNode d base limit req) r req.owner =
        (st, s₂))
      (hst : st ≠ .success) : Linked fs s d base limit total req st (releaseReservationNode s₂ r)
  | taken {r : NodeRef} {s₁ s₂ s₃ : State} {st : StStatus}
      (hcreate : createReservationNode fs s = (.ok r, s₁))
      (hattach : attachOwnerNode (s₁.modNode r fun _ => newNode d base limit req) r req.owner =
        (.success, s₂))
      (hinsert : insertDomainNodeSorted s₂ d r = (st, s₃)) (hst : st ≠ .success) :
      Linked fs s d base limit total req st (releaseReservationNode (detachOwnerNode s₃ r) r)
  | linked {r : NodeRef} {s₁ s₂ s₃ : State} (hcreate : createReservationNode fs s = (.ok r, s₁))
      (hattach : attachOwnerNode (s₁.modNode r fun _ => newNode d base limit req) r req.owner =
        (.success, s₂))
      (hinsert : insertDomainNodeSorted s₂ d r = (.success, s₃)) :
      Linked fs s d base limit total req .success
        (s₃.modDom d fun x => { x with freeCount := subWord x.freeCount total })

/-- Linking a new node, case by case. -/
theorem linkReservation_linked (fs : FrameSource) (s : State) (d : DomainId)
    (base limit total : Nat) (req : Request) :
    Linked fs s d base limit total req (linkReservation fs s d base limit total req).1
      (linkReservation fs s d base limit total req).2 := by
  unfold linkReservation
  cases hcreate : createReservationNode fs s with
  | mk out s1 =>
    cases out with
    | error e => exact .starved hcreate
    | ok r =>
      dsimp only
      cases hattach :
        attachOwnerNode (s1.modNode r fun _ => newNode d base limit req) r req.owner with
      | mk st s2 =>
        by_cases hst : st = .success
        · subst hst
          dsimp only
          cases hinsert : insertDomainNodeSorted s2 d r with
          | mk st s3 =>
            by_cases hst : st = .success
            · subst hst
              exact .linked hcreate hattach hinsert
            · have htaken : Linked fs s d base limit total req st _ :=
                .taken hcreate hattach hinsert hst
              cases st <;> first | exact absurd rfl hst | exact htaken
        · have hrefused : Linked fs s d base limit total req st _ := .refused hcreate hattach hst
          cases st <;> first | exact absurd rfl hst | exact hrefused

/-- The new node filled in and charged. -/
theorem attachNew_ok {s1 s2 : State} (h : VmmOk s L)
    (hcreate : createReservationNode fs s = (.ok r, s1))
    (hattach : attachOwnerNode (s1.modNode r fun _ => newNode d base limit req) r req.owner =
      (st, s2)) :
    VmmOk s2 L ∧ Loose s2 L r ∧ Kept s s2 L ∧ s2.doms = s.doms ∧
      (s2.nodes r).data = (newNode d base limit req).data := by
  have hcreated := createReservationNode_ok h fs
  rw [hcreate] at hcreated
  obtain ⟨hok, hquiet, hloose⟩ := hcreated
  have hfill : Quiet s (s1.modNode r fun _ => newNode d base limit req) L :=
    hquiet.trans (.modUnlinked hloose.unlinked _)
  have hsame := attachOwnerNode_same (s1.modNode r fun _ => newNode d base limit req) r req.owner
  have hnode :
      (s1.modNode r fun _ => newNode d base limit req).nodes r = newNode d base limit req := by
    simp [modNode_eq]
  have hblank : SameUpTo (fun _ => ()) s1 (s1.modNode r fun _ => newNode d base limit req) :=
    (SameUpTo.refl s1).modNode (by intro _; rfl) r
  rw [hattach] at hsame
  refine ⟨(hok.modUnlinked hloose.unlinked _).sameLists hsame.core, (hloose.same hblank).same hsame,
    hfill.kept.trans hsame.kept, hsame.doms.trans hfill.doms, ?_⟩
  rw [hsame.data r, hnode]

/-- **Reserving a free range.** Creating, charging and linking the node for a
range that avoids the domain's reservations adds exactly that reservation. -/
theorem Linked.ok (hlink : Linked fs s d base limit total req st s') (h : VmmOk s L)
    (hi : (s.doms d).initialized = true) (hne : base < limit) (htotal : total = limit - base)
    (hin : (s.doms d).baseVpn ≤ base ∧ limit ≤ (s.doms d).limitVpn + 1)
    (hav : Avoids ((L d).map s.span) base total) (hfree : total ≤ (s.doms d).freeCount) :
    (st = .success ∧ ∃ r l1 l2, Added s s' L d base limit req r l1 l2) ∨ Failed s s' L st := by
  -- the node that was filled in is inserted at its place
  have hinserted : ∀ {r s1 s2}, createReservationNode fs s = (.ok r, s1) →
      attachOwnerNode (s1.modNode r fun _ => newNode d base limit req) r req.owner =
        (.success, s2) →
      ∃ l1 l2, insertDomainNodeSorted s2 d r = (.success, threaded s2 d r l1.getLast? l2.head?) ∧
        Added s (insertNode s2 d r l1.getLast? l2.head?) L d base limit req r l1 l2 ∧
        (s2.nodes r).totalPageCount = total := by
    intro r s1 s2 hcreate hattach
    obtain ⟨hok, hloose, hkept, hdoms, hdata⟩ := attachNew_ok h hcreate hattach
    obtain ⟨hb, hlm, hlv⟩ : (s2.nodes r).baseVpn = base ∧ (s2.nodes r).limitVpn = limit ∧
        (s2.nodes r).isLive = true := Node.range_of_data hdata
    have hspans : (L d).map s2.span = (L d).map s.span :=
      List.map_congr_left fun a ha => hkept.span ha
    have hpages : (s2.nodes r).totalPageCount = total := by
      rw [Node.totalPageCount, hb, hlm, htotal]
    obtain ⟨l1, l2, hL, hins, hok'⟩ := insertNode_ok (d := d) hok hloose hlv
      (by rw [hdoms]; exact hi) (by rw [hb, hlm]; exact hne)
      (by rw [hdoms, hb, hlm]; exact hin) (by rw [hspans, hb, hpages]; exact hav)
      (by rw [hdoms, hpages]; exact hfree)
    exact ⟨l1, l2, hins, ⟨hL, hok', hloose.unlinked, hdata, hkept.trans (insertNode_kept _ _)⟩,
      hpages⟩
  cases hlink with
  | starved hcreate =>
    have hcreated := createReservationNode_ok h fs
    rw [hcreate] at hcreated
    exact .inr ⟨hcreated.2.2, hcreated.1, hcreated.2.1.kept⟩
  | @refused r s1 s2 st hcreate hattach hst =>
    obtain ⟨hok, hloose, hkept, -, -⟩ := attachNew_ok h hcreate hattach
    obtain ⟨hok', hquiet⟩ := releaseReservationNode_ok hok hloose
    refine .inr ⟨?_, hok', hkept.trans hquiet.kept⟩
    have hstatus :=
      attachOwnerNode_status (s1.modNode r fun _ => newNode d base limit req) r req.owner
    rw [hattach] at hstatus
    exact congrArg checkSuccess (hstatus.resolve_left hst)
  | @taken r s1 s2 s3 st hcreate hattach hinsert hst =>
    obtain ⟨l1, l2, hins, -⟩ := hinserted hcreate hattach
    rw [hins] at hinsert
    exact absurd (Prod.mk.inj hinsert).1.symm hst
  | @linked r s1 s2 s3 hcreate hattach hinsert =>
    obtain ⟨l1, l2, hins, hadd, hpages⟩ := hinserted hcreate hattach
    rw [hins] at hinsert
    cases hinsert
    refine .inl ⟨rfl, r, l1, l2, ?_⟩
    rw [← hpages]
    exact hadd

/-- No overlap is found only if there is none. -/
theorem overlapLoop_none : ∀ {l : List NodeRef}, Ascending (l.map s.span) →
    overlapLoop s base limit l = none →
    ∀ a ∈ l, (s.nodes a).limitVpn ≤ base ∨ limit ≤ (s.nodes a).baseVpn := by
  intro l
  induction l with
  | nil => intro _ _ a ha; simp at ha
  | cons b l ih =>
    intro hasc h a ha
    have hne : (s.nodes b).baseVpn < (s.nodes b).limitVpn := hasc.2 _ List.mem_cons_self
    rw [overlapLoop] at h
    split at h
    · -- this range and all later ones start past the limit
      rcases List.mem_cons.mp ha with rfl | ha
      · exact .inr (by omega)
      · have : (s.nodes b).limitVpn ≤ (s.nodes a).baseVpn :=
          hasc.head_le (s.span a) (List.mem_map_of_mem ha)
        exact .inr (by omega)
    · split at h
      · simp at h
      · rcases List.mem_cons.mp ha with rfl | ha
        · exact .inl (by omega)
        · exact ih hasc.tail h a ha

/-- What is found overlaps. -/
theorem overlapLoop_some {l : List NodeRef} (h : overlapLoop s base limit l = some r) :
    r ∈ l ∧ base < (s.nodes r).limitVpn ∧ (s.nodes r).baseVpn < limit := by
  induction l with
  | nil => simp [overlapLoop] at h
  | cons b l ih =>
    rw [overlapLoop] at h
    split at h
    · simp at h
    · split at h
      · rename_i hov
        cases h
        exact ⟨List.mem_cons_self, hov⟩
      · exact ⟨List.mem_cons_of_mem _ (ih h).1, (ih h).2⟩

/-- The range did not wrap. -/
theorem makeLimitExclusive_ok (h : makeLimitExclusive base count = .ok limit) :
    0 < count ∧ limit = (base + count) % wordLimit ∧ base ≤ limit := by
  unfold makeLimitExclusive at h
  split at h
  · simp at h
  · dsimp only at h
    split at h
    · simp at h
    · cases h
      exact ⟨by omega, rfl, by omega⟩

theorem makeLimitExclusive_of_lt (hcount : 0 < count) (hlt : base + count < wordLimit) :
    makeLimitExclusive base count = .ok (base + count) := by
  rw [makeLimitExclusive, if_neg (by omega), Nat.mod_eq_of_lt hlt]
  exact if_neg (by omega)

/-- A limit that does not wrap is the sum. -/
theorem makeLimitExclusive_eq (hbase : base < wordLimit) (hcount : count < wordLimit)
    (h : makeLimitExclusive base count = .ok limit) : limit = base + count := by
  obtain ⟨h0, hlim, hle⟩ := makeLimitExclusive_ok h
  by_cases hlt : base + count < wordLimit
  · rwa [Nat.mod_eq_of_lt hlt] at hlim
  · rw [Nat.mod_eq_sub_mod (by omega), Nat.mod_eq_of_lt (by omega)] at hlim
    omega

/-- The sum did not wrap. -/
theorem makeGuardedCount_ok (h : makeGuardedCount count guard = .ok total) :
    total = count + guard ∧ 0 < count ∧ (count < wordLimit → total < wordLimit) := by
  unfold makeGuardedCount at h
  split at h
  · simp at h
  · split at h
    · simp at h
    · rw [Except.ok.injEq] at h
      omega

/-- What a reserve operation for `count` usable pages did: it failed, or it added the
reservation of the pages from `vpn` on with its guard below, all of them unmapped. No operation
reserves no pages. -/
def Reserves (unmapped : Nat → Bool) (s : State) (L : DomainId → List NodeRef) (d : DomainId)
    (vpn count : Nat) (req : Request) (st : StStatus) (s' : State) : Prop :=
  (st = .success ∧ 0 < count ∧ ∃ base r l₁ l₂,
    vpn = base + guardPageCountFromMapFlags req.mapFlags ∧
    isRangeUnmapped unmapped base (count + guardPageCountFromMapFlags req.mapFlags) = true ∧
    Added s s' L d base (vpn + count) req r l₁ l₂) ∨
  Failed s s' L st

/-- A domain has a list the searches can use. -/
theorem VmmOk.validList (h : VmmOk s L) (d : DomainId) :
    ValidList (s.spans d) (s.doms d).baseVpn (s.doms d).limitVpn := by
  rw [h.spans_eq]
  refine ⟨(h.lists d).asc, fun x hx => ?_⟩
  obtain ⟨a, ha, rfl⟩ := List.mem_map.mp hx
  exact (h.lists d).inside a ha

/-- A reserve that fails changes nothing; or it goes on to link a node where the search ended. -/
theorem reservePage_cases (h : VmmOk s L) (fs : FrameSource) (unmapped : Nat → Bool) (d : DomainId)
    (total : Nat) (req : Request) :
    (∃ e, checkSuccess e = false ∧ reservePage fs unmapped s d total req = (e, 0, s)) ∨
      ∃ stop base st s', makeDomainLimitExclusive (s.doms d).limitVpn = .ok stop ∧
        total ≤ (s.doms d).freeCount ∧
        searchLoop (s.spans d) (s.doms d).baseVpn (s.doms d).limitVpn total
          (hasFlag req.allocFlags afVmmAllocTopdown) unmapped ((s.doms d).limitVpn + 2)
          (s.doms d).baseVpn stop = some (.ok base) ∧
        Linked fs s d base (base + total) total req st s' ∧
        reservePage fs unmapped s d total req =
          (st, if st = .success then base + guardPageCountFromMapFlags req.mapFlags else 0,
            s') := by
  unfold reservePage
  dsimp only
  cases hlim : makeDomainLimitExclusive (s.doms d).limitVpn with
  | error e => exact .inl ⟨e, makeDomainLimitExclusive_error hlim, rfl⟩
  | ok stop =>
    dsimp only
    split
    · exact .inl ⟨_, rfl, rfl⟩
    next hfree =>
    split
    · exact .inl ⟨_, rfl, rfl⟩
    split
    · exact .inl ⟨_, rfl, rfl⟩
    next e hsearch =>
      have hl := h.validList d
      exact .inl ⟨e, (searchLoop_ok hl.ascending (fun x hx => (hl.inside x hx).2) hsearch).2 e rfl,
        rfl⟩
    next base hsearch =>
      have hlink := linkReservation_linked fs s d base (base + total) total req
      generalize linkReservation fs s d base (base + total) total req = res at hlink
      obtain ⟨st, s'⟩ := res
      refine .inr ⟨stop, base, st, s', rfl, not_lt.mp hfree, hsearch, hlink, ?_⟩
      cases st <;> rfl

/-- **Reserving at a place that is searched for.** -/
theorem reservePage_ok (h : VmmOk s L) (fs : FrameSource) (unmapped : Nat → Bool) (req : Request)
    (hi : (s.doms d).initialized = true) (hcount : 0 < count) :
    ∃ st vpn s',
      reservePage fs unmapped s d (count + guardPageCountFromMapFlags req.mapFlags) req =
        (st, vpn, s') ∧ Reserves unmapped s L d vpn count req st s' := by
  rcases reservePage_cases h fs unmapped d
      (count + guardPageCountFromMapFlags req.mapFlags) req with
    ⟨e, he, heq⟩ | ⟨stop, base, st, s', -, hfree, hsearch, hlink, heq⟩
  · exact ⟨_, _, _, heq, .inr (h.failed he)⟩
  refine ⟨_, _, _, heq, ?_⟩
  have hl := h.validList d
  obtain ⟨⟨h1, h2, h3⟩, h4⟩ :=
    (searchLoop_ok hl.ascending (fun x hx => (hl.inside x hx).2) hsearch).1 base rfl
  rw [h.spans_eq] at h3
  rcases hlink.ok h hi (by omega) (by omega) ⟨h1, h2⟩ h3 hfree with ⟨rfl, r, l1, l2, hadd⟩ | hfail
  · refine .inl ⟨rfl, hcount, base, r, l1, l2, rfl, h4, ?_⟩
    rw [if_pos rfl, Nat.add_assoc, Nat.add_comm (guardPageCountFromMapFlags _) count]
    exact hadd
  · exact .inr hfail

theorem validateGuardMapFlags_cases (mf : MapFlags) (allow : Bool) :
    validateGuardMapFlags mf allow = .success ∨ validateGuardMapFlags mf allow = .invalidValue := by
  unfold validateGuardMapFlags
  split_ifs <;> simp

theorem makeGuardedCount_error (h : makeGuardedCount count guard = .error e) :
    checkSuccess e = false ∧ e ≠ .insufficientMemory := by
  unfold makeGuardedCount at h
  split_ifs at h <;> rw [Except.error.injEq] at h <;> exact h ▸ by decide

theorem makeLimitExclusive_error (h : makeLimitExclusive base count = .error e) :
    checkSuccess e = false := by
  unfold makeLimitExclusive at h
  split at h
  · cases h
    rfl
  · dsimp only at h
    split at h
    · cases h
      rfl
    · simp at h

/-- The range of a reservation whose usable part is `count` pages from `vpn` on. -/
theorem makeNodeRangeFromUsable_cases (hvpn : vpn < wordLimit) (hcount : count < wordLimit)
    (guard : Nat) :
    (∃ e, makeNodeRangeFromUsable vpn count guard = .error e ∧ checkSuccess e = false) ∨
      ∃ base limit total, makeNodeRangeFromUsable vpn count guard = .ok (base, limit, total) ∧
        vpn = base + guard ∧ limit = vpn + count ∧ total = count + guard ∧ 0 < count ∧
        makeLimitExclusive base total = .ok limit := by
  unfold makeNodeRangeFromUsable
  cases hg : makeGuardedCount count guard with
  | error e => exact .inl ⟨e, rfl, (makeGuardedCount_error hg).1⟩
  | ok total =>
    obtain ⟨htotal, h0, hlt⟩ := makeGuardedCount_ok hg
    dsimp only
    split
    · exact .inl ⟨_, rfl, rfl⟩
    · cases hlim : makeLimitExclusive (vpn - guard) total with
      | error e => exact .inl ⟨e, rfl, makeLimitExclusive_error hlim⟩
      | ok limit =>
        have hm := makeLimitExclusive_eq (by omega) (hlt hcount) hlim
        exact .inr ⟨_, _, _, rfl, by omega, by omega, htotal, h0, hlim⟩

/-- **Reserving at a given place.** -/
theorem reservePageTo_ok (h : VmmOk s L) (fs : FrameSource) (unmapped : Nat → Bool) (req : Request)
    (hi : (s.doms d).initialized = true)
    (hr : vpn = base + guardPageCountFromMapFlags req.mapFlags ∧ limit = vpn + count ∧
      total = count + guardPageCountFromMapFlags req.mapFlags ∧ 0 < count ∧
      makeLimitExclusive base total = .ok limit) :
    ∃ st s', reservePageTo fs unmapped s d base limit total req = (st, s') ∧
      Reserves unmapped s L d vpn count req st s' := by
  obtain ⟨hvpn, hlimit, htotal, hcount, hexcl⟩ := hr
  unfold reservePageTo
  dsimp only
  split
  · exact ⟨_, _, rfl, .inr (h.failed rfl)⟩
  · split
    · exact ⟨_, _, rfl, .inr (h.failed rfl)⟩
    · rw [if_neg (by rw [h.validate d]; simp)]
      split
      · exact ⟨_, _, rfl, .inr (h.failed rfl)⟩
      · rename_i hov
        split
        · exact ⟨_, _, rfl, .inr (h.failed rfl)⟩
        · rename_i hun
          have hav : Avoids ((L d).map s.span) base total := by
            simp only [findOverlap, hexcl, h.listOf_eq, Option.not_isSome_iff_eq_none] at hov
            intro x hx
            obtain ⟨a, ha, rfl⟩ := List.mem_map.mp hx
            have := overlapLoop_none (h.lists d).asc hov a ha
            simp only [State.span]
            omega
          refine ⟨_, _, rfl, ?_⟩
          rcases (linkReservation_linked fs s d base limit total req).ok h hi (by omega) (by omega)
            (by omega) hav (by omega) with ⟨hst, r, l1, l2, hadd⟩ | hfail
          · exact .inl
              ⟨hst, hcount, base, r, l1, l2, hvpn, by simpa [htotal] using hun, hlimit ▸ hadd⟩
          · exact .inr hfail

section Arguments

variable (fs : FrameSource) (unmapped : Nat → Bool) (s : State) (g : GlobalDomain)
  (asp count : Nat) (owner : Option Nat) (af : AllocFlags) (mf : MapFlags)

/-- The arguments are refused, or there are pages to search room for. -/
theorem stVmmReserveGlobalPage_cases :
    (∃ e, (checkSuccess e = false ∧ e ≠ .insufficientMemory) ∧
        stVmmReserveGlobalPage fs unmapped s g count owner af mf = (e, 0, s)) ∨
      0 < count ∧ (s.doms (.global g)).initialized = true ∧
        stVmmReserveGlobalPage fs unmapped s g count owner af mf =
          reservePage fs unmapped s (.global g) (count + guardPageCountFromMapFlags mf)
            ⟨owner, af, mf, .physical⟩ := by
  unfold stVmmReserveGlobalPage
  rcases validateGuardMapFlags_cases mf false with hv | hv <;> rw [hv] <;> dsimp only
  · cases hg : makeGuardedCount count (guardPageCountFromMapFlags mf) with
    | error e => exact .inl ⟨e, makeGuardedCount_error hg, rfl⟩
    | ok total =>
      obtain ⟨rfl, hcount, -⟩ := makeGuardedCount_ok hg
      dsimp only
      split
      · exact .inl ⟨_, by decide, rfl⟩
      next hi => exact .inr ⟨hcount, by simpa using hi, rfl⟩
  · exact .inl ⟨_, by decide, rfl⟩

theorem stVmmReserveLocalPage_cases :
    (∃ e, (checkSuccess e = false ∧ e ≠ .insufficientMemory) ∧
        stVmmReserveLocalPage fs unmapped s asp count af mf = (e, 0, s)) ∨
      0 < count ∧ (s.doms (.local asp)).initialized = true ∧
        stVmmReserveLocalPage fs unmapped s asp count af mf =
          reservePage fs unmapped s (.local asp) (count + guardPageCountFromMapFlags mf)
            ⟨(s.doms (.local asp)).owner, af, mf, localPageMappingPolicyFromFlags af mf⟩ := by
  unfold stVmmReserveLocalPage
  split
  · exact .inl ⟨_, by decide, rfl⟩
  next hi =>
    rcases validateGuardMapFlags_cases mf true with hv | hv <;> rw [hv] <;> dsimp only
    · cases hg : makeGuardedCount count (guardPageCountFromMapFlags mf) with
      | error e => exact .inl ⟨e, makeGuardedCount_error hg, rfl⟩
      | ok total =>
        obtain ⟨rfl, hcount, -⟩ := makeGuardedCount_ok hg
        exact .inr ⟨hcount, by simpa using hi, rfl⟩
    · exact .inl ⟨_, by decide, rfl⟩

end Arguments

section Reserved

variable (h : VmmOk s L) (fs : FrameSource) (unmapped : Nat → Bool) (g : GlobalDomain) (asp : Nat)
include h

theorem stVmmReserveGlobalPage_ok (count : Nat) (owner : Option Nat) (af : AllocFlags)
    (mf : MapFlags) :
    ∃ st vpn s', stVmmReserveGlobalPage fs unmapped s g count owner af mf = (st, vpn, s') ∧
      Reserves unmapped s L (.global g) vpn count ⟨owner, af, mf, .physical⟩ st s' := by
  rcases stVmmReserveGlobalPage_cases fs unmapped s g count owner af mf with
    ⟨e, he, heq⟩ | ⟨hcount, hi, heq⟩ <;> rw [heq]
  · exact ⟨_, _, _, rfl, .inr (h.failed he.1)⟩
  · exact reservePage_ok h fs unmapped ⟨owner, af, mf, .physical⟩ hi hcount

theorem stVmmReserveLocalPage_ok (count : Nat) (af : AllocFlags) (mf : MapFlags) :
    ∃ st vpn s', stVmmReserveLocalPage fs unmapped s asp count af mf = (st, vpn, s') ∧
      Reserves unmapped s L (.local asp) vpn count
        ⟨(s.doms (.local asp)).owner, af, mf, localPageMappingPolicyFromFlags af mf⟩ st s' := by
  rcases stVmmReserveLocalPage_cases fs unmapped s asp count af mf with
    ⟨e, he, heq⟩ | ⟨hcount, hi, heq⟩ <;> rw [heq]
  · exact ⟨_, _, _, rfl, .inr (h.failed he.1)⟩
  · exact reservePage_ok h fs unmapped ⟨_, af, mf, localPageMappingPolicyFromFlags af mf⟩ hi hcount

variable (hvpn : vpn < wordLimit) (hcount : count < wordLimit)
include hvpn hcount

theorem stVmmReserveGlobalPageTo_ok (owner : Option Nat) (af : AllocFlags) (mf : MapFlags) :
    ∃ st s', stVmmReserveGlobalPageTo fs unmapped s g vpn count owner af mf = (st, s') ∧
      Reserves unmapped s L (.global g) vpn count ⟨owner, af, mf, .physical⟩ st s' := by
  unfold stVmmReserveGlobalPageTo
  rcases validateGuardMapFlags_cases mf false with hv | hv <;> rw [hv] <;> dsimp only
  · rcases makeNodeRangeFromUsable_cases hvpn hcount (guardPageCountFromMapFlags mf) with
      ⟨e, hr, he⟩ | ⟨base, limit, total, hr, hrange⟩ <;> rw [hr] <;> dsimp only
    · exact ⟨_, _, rfl, .inr (h.failed he)⟩
    · split
      · exact ⟨_, _, rfl, .inr (h.failed rfl)⟩
      next hi => exact reservePageTo_ok h fs unmapped _ (by simpa using hi) hrange
  · exact ⟨_, _, rfl, .inr (h.failed rfl)⟩

theorem reserveLocalPageToWithPolicy_ok (af : AllocFlags) (mf : MapFlags)
    (policy : MappingPolicy) :
    ∃ st s', reserveLocalPageToWithPolicy fs unmapped s asp vpn count af mf policy = (st, s') ∧
      Reserves unmapped s L (.local asp) vpn count ⟨(s.doms (.local asp)).owner, af, mf, policy⟩
        st s' := by
  unfold reserveLocalPageToWithPolicy
  split
  · exact ⟨_, _, rfl, .inr (h.failed rfl)⟩
  next hi =>
    rcases validateGuardMapFlags_cases mf true with hv | hv <;> rw [hv] <;> dsimp only
    · rcases makeNodeRangeFromUsable_cases hvpn hcount (guardPageCountFromMapFlags mf) with
        ⟨e, hr, he⟩ | ⟨base, limit, total, hr, hrange⟩ <;> rw [hr] <;> dsimp only
      · exact ⟨_, _, rfl, .inr (h.failed he)⟩
      · exact reservePageTo_ok h fs unmapped _ (by simpa using hi) hrange
    · exact ⟨_, _, rfl, .inr (h.failed rfl)⟩

theorem stVmmReserveLocalImagePageTo_ok (backing : ImageBacking) (af : AllocFlags)
    (mf : MapFlags) :
    ∃ st s', stVmmReserveLocalImagePageTo fs unmapped s asp vpn count backing af mf = (st, s') ∧
      Reserves unmapped s L (.local asp) vpn count
        ⟨(s.doms (.local asp)).owner, af, mf, .image backing⟩ st s' := by
  unfold stVmmReserveLocalImagePageTo
  split_ifs
  · exact ⟨_, _, rfl, .inr (h.failed rfl)⟩
  · exact ⟨_, _, rfl, .inr (h.failed rfl)⟩
  · exact reserveLocalPageToWithPolicy_ok h fs unmapped asp hvpn hcount af mf _

end Reserved

/-! ## Releasing -/

/-- A releasable node has the range, up to its guard. -/
theorem releasableLoop_some {l : List NodeRef} (h : releasableLoop s vpn limit l = some r) :
    r ∈ l ∧ (s.nodes r).limitVpn = limit ∧
      ((s.nodes r).baseVpn = vpn ∨ (s.nodes r).usableBaseVpn = vpn) := by
  induction l with
  | nil => simp [releasableLoop] at h
  | cons a l ih =>
    simp only [releasableLoop] at h
    split at h
    · rename_i hfull
      cases h
      exact ⟨List.mem_cons_self, hfull.2, .inl hfull.1⟩
    · split at h
      · rename_i husable
        cases h
        exact ⟨List.mem_cons_self, husable.2, .inr husable.1⟩
      · split at h
        · simp at h
        · exact ⟨List.mem_cons_of_mem _ (ih h).1, (ih h).2⟩

/-- A reservation that ends with the range, and starts with it or its usable part does, is the one
that is found. -/
theorem releasableLoop_eq (hlimit : (s.nodes r).limitVpn = limit)
    (hvpn : (s.nodes r).baseVpn = vpn ∨ (s.nodes r).usableBaseVpn = vpn) {l : List NodeRef}
    (hasc : Ascending (l.map s.span)) (hr : r ∈ l) : releasableLoop s vpn limit l = some r := by
  induction l with
  | nil => cases hr
  | cons a l ih =>
    rw [releasableLoop]
    rcases eq_or_ne a r with rfl | hne
    · rcases hvpn with hbase | husable
      · exact if_pos ⟨hbase, hlimit⟩
      · split
        · rfl
        · exact if_pos ⟨husable, hlimit⟩
    · obtain ⟨hpair, hpos⟩ := hasc
      rw [List.map_cons, List.pairwise_cons] at hpair
      have hmem : r ∈ l := (List.mem_cons.mp hr).resolve_left hne.symm
      have hbelow : (s.nodes a).limitVpn ≤ (s.nodes r).baseVpn :=
        hpair.1 (s.span r) (List.mem_map_of_mem hmem)
      have ha : (s.nodes a).baseVpn < (s.nodes a).limitVpn := hpos (s.span a) (by simp)
      have hr' : (s.nodes r).baseVpn < (s.nodes r).limitVpn :=
        hpos (s.span r) (List.mem_map_of_mem hr)
      have hle : (s.nodes r).baseVpn ≤ vpn := by
        rcases hvpn with hbase | husable
        · exact hbase.le
        · exact (Nat.le_add_right _ _).trans husable.le
      rw [if_neg (by omega), if_neg (by omega), if_neg (by omega)]
      exact ih ⟨hpair.2, fun x hx => hpos x (by simp [hx])⟩ hmem

theorem releaseReservationNode_modDom (s : State) (d : DomainId) (r : NodeRef)
    (f : Domain → Domain) :
    (releaseReservationNode s r).modDom d f = releaseReservationNode (s.modDom d f) r := by
  unfold releaseReservationNode
  have hdyn : isNodeInDynamicPool ((s.modDom d f).modNode r fun n => { n with isLive := false }) r =
      isNodeInDynamicPool (s.modNode r fun n => { n with isLive := false }) r := by
    cases r <;> rfl
  dsimp only
  rw [hdyn]
  split <;> rfl

theorem SameUpTo.modDom {π : Node → β} (h : SameUpTo π s s') (d : DomainId) (f : Domain → Domain) :
    SameUpTo π (s.modDom d f) (s'.modDom d f) := by
  obtain ⟨n, o, rfl, hn⟩ := h
  exact ⟨n, o, rfl, hn⟩

/-- Unlinking keeps the data of other nodes. -/
theorem removeNode_kept (hr : s.pv r = none → (s.doms d).head = some r)
    (L : DomainId → List NodeRef) : Kept s (removeNode s d r) L := by
  refine ⟨fun e => ?_, fun e a _ => ?_⟩
  · rw [removeNode_doms hr]
    split <;> rfl
  · rw [removeNode_nodes]
    rfl

/-- What a release did: nothing, or it took out the one reservation that ends with
the range and starts with it, guard included or not. -/
def Releases (s : State) (L : DomainId → List NodeRef) (d : DomainId) (vpn count : Nat)
    (s' : State) : Prop :=
  s' = s ∨ ∃ r ∈ L d, makeLimitExclusive vpn count = .ok (s.nodes r).limitVpn ∧
    ((s.nodes r).baseVpn = vpn ∨ (s.nodes r).usableBaseVpn = vpn) ∧
    VmmOk s' (update L d ((L d).erase r)) ∧
    Kept s s' (update L d ((L d).erase r))

/-- The reservation that is found is taken out. -/
theorem releasePage_found (h : VmmOk s L) (hi : (s.doms d).initialized = true) (hr : r ∈ L d)
    (hfind : findExactReleasable s d vpn count = some r) :
    VmmOk (releasePage s d vpn count) (update L d ((L d).erase r)) ∧
      Kept s (releasePage s d vpn count) (update L d ((L d).erase r)) := by
  unfold releasePage
  rw [if_neg (by rw [h.validate d]; simp), hfind]
  obtain ⟨hok1, hl1⟩ := removeNode_ok h hr hi
  have hsame := (detachOwnerNode_same (removeDomainNode s d r) r).modDom d fun x =>
    { x with freeCount := (x.freeCount + (s.nodes r).totalPageCount) % wordLimit }
  obtain ⟨hok2, hq2⟩ := releaseReservationNode_ok (hok1.sameLists hsame.core) (hl1.same hsame)
  dsimp only
  rw [releaseReservationNode_modDom]
  have hkept := removeNode_kept (((h.lists d).list.pv_eq_none_iff hr).mp)
    (update L d ((L d).erase r))
  exact ⟨hok2, (hkept.trans hsame.kept).trans hq2.kept⟩

theorem VmmOk.initialized_of_mem (h : VmmOk s L) (hr : r ∈ L d) :
    (s.doms d).initialized = true := by
  by_contra hno
  rw [(h.counts d).uninit (by simpa using hno)] at hr
  cases hr

section Added

variable {l1 l2 : List NodeRef} (hcount : 0 < count) (hlt : vpn + count < wordLimit)
  (hend : (s.nodes r).limitVpn = vpn + count)
  (hfirst : (s.nodes r).baseVpn = vpn ∨ (s.nodes r).usableBaseVpn = vpn)
include hcount hlt hend hfirst

/-- A reservation that was added is taken out by a release that ends with it and starts with it or
with its usable pages. -/
theorem releasePage_added (h : VmmOk s (update L d (l1 ++ r :: l2))) (hL : L d = l1 ++ l2)
    (hr : r ∉ L d) :
    VmmOk (releasePage s d vpn count) L ∧ Kept s (releasePage s d vpn count) L := by
  have hmem : r ∈ update L d (l1 ++ r :: l2) d := by simp
  have hr1 : r ∉ l1 := fun hr1 => hr (hL ▸ List.mem_append_left _ hr1)
  have hfind : findExactReleasable s d vpn count = some r := by
    rw [findExactReleasable, makeLimitExclusive_of_lt hcount hlt]
    rw [h.listOf_eq]
    exact releasableLoop_eq hend hfirst (h.lists _).asc hmem
  obtain ⟨hok, hkept⟩ := releasePage_found h (h.initialized_of_mem hmem) hmem hfind
  rw [update_idem, update_self, List.erase_append_right _ hr1, List.erase_cons_head, ← hL,
    update_eq_self] at hok hkept
  exact ⟨hok, hkept⟩

theorem stVmmReleaseLocalPage_eq {asp : Nat} (h : VmmOk s L) (hr : r ∈ L (.local asp)) :
    stVmmReleaseLocalPage s asp vpn count = releasePage s (.local asp) vpn count := by
  obtain ⟨hin1, hin2⟩ := (h.lists _).inside r hr
  unfold stVmmReleaseLocalPage
  rw [if_neg (by rw [h.initialized_of_mem hr]; simp; omega), makeLimitExclusive_of_lt hcount hlt]
  unfold Node.usableBaseVpn at hfirst
  exact if_neg (by omega)

end Added

/-- The reservations and free pages of a domain follow from its bounds and its list. -/
theorem VmmOk.domain_eq (h : VmmOk s L) (h' : VmmOk s' L)
    (hshape : (s'.doms d).shape = (s.doms d).shape) (hspan : ∀ a ∈ L d, s'.span a = s.span a) :
    s'.spans d = s.spans d ∧
      ((s.doms d).initialized = true → (s'.doms d).freeCount = (s.doms d).freeCount) := by
  simp only [Domain.shape, Prod.mk.injEq] at hshape
  obtain ⟨hbase, hlimit, hinit, -⟩ := hshape
  refine ⟨?_, fun hi => ?_⟩
  · rw [h'.spans_eq, h.spans_eq]
    exact List.map_congr_left hspan
  · have hreserved : s'.reserved (L d) = s.reserved (L d) := by
      refine congrArg List.sum (List.map_congr_left fun a ha => ?_)
      have := hspan a ha
      simp only [State.span, Prod.mk.injEq] at this
      rw [Node.totalPageCount, Node.totalPageCount, this.1, this.2]
    have hcount := (h.counts d).count hi
    have hcount' := (h'.counts d).count (hinit.trans hi)
    rw [hreserved, hbase, hlimit] at hcount'
    omega

/-- **Releasing keeps the invariant.** -/
theorem releasePage_ok (h : VmmOk s L) (hi : (s.doms d).initialized = true) (vpn count : Nat) :
    Releases s L d vpn count (releasePage s d vpn count) := by
  cases hfind : findExactReleasable s d vpn count with
  | none =>
    refine .inl ?_
    unfold releasePage
    rw [if_neg (by rw [h.validate d]; simp), hfind]
  | some r =>
    have hloop := hfind
    unfold findExactReleasable at hloop
    cases hlim : makeLimitExclusive vpn count with
    | error e => simp [hlim] at hloop
    | ok limit =>
      simp only [hlim, h.listOf_eq] at hloop
      obtain ⟨hr, hlimit, hvpn⟩ := releasableLoop_some hloop
      obtain ⟨hok, hkept⟩ := releasePage_found h hi hr hfind
      exact .inr ⟨r, hr, by rw [hlim, hlimit], hvpn, hok, hkept⟩

theorem stVmmReleaseGlobalPage_ok (h : VmmOk s L) (g : GlobalDomain) (vpn count : Nat) :
    Releases s L (.global g) vpn count (stVmmReleaseGlobalPage s g vpn count) := by
  unfold stVmmReleaseGlobalPage
  split
  · exact .inl rfl
  · rename_i hi
    exact releasePage_ok h (by simpa using (not_or.mp hi).2) vpn count

theorem stVmmReleaseLocalPage_ok (h : VmmOk s L) (asp vpn count : Nat) :
    Releases s L (.local asp) vpn count (stVmmReleaseLocalPage s asp vpn count) := by
  unfold stVmmReleaseLocalPage
  dsimp only
  split
  · exact .inl rfl
  · rename_i hi
    split
    · exact .inl rfl
    · split
      · exact .inl rfl
      · exact releasePage_ok h (by simpa using (not_or.mp hi).2) vpn count

/-! ## Flags, growth and initialisation -/

/-- A node without its map flags. -/
def Node.unflagged (n : Node) : Node := { n with mapFlags := 0 }

/-- Only map flags change. -/
theorem setMapFlagsLoop_same (d : DomainId) (limit : Nat) (mf : MapFlags) (fuel : Nat) (s : State)
    (cursor : Nat) : SameUpTo Node.unflagged s (setMapFlagsLoop d limit mf fuel s cursor).2 := by
  induction fuel generalizing s cursor with
  | zero => exact .refl s
  | succ fuel ih =>
    rw [setMapFlagsLoop]
    split
    · exact .refl s
    · split
      · exact .refl s
      · split
        · exact .refl s
        · refine SameUpTo.trans ?_ (ih _ _)
          exact (SameUpTo.refl s).modNode (by intro _; rfl) _

theorem stVmmSetLocalPageReservationMapFlags_same (s : State) (asp vpn count : Nat)
    (mf : MapFlags) :
    SameUpTo Node.unflagged s
      (stVmmSetLocalPageReservationMapFlags s asp vpn count mf).2 := by
  unfold stVmmSetLocalPageReservationMapFlags
  dsimp only
  split_ifs
  any_goals exact .refl s
  · split <;> exact .refl s
  · split
    · exact .refl s
    · exact setMapFlagsLoop_same _ _ _ _ _ _

theorem SameUpTo.unflagged_core (h : SameUpTo Node.unflagged s s') : SameUpTo Node.core s s' :=
  h.coarser (congrArg Node.core)

/-- The node found contains the page. -/
theorem findOverlap_covers (h : VmmOk s L) (hvpn : vpn < wordLimit)
    (hfind : findOverlap s d vpn 1 = some r) :
    r ∈ L d ∧ (s.nodes r).baseVpn ≤ vpn ∧ vpn < (s.nodes r).limitVpn := by
  unfold findOverlap at hfind
  cases hlim : makeLimitExclusive vpn 1 with
  | error e => simp [hlim] at hfind
  | ok limit =>
    have hm := makeLimitExclusive_eq hvpn (by decide) hlim
    simp only [hlim, h.listOf_eq] at hfind
    obtain ⟨hmem, h1, h2⟩ := overlapLoop_some hfind
    exact ⟨hmem, by omega, h1⟩

/-- The node found for a page is on the list. -/
theorem findPageNode_ok (h : VmmOk s L) (hf : findPageNode s d vpn = .ok r) : r ∈ L d := by
  unfold findPageNode at hf
  dsimp only at hf
  split at hf
  · simp at hf
  · rw [if_neg (by rw [h.validate d]; simp)] at hf
    split at hf
    · simp at hf
    · rename_i r' hov
      cases hf
      have hrange := (h.counts d).range
      exact (findOverlap_covers h (by omega) hov).1

/-- One page of growth: the guarded reservation `r` moved down by a page. -/
structure Grown (unmapped : Nat → Bool) (s s' : State) (L : DomainId → List NodeRef)
    (d : DomainId) (vpn : Nat) (r : NodeRef) : Prop where
  mem      : r ∈ L d
  page     : vpn + 1 = (s.nodes r).usableBaseVpn ∧ 0 < (s.nodes r).baseVpn
  guarded  : 0 < (s.nodes r).guardPageCount ∧ hasFlag (s.nodes r).mapFlags mfGuardGrowDown = true ∧
               (s.nodes r).mappingPolicy = .demandZero
  unmapped : unmapped ((s.nodes r).baseVpn - 1) = true
  node     : s'.nodes r = { s.nodes r with baseVpn := (s.nodes r).baseVpn - 1 }
  others   : ∀ a, a ≠ r → s'.nodes a = s.nodes a
  doms     : ∀ e, (s'.doms e).shape = (s.doms e).shape
  ok       : VmmOk s' L

def growNode (s : State) (d : DomainId) (r : NodeRef) : State :=
  (s.modNode r fun n => { n with baseVpn := n.baseVpn - 1 }).modDom d fun x =>
    { x with freeCount := subWord x.freeCount 1 }

theorem growNode_nodes (a : NodeRef) :
    (growNode s d r).nodes a =
      if a = r then { s.nodes a with baseVpn := (s.nodes a).baseVpn - 1 } else s.nodes a := by
  simp [growNode, modNode_eq, modDom_eq]

theorem growNode_doms (e : DomainId) :
    (growNode s d r).doms e =
      if e = d then { s.doms e with freeCount := subWord (s.doms e).freeCount 1 }
      else s.doms e := by
  simp [growNode, modNode_eq, modDom_eq]

theorem growNode_shape (e : DomainId) : ((growNode s d r).doms e).shape = (s.doms e).shape := by
  rw [growNode_doms]
  split
  · simp only [Domain.shape]
  · rfl

theorem growNode_of_notMem {l : List NodeRef} (hr : r ∉ l) {a : NodeRef} (ha : a ∈ l) :
    (growNode s d r).nodes a = s.nodes a := by
  have hne : a ≠ r := fun he => hr (he ▸ ha)
  rw [growNode_nodes, if_neg hne]

/-- Everything before a node ends at or below where its predecessor ends. -/
theorem Ascending.below {l : List (Nat × Nat)} (h : Ascending l)
    (hlast : ∀ x, l.getLast? = some x → x.2 ≤ base) : ∀ x ∈ l, x.2 ≤ base := by
  intro x hx
  rcases List.eq_nil_or_concat l with rfl | ⟨init, y, rfl⟩
  · simp at hx
  · have hy : y.2 ≤ base := hlast y (by simp)
    obtain ⟨hpair, hne⟩ := h
    rw [List.concat_eq_append] at hx hpair hne
    rcases List.mem_append.mp hx with hx' | hx'
    · have h1 := (List.pairwise_append.mp hpair).2.2 x hx' y (by simp)
      have h2 := hne y (by simp)
      omega
    · rw [List.mem_singleton] at hx'
      exact hx' ▸ hy

/-- **Growth keeps the invariant.** -/
theorem growNode_ok (h : VmmOk s L) (hr : r ∈ L d) (hi : (s.doms d).initialized = true)
    (hbase : (s.nodes r).baseVpn ≠ (s.doms d).baseVpn) (hfree : 0 < (s.doms d).freeCount)
    (hprev : ∀ p, (s.nodes r).prev = some p → (s.nodes p).limitVpn ≤ (s.nodes r).baseVpn - 1) :
    VmmOk (growNode s d r) L := by
  obtain ⟨l1, l2, hL, hpv, -⟩ := (h.lists d).list.links hr
  have hnd := (h.lists d).list.nodup
  rw [hL] at hnd
  have hr1 : r ∉ l1 := fun hm => (List.nodup_append.mp hnd).2.2 r hm r List.mem_cons_self rfl
  have hr2 : r ∉ l2 := (List.nodup_cons.mp (List.nodup_append.mp hnd).2.1).1
  have hinside := (h.lists d).inside r hr
  have hasc := (h.lists d).asc
  rw [hL, List.map_append, List.map_cons] at hasc
  have hne : (s.nodes r).baseVpn < (s.nodes r).limitVpn := hasc.2 (s.span r) (by simp)
  have hself := growNode_doms (s := s) (d := d) (r := r) d
  rw [if_pos rfl] at hself
  have hspan : ∀ l : List NodeRef, r ∉ l → l.map (growNode s d r).span = l.map s.span := by
    intro l hl
    refine List.map_congr_left fun a ha => ?_
    rw [State.span, growNode_of_notMem hl ha]
    rfl
  have hlt := (h.counts d).freeCount_lt hi
  rw [← update_eq_self d L]
  refine h.update ?_ (fun e he => ?_) (fun e he a ha => ?_) ⟨?_, ?_, fun a ha => ?_⟩
    ((h.counts d).update hi (growNode_shape d) ?_)
  · rw [update_eq_self]
    refine h.nodes.congr rfl rfl rfl fun e a _ => ?_
    rw [growNode_nodes]
    split <;> rfl
  · rw [growNode_doms, if_neg he]
  · have hout : r ∉ L e := fun hm => he (h.nodes.apart e d r hm hr)
    rw [growNode_of_notMem hout ha]
  · rw [hself]
    refine (h.lists d).list.congr (fun a _ => ?_) (fun a _ => ?_)
    · rw [State.nx, growNode_nodes]
      split <;> rfl
    · rw [State.pv, growNode_nodes]
      split <;> rfl
  · -- the range grows into the gap above its predecessor
    have hx : (growNode s d r).span r = ((s.nodes r).baseVpn - 1, (s.nodes r).limitVpn) := by
      simp [State.span, growNode_nodes]
    rw [hL, List.map_append, List.map_cons, hspan l1 hr1, hspan l2 hr2, hx]
    have hsub : (l1.map s.span ++ l2.map s.span).Sublist
        (l1.map s.span ++ s.span r :: l2.map s.span) :=
      (List.Sublist.refl _).append (List.sublist_cons_self _ _)
    have hasc' : Ascending (l1.map s.span ++ l2.map s.span) :=
      hasc.sublist hsub
    have hasc1 : Ascending (l1.map s.span) := hasc'.sublist (List.sublist_append_left _ _)
    refine hasc'.insert (by simp only; omega) (hasc1.below fun x hx => ?_) fun y hy => ?_
    · rw [List.getLast?_map, Option.map_eq_some_iff] at hx
      obtain ⟨p, hp, rfl⟩ := hx
      exact hprev p (hpv.trans hp)
    · exact (List.pairwise_cons.mp (List.pairwise_append.mp hasc.1).2.1).1 y hy
  · rw [hself, growNode_nodes]
    split
    next har =>
      subst har
      exact ⟨by simp only; omega, hinside.2⟩
    · exact (h.lists d).inside a ha
  · have h1 : (growNode s d r).reserved l1 = s.reserved l1 :=
      reserved_congr fun a ha => by rw [growNode_of_notMem hr1 ha]
    have h2 : (growNode s d r).reserved l2 = s.reserved l2 :=
      reserved_congr fun a ha => by rw [growNode_of_notMem hr2 ha]
    rw [hself, hL, reserved_append, reserved_append, reserved_cons, reserved_cons, h1, h2,
      growNode_nodes, if_pos rfl, subWord_eq (by omega) hfree]
    simp only [Node.totalPageCount]
    omega

/-- A fault on a page of reservation `r` changes nothing or makes it grow by a page. -/
theorem stVmmResolveLocalPage_found (h : VmmOk s L) (unmapped : Nat → Bool) {asp : Nat}
    (hi : (s.doms (.local asp)).initialized = true) (hf : findPageNode s (.local asp) vpn = .ok r) :
    ∃ st s', stVmmResolveLocalPage unmapped s asp vpn = (st, s') ∧
      (s' = s ∨ st = .success ∧ Grown unmapped s s' L (.local asp) vpn r) := by
  have hr := findPageNode_ok h hf
  unfold stVmmResolveLocalPage
  rw [if_neg (by simp [hi]), hf]
  dsimp only
  split_ifs with hge hguard hflags hroom hprev hun
  -- a fault that is refused changes nothing
  any_goals exact ⟨_, _, rfl, .inl rfl⟩
  · have hbase := ((h.lists _).inside r hr).1
    rw [not_or, not_or] at hguard
    rw [not_or] at hroom
    refine ⟨_, _, rfl, .inr ⟨rfl, hr, ?_, ?_, ?_, ?_, ?_, ?_, ?_⟩⟩
    · constructor <;> omega
    · simpa [Nat.pos_iff_ne_zero, hguard.1] using hflags
    · simpa [isRangeUnmapped] using hun
    · exact (growNode_nodes (d := .local asp) r).trans (if_pos rfl)
    · exact fun a ha => (growNode_nodes (d := .local asp) a).trans (if_neg ha)
    · exact growNode_shape (d := .local asp)
    · refine growNode_ok h hr hi hroom.1 (by omega) fun p hp => ?_
      rw [hp] at hprev
      simpa using hprev

/-- **Any fault changes nothing or grows one node.** -/
theorem stVmmResolveLocalPage_ok (h : VmmOk s L) (unmapped : Nat → Bool) (asp vpn : Nat) :
    ∃ st s', stVmmResolveLocalPage unmapped s asp vpn = (st, s') ∧
      (s' = s ∨ st = .success ∧ ∃ r, Grown unmapped s s' L (.local asp) vpn r) := by
  by_cases hi : (s.doms (.local asp)).initialized = true
  · cases hf : findPageNode s (.local asp) vpn with
    | error e =>
      refine ⟨e, s, ?_, .inl rfl⟩
      unfold stVmmResolveLocalPage
      rw [if_neg (by simp [hi]), hf]
    | ok r =>
      obtain ⟨st, s', heq, hres⟩ := stVmmResolveLocalPage_found h unmapped hi hf
      exact ⟨st, s', heq, hres.imp_right fun ⟨hst, hgrown⟩ => ⟨hst, r, hgrown⟩⟩
  · refine ⟨.invalidValue, s, ?_, .inl rfl⟩
    unfold stVmmResolveLocalPage
    rw [if_pos (by simpa using hi)]

/-- Initialising a domain empties its list; nodes it held before stay in use. -/
theorem initDomain_ok (h : VmmOk s L) (baseVpn : Nat) {limitVpn : Nat}
    (hlimit : limitVpn < wordLimit) (owner : Option Nat) :
    initDomain s d baseVpn limitVpn owner = (.invalidValue, s) ∨
    ∃ s', initDomain s d baseVpn limitVpn owner = (.success, s') ∧
      VmmOk s' (update L d []) := by
  unfold initDomain
  split
  · exact .inl rfl
  next hle =>
    have hsub : ∀ e, update L d [] e ⊆ L e := by
      intro e
      rcases eq_or_ne e d with rfl | he
      · simp
      · rw [update_of_ne he]
        exact List.Subset.refl _
    rw [modDom_eq]
    refine .inr ⟨_, rfl, h.update ((h.nodes.mono hsub).congr rfl rfl rfl fun _ _ _ => rfl)
      (fun e he => if_neg he) (fun _ _ _ _ => rfl) ⟨⟨?_, List.nodup_nil, trivial⟩,
      ⟨List.Pairwise.nil, by simp⟩, by simp⟩ ⟨fun _ => rfl, ?_, fun _ => ?_⟩⟩
    · simp
    · simp only [if_true]
      exact ⟨by omega, hlimit⟩
    · simp [State.reserved]

end FoliOS.Strata.Vmm
