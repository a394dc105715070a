import FoliOS.Lib.SList
import FoliOS.Strata.Gnt.Node

/-!
# The shape of the node tree

`Tree h kids held rank closing` says that the heap `h` is a forest: `kids p` are the children of
`p` in sibling order, a parent is live and no link, and every live node is counted once for the
tree that holds it and once for every reference its holders have (`held`). `rank` grows towards
the roots, so that no node is its own ancestor and the finaliser's recursion ends. `closing`
are the nodes whose finaliser is running: it has already cleared their list heads while their
remaining children still point at them.

One lemma per operation says what it does to `kids`:

* `Tree.addNode`      — the new node goes to the end of its parent's children;
* `Tree.releaseNode`  — surviving nodes keep their children, every other node is untouched
  unless its parent was freed;
* `Tree.removeNode`   — the node leaves its parent's children, the others keep their order.
-/

namespace FoliOS.Strata.Gnt

open Function Lib

variable {held' : Addr → Nat} {closing' : Addr → Prop} {m : Addr}

/-- The sibling pointer of the node at an address. -/
def sibling (h : Heap) (a : Addr) : Option Addr := (h a).bind Node.sibling

theorem sibling_of {h : Heap} {a : Addr} {nd : Node} (ha : h a = some nd) :
    sibling h a = nd.sibling := by
  simp [sibling, ha]

/-- The heap is a forest with the children `kids`. -/
structure Tree (h : Heap) (kids : Addr → List Addr) (held rank : Addr → Nat)
    (closing : Addr → Prop) : Prop where
  links  : ∀ p, Links (sibling h) (kids p).head? (kids p)
  nodup  : ∀ p, (kids p).Nodup
  kid    : ∀ {p c}, c ∈ kids p → ∃ cd, h c = some cd ∧ cd.parent = some p
  mem    : ∀ {c p cd}, h c = some cd → cd.parent = some p → c ∈ kids p
  dir    : ∀ {c p cd}, h c = some cd → cd.parent = some p →
    ∃ pd, h p = some pd ∧ pd.type ≠ typeLink
  ends   : ∀ {p pd}, h p = some pd → ¬ closing p →
    pd.childrenHead = (kids p).head? ∧ pd.childrenTail = (kids p).getLast?
  counts : ∀ {n nd}, h n = some nd →
    nd.refCount = held n + (if nd.parent.isSome then 1 else 0) ∧ nd.refCount < refLimit
  dead   : ∀ {n}, h n = none → held n = 0
  ranked : ∀ {c p cd}, h c = some cd → cd.parent = some p → rank c < rank p
  root   : ∀ {n nd}, closing n → h n = some nd → nd.parent = none

section Facts

variable {h : Heap} {kids : Addr → List Addr} {held rank : Addr → Nat} {closing : Addr → Prop}
  {n p q c a : Addr} {nd pd cd : Node}

theorem Tree.kids_unique (ht : Tree h kids held rank closing) (hp : c ∈ kids p) (hq : c ∈ kids q) :
    p = q := by
  obtain ⟨cd, hcd, hpar⟩ := ht.kid hp
  obtain ⟨cd', hcd', hpar'⟩ := ht.kid hq
  cases hcd.symm.trans hcd'
  exact Option.some.inj (hpar.symm.trans hpar')

/-- Only a live node that is no link has children. -/
theorem Tree.kids_eq_nil (ht : Tree h kids held rank closing)
    (hp : ∀ pd, h p = some pd → pd.type = typeLink) : kids p = [] := by
  refine List.eq_nil_iff_forall_not_mem.mpr fun c hc => ?_
  obtain ⟨cd, hcd, hpar⟩ := ht.kid hc
  obtain ⟨pd, hpd, hty⟩ := ht.dir hcd hpar
  exact hty (hp pd hpd)

theorem Tree.kids_of_link (ht : Tree h kids held rank closing) (hn : h n = some nd)
    (hlink : nd.type = typeLink) : kids n = [] :=
  ht.kids_eq_nil fun pd hpd => by
    cases hn.symm.trans hpd
    exact hlink

theorem ne_of_dead (hp : h p = some pd) (ha : h a = none) : p ≠ a := by
  rintro rfl
  rw [ha] at hp
  cases hp

theorem Tree.notMem_of_root (ht : Tree h kids held rank closing) (hn : h n = some nd)
    (hroot : nd.parent = none) (p : Addr) : n ∉ kids p := by
  intro hmem
  obtain ⟨nd', hnd', hpar⟩ := ht.kid hmem
  cases hn.symm.trans hnd'
  rw [hroot] at hpar
  cases hpar

theorem Tree.ne_parent (ht : Tree h kids held rank closing) (hn : h n = some nd)
    (hpar : nd.parent = some p) : n ≠ p := by
  rintro rfl
  exact absurd (ht.ranked hn hpar) (lt_irrefl _)

end Facts

theorem Tree.empty :
    Tree (fun _ => none) (fun _ => []) (fun _ => 0) (fun _ => 0) fun _ => False := by
  constructor
  all_goals simp [Links]

/-! ## Writes that keep the shape -/

section Writes

variable {h : Heap} {kids : Addr → List Addr} {held rank : Addr → Nat} {closing : Addr → Prop}
  {n p : Addr} {nd pd : Node}

/-- What of a node does not depend on the lists it is linked in. -/
def core (nd : Node) : Option Addr × Nat × Nat := (nd.parent, nd.type, nd.refCount)

theorem exists_of_map {β : Type} {f : Node → β} {x x' : Option Node} (hmap : x.map f = x'.map f)
    (hx : x = some nd) : ∃ nd', x' = some nd' ∧ f nd' = f nd := by
  rw [hx, Option.map_some] at hmap
  exact Option.map_eq_some_iff.mp hmap.symm

theorem exists_of_core {x x' : Option Node} (hcore : x.map core = x'.map core) (hx : x = some nd) :
    ∃ nd', x' = some nd' ∧ nd'.parent = nd.parent ∧ nd'.type = nd.type ∧
    nd'.refCount = nd.refCount := by
  obtain ⟨nd', hx', heq⟩ := exists_of_map hcore hx
  simp only [core, Prod.mk.injEq] at heq
  exact ⟨nd', hx', heq⟩

section

variable (ht : Tree h kids held rank closing)
include ht

/-- **Rebuilding the forest** around one node `n`, which becomes `nd`. The others may be linked in
other lists, but stay in the lists of the same parents. -/
theorem Tree.change {h' : Heap} {kids' : Addr → List Addr} (hn : h' n = some nd)
    (hcore : ∀ m ≠ n, (h' m).map core = (h m).map core)
    (hlinks : ∀ p, Links (sibling h') (kids' p).head? (kids' p)) (hnodup : ∀ p, (kids' p).Nodup)
    (hends : ∀ {p pd}, h' p = some pd → ¬ closing' p → pd.childrenHead = (kids' p).head? ∧
      pd.childrenTail = (kids' p).getLast?)
    (hkids : ∀ m p, m ≠ n → (m ∈ kids' p ↔ m ∈ kids p))
    (hself : ∀ p, n ∈ kids' p ↔ nd.parent = some p)
    (hdir : ∀ p, nd.parent = some p → rank n < rank p ∧ ∃ pd, h p = some pd ∧ pd.type ≠ typeLink)
    (hlink : nd.type = typeLink → kids n = [])
    (hcount : nd.refCount = held' n + (if nd.parent.isSome then 1 else 0) ∧ nd.refCount < refLimit)
    (hheld : ∀ m ≠ n, held' m = held m) (hcl : ∀ m, closing' m → closing m ∨ m = n)
    (hroot : closing' n → nd.parent = none) : Tree h' kids' held' rank closing' := by
  have hback : ∀ {m md}, h' m = some md → (m = n ∧ md = nd) ∨ m ≠ n ∧ ∃ md0, h m = some md0 ∧
      md0.parent = md.parent ∧ md0.type = md.type ∧ md0.refCount = md.refCount := by
    intro m md hm
    by_cases hmn : m = n
    · subst hmn
      exact .inl ⟨rfl, Option.some.inj (hm.symm.trans hn)⟩
    · exact .inr ⟨hmn, exists_of_core (hcore m hmn) hm⟩
  have hforth : ∀ {m md}, m ≠ n → h m = some md → ∃ md', h' m = some md' ∧ md'.parent = md.parent ∧
      md'.type = md.type ∧ md'.refCount = md.refCount := fun hmn =>
    exists_of_core (hcore _ hmn).symm
  refine ⟨hlinks, hnodup, ?_, ?_, ?_, hends, ?_, ?_, ?_, ?_⟩
  · intro p c hc
    by_cases hcn : c = n
    · subst hcn
      exact ⟨nd, hn, (hself p).mp hc⟩
    · obtain ⟨cd, hcd, hcp⟩ := ht.kid ((hkids c p hcn).mp hc)
      obtain ⟨cd', hcd', hpar, -⟩ := hforth hcn hcd
      exact ⟨cd', hcd', hpar.trans hcp⟩
  · intro c p cd hc hcp
    rcases hback hc with ⟨rfl, rfl⟩ | ⟨hcn, cd0, hc0, hpar, -⟩
    · exact (hself p).mpr hcp
    · exact (hkids c p hcn).mpr (ht.mem hc0 (hpar.trans hcp))
  · intro c p cd hc hcp
    rcases hback hc with ⟨rfl, rfl⟩ | ⟨-, cd0, hc0, hpar, -⟩
    · obtain ⟨hlt, pd, hp, hty⟩ := hdir p hcp
      obtain ⟨pd', hp', -, hty', -⟩ := hforth (fun heq => absurd (heq ▸ hlt) (lt_irrefl _)) hp
      exact ⟨pd', hp', hty'.symm ▸ hty⟩
    · have hcp0 := hpar.trans hcp
      obtain ⟨pd, hp, hty⟩ := ht.dir hc0 hcp0
      by_cases hpn : p = n
      · subst hpn
        refine ⟨nd, hn, fun h => ?_⟩
        have hmem := ht.mem hc0 hcp0
        rw [hlink h] at hmem
        cases hmem
      · obtain ⟨pd', hp', -, hty', -⟩ := hforth hpn hp
        exact ⟨pd', hp', hty'.symm ▸ hty⟩
  · intro m md hm
    rcases hback hm with ⟨rfl, rfl⟩ | ⟨hmn, md0, hm0, hpar, -, hrc⟩
    · exact hcount
    · rw [hheld m hmn, ← hpar, ← hrc]
      exact ht.counts hm0
  · intro m hm
    have hmn : m ≠ n := (ne_of_dead hn hm).symm
    rw [hheld m hmn]
    have hnone := hcore m hmn
    rw [hm] at hnone
    exact ht.dead (Option.map_eq_none_iff.mp hnone.symm)
  · intro c p cd hc hcp
    rcases hback hc with ⟨rfl, rfl⟩ | ⟨-, cd0, hc0, hpar, -⟩
    · exact (hdir p hcp).1
    · exact ht.ranked hc0 (hpar.trans hcp)
  · intro m md hm' hm
    rcases hback hm with ⟨rfl, rfl⟩ | ⟨hmn, md0, hm0, hpar, -⟩
    · exact hroot hm'
    · rw [← hpar]
      exact ht.root ((hcl m hm').resolve_right hmn) hm0

/-- A store that keeps the parent and sibling pointers of a node keeps the forest: the new count
has to agree with the references held, a node that becomes a link has no children, and the ends
of the child list may change only where the finaliser has started. -/
theorem Tree.store (hn : h n = some nd) {nd' : Node} (hpar : nd'.parent = nd.parent)
    (hsib : nd'.sibling = nd.sibling)
    (hends : ¬ closing' n → nd'.childrenHead = nd.childrenHead ∧ nd'.childrenTail = nd.childrenTail)
    (htype : nd'.type = typeLink → kids n = [])
    (hcount : nd'.refCount = held' n + (if nd.parent.isSome then 1 else 0) ∧
      nd'.refCount < refLimit)
    (hheld : ∀ m ≠ n, held' m = held m) (hcl : ∀ m, closing m → closing' m)
    (hcl' : ∀ m, closing' m → closing m ∨ m = n ∧ nd.parent = none) :
    Tree (h.set n nd') kids held' rank closing' := by
  refine ht.change (Heap.set_self h n nd') (fun m hm => by rw [Heap.set_of_ne hm]) (fun p => ?_)
    ht.nodup
    ?_ (fun _ _ _ => Iff.rfl) (fun p => ?_) (fun p hp => ?_) htype (hpar ▸ hcount) hheld
    (fun m hm => (hcl' m hm).imp_right And.left) (fun hcn => hpar.trans ?_)
  · refine (ht.links p).congr fun m _ => ?_
    by_cases hmn : m = n
    · rw [hmn, sibling_of (Heap.set_self h n nd'), sibling_of hn, hsib]
    · rw [sibling, Heap.set_of_ne hmn, sibling]
  · intro p pd hp hncl
    have hncl0 : ¬ closing p := fun h => hncl (hcl p h)
    by_cases hpn : p = n
    · subst hpn
      cases (Heap.set_self h p nd').symm.trans hp
      rw [(hends hncl).1, (hends hncl).2]
      exact ht.ends hn hncl0
    · exact ht.ends (Heap.set_of_ne hpn h nd' ▸ hp) hncl0
  · rw [hpar]
    refine ⟨fun hmem => ?_, ht.mem hn⟩
    obtain ⟨nd0, hn0, hp⟩ := ht.kid hmem
    rwa [Option.some.inj (hn.symm.trans hn0)]
  · rw [hpar] at hp
    exact ⟨ht.ranked hn hp, ht.dir hn hp⟩
  · exact (hcl' n hcn).elim (fun hc => ht.root hc hn) And.right

/-- A root without children and references can be freed. -/
theorem Tree.free (hn : h n = some nd) (hroot : nd.parent = none) (hkids : kids n = [])
    (hheld : held n = 0) : Tree (h.free n) kids held rank closing := by
  have hlive : ∀ {m md}, h.free n m = some md → h m = some md := by
    intro m md hm
    rwa [Heap.free_of_ne (ne_of_dead hm (Heap.free_self h n))] at hm
  have hne : ∀ {p c}, c ∈ kids p → c ≠ n := fun hc heq =>
    ht.notMem_of_root hn hroot _ (heq ▸ hc)
  refine ⟨?_, ht.nodup, ?_, fun hc => ht.mem (hlive hc), ?_, fun hp => ht.ends (hlive hp),
    fun hm => ht.counts (hlive hm), ?_, fun hc => ht.ranked (hlive hc),
    fun hcl hm => ht.root hcl (hlive hm)⟩
  · intro p
    refine (ht.links p).congr fun c hc => ?_
    simp only [sibling, Heap.free_of_ne (hne hc)]
  · intro p c hc
    obtain ⟨cd, hcd, hcp⟩ := ht.kid hc
    exact ⟨cd, by rw [Heap.free_of_ne (hne hc), hcd], hcp⟩
  · intro c p cd hcd hcp
    obtain ⟨pd, hpd, hty⟩ := ht.dir (hlive hcd) hcp
    have hpn : p ≠ n := by
      rintro rfl
      have hmem := ht.mem (hlive hcd) hcp
      rw [hkids] at hmem
      cases hmem
    exact ⟨pd, by rw [Heap.free_of_ne hpn, hpd], hty⟩
  · intro m hm
    by_cases hmn : m = n
    · rw [hmn]
      exact hheld
    · rw [Heap.free_of_ne hmn] at hm
      exact ht.dead hm

/-- A finaliser that is done leaves the nodes that are closing to the others. -/
theorem Tree.closingOf (hsub : ∀ m, closing' m → closing m)
    (hlive : ∀ m, h m ≠ none → closing m → closing' m) : Tree h kids held rank closing' :=
  ⟨ht.links, ht.nodup, ht.kid, ht.mem, ht.dir,
    fun hp hncl => ht.ends hp fun hcl => hncl (hlive _ (by rw [hp]; simp) hcl),
    ht.counts, ht.dead, ht.ranked, fun hcl hm => ht.root (hsub _ hcl) hm⟩

end

end Writes

/-! ## Releasing -/

/-- What a release of `n` leaves behind: surviving nodes keep their children, and a node other
than `n` is untouched unless its parent was freed; nodes above `n` are never touched. -/
structure Released (h h' : Heap) (kids kids' : Addr → List Addr) (rank : Addr → Nat) (n : Addr) :
    Prop where
  above : ∀ m, rank n < rank m → h' m = h m
  frame : ∀ m, m ≠ n → h' m = h m ∨ ∃ md p, h m = some md ∧ md.parent = some p ∧ h' p = none
  kids  : ∀ p, h' p ≠ none → kids' p = kids p

/-- What the loop over the children of `n` leaves behind. -/
structure Emptied (h h' : Heap) (kids kids' : Addr → List Addr) (rank : Addr → Nat) (n : Addr) :
    Prop where
  above : ∀ m, rank n ≤ rank m → h' m = h m
  frame : ∀ m, h' m = h m ∨
    ∃ md p, h m = some md ∧ md.parent = some p ∧ (p = n ∨ h' p = none)
  kids  : ∀ p, p ≠ n → h' p ≠ none → kids' p = kids p
  empty : kids' n = []

section Release

variable {h h1 h2 : Heap} {kids kids1 kids2 : Addr → List Addr} {held rank : Addr → Nat}
  {closing : Addr → Prop} {n c : Addr} {nd cd : Node} {l : List Addr}

theorem Emptied.none_of_none (he : Emptied h h1 kids kids1 rank n) (hm : h m = none) :
    h1 m = none := by
  rcases he.frame m with heq | ⟨md, p, hmd, -⟩
  · rw [heq, hm]
  · rw [hm] at hmd
    cases hmd

/-- The loop takes the first child off the list: it is a root now, and the tree's reference to
it is the loop's. -/
theorem Tree.detachFirst (ht : Tree h kids held rank closing) (hcl : closing n)
    (hk : kids n = c :: l) (hc : h c = some cd) :
    Tree (h.set c { cd with parent := none, sibling := none }) (update kids n l)
      (update held c (held c + 1)) rank closing := by
  have hcn : c ∈ kids n := by simp [hk]
  obtain ⟨hcl', hl⟩ := List.nodup_cons.mp (hk ▸ ht.nodup n)
  obtain ⟨cd', hcd', hcp⟩ := ht.kid hcn
  cases hc.symm.trans hcd'
  generalize hx : ({ cd with parent := none, sibling := none } : Node) = x
  have hsib : ∀ {m}, m ≠ c → sibling (h.set c x) m = sibling h m := fun hm => by
    rw [sibling, Heap.set_of_ne hm, sibling]
  refine ht.change (Heap.set_self h c x) (fun m hm => by rw [Heap.set_of_ne hm]) (fun p => ?_)
    (fun p => ?_)
    ?_ (fun m p hm => ?_) (fun p => ?_) (fun p hp => ?_) (fun hlink => ?_) ?_
    (fun m hm => update_of_ne hm _ _) (fun m => .inl) (fun _ => ?_)
  · by_cases hpn : p = n
    · subst hpn
      have htail := (hk ▸ ht.links p : Links _ (c :: l).head? (c :: l)).2
      rw [htail.head_eq] at htail
      rw [update_self]
      exact htail.congr fun m hm => hsib fun heq => hcl' (heq ▸ hm)
    · rw [update_of_ne hpn]
      exact (ht.links p).congr fun m hm => hsib fun heq =>
        hpn (ht.kids_unique (heq ▸ hm) hcn)
  · by_cases hpn : p = n
    · rwa [hpn, update_self]
    · rw [update_of_ne hpn]
      exact ht.nodup p
  · intro p pd hp hncl
    rw [update_of_ne (show p ≠ n from fun heq => hncl (heq ▸ hcl))]
    by_cases hpc : p = c
    · subst hpc
      cases (Heap.set_self h p x).symm.trans hp
      have hends := ht.ends hc hncl
      rwa [← hx]
    · exact ht.ends (Heap.set_of_ne hpc h x ▸ hp) hncl
  · by_cases hpn : p = n
    · rw [hpn, update_self, hk, List.mem_cons, or_iff_right hm]
    · rw [update_of_ne hpn]
  · -- `c` is in no list any more
    rw [← hx]
    refine ⟨fun hmem => ?_, fun h => by cases h⟩
    by_cases hpn : p = n
    · rw [hpn, update_self] at hmem
      exact absurd hmem hcl'
    · rw [update_of_ne hpn] at hmem
      exact absurd (ht.kids_unique hmem hcn) hpn
  · rw [← hx] at hp
    cases hp
  · rw [← hx] at hlink
    exact ht.kids_of_link hc hlink
  · have hcount := ht.counts hc
    rw [hcp] at hcount
    rw [← hx]
    simpa using hcount
  · rw [← hx]

/-- The statement of `Tree.releaseNode` for nodes of rank below `r`. -/
def ReleasesBelow (r : Nat) : Prop :=
  ∀ (n : Addr) (h : Heap) (kids : Addr → List Addr) (held rank : Addr → Nat)
    (closing : Addr → Prop), Tree h kids held rank closing → rank n < r → h n ≠ none →
    ¬ closing n → 0 < held n →
    ∃ h' kids' fuel₀, (∀ fuel, fuel₀ ≤ fuel → releaseNode fuel n h = some h') ∧
      Tree h' kids' (update held n (held n - 1)) rank closing ∧
      Released h h' kids kids' rank n

/-- The loop over the children, by induction on those that remain. -/
theorem Tree.releaseChildren {r : Nat} (hrel : ReleasesBelow r) (hcl : closing n) :
    ∀ (l : List Addr) (h : Heap) (kids : Addr → List Addr),
      Tree h kids held rank closing → kids n = l → rank n ≤ r →
      ∃ h' kids' fuel0,
        (∀ fuel, fuel0 ≤ fuel → releaseChildren fuel l.head? h = some h') ∧
        Tree h' kids' held rank closing ∧ Emptied h h' kids kids' rank n := by
  intro l
  induction l with
  | nil =>
    intro h kids ht hk _
    refine ⟨h, kids, 1, ?_, ht, fun _ _ => rfl, fun m => .inl rfl, fun _ _ _ => rfl, hk⟩
    intro fuel hfuel
    obtain ⟨fuel, rfl⟩ := Nat.exists_eq_add_of_le' hfuel
    rfl
  | cons c l ih =>
    intro h kids ht hk hr
    have hcn : c ∈ kids n := by simp [hk]
    obtain ⟨cd, hc, hcp⟩ := ht.kid hcn
    have ht1 := ht.detachFirst hcl hk hc
    have hncl : ¬ closing c := by
      intro hclc
      rw [ht.root hclc hc] at hcp
      cases hcp
    have hcne : c ≠ n := ht.ne_parent hc hcp
    -- the release of the detached child
    obtain ⟨h2, kids2, fuel1, hrun1, ht2, hrel2⟩ := hrel c _ _ _ rank closing ht1
      (lt_of_lt_of_le (ht.ranked hc hcp) hr) (by simp) hncl (by simp)
    rw [update_self, Nat.add_sub_cancel, update_idem, update_eq_self]
      at ht2
    have hn : h n ≠ none := by
      obtain ⟨pd, hpd, -⟩ := ht.dir hc hcp
      rw [hpd]
      simp
    have hn2 : h2 n = h n := by
      rw [hrel2.above n (ht.ranked hc hcp), Heap.set_of_ne (Ne.symm hcne)]
    have hk2 : kids2 n = l := by
      rw [hrel2.kids n (hn2 ▸ hn), update_self]
    obtain ⟨h3, kids3, fuel2, hrun2, ht3, he3⟩ := ih h2 kids2 ht2 hk2 hr
    refine ⟨h3, kids3, max fuel1 fuel2 + 1, ?_, ht3, ?_, ?_, ?_, he3.empty⟩
    · intro fuel hfuel
      obtain ⟨fuel, rfl⟩ := Nat.exists_eq_add_of_le' (show 1 ≤ fuel by omega)
      have hsib : cd.sibling = l.head? := by
        have hl := ht.links n
        rw [hk] at hl
        rw [← sibling_of hc]
        exact hl.2.head_eq
      simp only [List.head?_cons, Gnt.releaseChildren, hc]
      rw [hrun1 fuel (by omega), hsib]
      exact hrun2 fuel (by omega)
    · intro m hm
      have hlt := ht.ranked hc hcp
      have hmc : m ≠ c := by
        rintro rfl
        omega
      rw [he3.above m hm, hrel2.above m (by omega), Heap.set_of_ne hmc]
    · intro m
      by_cases hmc : m = c
      · subst hmc
        exact .inr ⟨cd, n, hc, hcp, .inl rfl⟩
      rcases hrel2.frame m hmc with heq | ⟨md, p, hmd, hmp, hp⟩
      · rw [Heap.set_of_ne hmc] at heq
        rcases he3.frame m with heq' | ⟨md, p, hmd, hmp, hp⟩
        · exact .inl (heq'.trans heq)
        · exact .inr ⟨md, p, heq ▸ hmd, hmp, hp⟩
      · rw [Heap.set_of_ne hmc] at hmd
        exact .inr ⟨md, p, hmd, hmp, .inr (he3.none_of_none hp)⟩
    · intro p hpn hp
      have hp2 : h2 p ≠ none := fun hnone => hp (he3.none_of_none hnone)
      rw [he3.kids p hpn hp, hrel2.kids p hp2, update_of_ne hpn]

/-- A reference is given back and others remain. -/
theorem Tree.dropReference (ht : Tree h kids held rank closing) (hn : h n = some nd)
    (hheld : 0 < held n) :
    Tree (h.set n { nd with refCount := (nd.refCount + refLimit - 1) % refLimit }) kids
      (update held n (held n - 1)) rank closing := by
  obtain ⟨hcount, hlim⟩ := ht.counts hn
  have hdec : (nd.refCount + refLimit - 1) % refLimit = nd.refCount - 1 := by
    rw [show nd.refCount + refLimit - 1 = nd.refCount - 1 + refLimit by omega, Nat.add_mod_right,
      Nat.mod_eq_of_lt (by omega)]
  refine ht.store hn rfl rfl (fun _ => ⟨rfl, rfl⟩) (fun hlink => ?_) ?_ ?_ (fun _ h => h)
    (fun _ h => .inl h)
  · exact ht.kids_of_link hn hlink
  · show (nd.refCount + refLimit - 1) % refLimit = _ ∧ (nd.refCount + refLimit - 1) % refLimit < _
    rw [hdec, update_self]
    omega
  · exact fun m hm => update_of_ne hm _ _

/-- **A release drops one reference.** If it was the last one the node is freed and its children
are released in turn. By induction on the rank, which bounds the depth of the recursion. -/
theorem releasesBelow (r : Nat) : ReleasesBelow r := by
  induction r with
  | zero => intro n h kids held rank closing _ hr; omega
  | succ r ih =>
    intro n h kids held rank closing ht hr hn hncl hheld
    obtain ⟨nd, hn⟩ := Option.ne_none_iff_exists'.mp hn
    have ht1 := ht.dropReference hn hheld
    obtain ⟨hcount, hlim⟩ := ht.counts hn
    generalize hrest : ({ nd with refCount := (nd.refCount + refLimit - 1) % refLimit } : Node)
      = rest at ht1
    by_cases hone : nd.refCount = 1
    swap
    · -- other references remain
      refine ⟨h.set n rest, kids, 1, ?_, ht1, fun m hm => ?_, ?_, fun _ _ => rfl⟩
      · intro fuel hfuel
        obtain ⟨fuel, rfl⟩ := Nat.exists_eq_add_of_le' hfuel
        simp only [Gnt.releaseNode, hn, hrest, if_pos hone, ne_eq]
      · exact Heap.set_of_ne (fun heq => absurd (heq ▸ hm) (lt_irrefl _)) h rest
      · exact fun m hm => .inl (Heap.set_of_ne hm h rest)
    · have hzero : held n - 1 = 0 := by split at hcount <;> omega
      have hroot : nd.parent = none := by
        by_contra hpar
        rw [if_pos (Option.isSome_iff_ne_none.mpr hpar)] at hcount
        omega
      have hn1 : h.set n rest n = some rest := Heap.set_self h n rest
      have hroot1 : rest.parent = none := by rw [← hrest]; exact hroot
      by_cases hlink : nd.type = typeLink
      · -- a link has no children
        have hk := ht.kids_of_link hn hlink
        refine ⟨(h.set n rest).free n, kids, 1, ?_,
          ht1.free hn1 hroot1 hk (by rw [update_self]; exact hzero), fun m hm => ?_, ?_,
          fun _ _ => rfl⟩
        · intro fuel hfuel
          obtain ⟨fuel, rfl⟩ := Nat.exists_eq_add_of_le' hfuel
          simp [Gnt.releaseNode, hn, hone, hlink, ← hrest]
        · have hmn : m ≠ n := fun heq => absurd (heq ▸ hm) (lt_irrefl _)
          rw [Heap.free_of_ne hmn, Heap.set_of_ne hmn]
        · exact fun m hm => .inl (by rw [Heap.free_of_ne hm, Heap.set_of_ne hm])
      · -- the children are released one by one, then the node is freed
        have hcl : Tree ((h.set n rest).set n
            { rest with childrenHead := none, childrenTail := none }) kids
            (update held n (held n - 1)) rank (fun m => closing m ∨ m = n) := by
          have hcounts := ht1.counts hn1
          refine ht1.store hn1 rfl rfl (fun hno => absurd (.inr rfl) hno) (fun h => ?_)
            hcounts (fun _ _ => rfl) (fun _ => .inl) ?_
          · exact absurd (by rw [← hrest] at h; exact h) hlink
          · rintro m (hm | rfl)
            · exact .inl hm
            · exact .inr ⟨rfl, hroot1⟩
        obtain ⟨h', kids', fuel0, hrun, ht', he⟩ :=
          Tree.releaseChildren ih (.inr rfl) (kids n) _ kids hcl rfl (by omega)
        have hn' : h' n = some { rest with childrenHead := none, childrenTail := none } := by
          rw [he.above n le_rfl, Heap.set_self]
        have hfree := ht'.free hn' hroot1 he.empty (by rw [update_self]; exact hzero)
        refine ⟨h'.free n, kids', fuel0 + 1, ?_, ?_, ?_, ?_, ?_⟩
        · intro fuel hfuel
          obtain ⟨fuel, rfl⟩ := Nat.exists_eq_add_of_le' (show 1 ≤ fuel by omega)
          have hrun' := hrun fuel (by omega)
          rw [← (ht.ends hn hncl).1, Heap.set_set] at hrun'
          subst hrest
          simp only [Gnt.releaseNode, hn, hone, ne_eq, not_true, if_false, if_pos hlink] at hrun' ⊢
          rw [hrun']
          rfl
        · refine hfree.closingOf (fun _ => .inl) ?_
          rintro m hm (hcl | rfl)
          · exact hcl
          · exact absurd (Heap.free_self h' m) hm
        · intro m hm
          have hmn : m ≠ n := fun heq => absurd (heq ▸ hm) (lt_irrefl _)
          rw [Heap.free_of_ne hmn, he.above m hm.le, Heap.set_of_ne hmn, Heap.set_of_ne hmn]
        · intro m hm
          rw [Heap.free_of_ne hm]
          rcases he.frame m with heq | ⟨md, p, hmd, hmp, hp⟩
          · exact .inl (by rw [heq, Heap.set_of_ne hm, Heap.set_of_ne hm])
          · rw [Heap.set_of_ne hm, Heap.set_of_ne hm] at hmd
            refine .inr ⟨md, p, hmd, hmp, ?_⟩
            by_cases hpn : p = n
            · rw [hpn, Heap.free_self]
            · rw [Heap.free_of_ne hpn]
              exact hp.resolve_left hpn
        · intro p hp
          have hpn : p ≠ n := by
            rintro rfl
            exact hp (Heap.free_self h' p)
          rw [Heap.free_of_ne hpn] at hp
          exact he.kids p hpn hp

end Release

/-! ## Changing one child list -/

section Relink

variable {h h' : Heap} {kids : Addr → List Addr} {held rank : Addr → Nat} {closing : Addr → Prop}
  {n p : Addr} {nd pd : Node} {l : List Addr}

/-- `n` becomes `nd`, and the children of `p` become `l`: the siblings are linked in that order
and the ends of the list are stored in `p`. Nothing else changes. -/
structure Relinked (h h' : Heap) (n p : Addr) (nd pd : Node) (old l : List Addr) : Prop where
  self   : h' n = some nd
  parent : h' p = some { pd with childrenHead := l.head?, childrenTail := l.getLast? }
  inner  : ∀ m, m ≠ n → m ≠ p → ∃ s, h' m = (h m).map fun md => { md with sibling := s }
  other  : ∀ m, m ∉ old → m ≠ n → m ≠ p → h' m = h m
  links  : Links (sibling h') l.head? l

theorem exists_sibling (x : Option Node) : ∃ s, x = x.map fun md => { md with sibling := s } := by
  cases x with
  | none => exact ⟨none, rfl⟩
  | some md => exact ⟨md.sibling, rfl⟩

/-- The fields other than the sibling pointer and the list ends, node by node. -/
theorem Relinked.back (hr : Relinked h h' n p nd pd (kids p) l) (hp : h p = some pd) {md' : Node}
    (hm : h' m = some md') (hmn : m ≠ n) :
    ∃ md, h m = some md ∧ md'.parent = md.parent ∧ md'.type = md.type ∧ md'.name = md.name ∧
      md'.refCount = md.refCount ∧
      (m ≠ p → md'.childrenHead = md.childrenHead ∧ md'.childrenTail = md.childrenTail) := by
  by_cases hmp : m = p
  · subst hmp
    rw [hr.parent] at hm
    cases hm
    exact ⟨pd, hp, rfl, rfl, rfl, rfl, fun h => absurd rfl h⟩
  · obtain ⟨s, hs⟩ := hr.inner m hmn hmp
    rw [hm] at hs
    obtain ⟨md, hmd, rfl⟩ := Option.map_eq_some_iff.mp hs.symm
    exact ⟨md, hmd, rfl, rfl, rfl, rfl, fun _ => ⟨rfl, rfl⟩⟩

theorem Relinked.forth (hr : Relinked h h' n p nd pd (kids p) l) (hp : h p = some pd) {md : Node}
    (hm : h m = some md) (hmn : m ≠ n) : ∃ md', h' m = some md' := by
  by_cases hmp : m = p
  · subst hmp
    exact ⟨_, hr.parent⟩
  · obtain ⟨s, hs⟩ := hr.inner m hmn hmp
    rw [hm] at hs
    exact ⟨_, hs⟩

/-- The children of `p` may gain or lose the one node `n`, which keeps its own children. -/
theorem Tree.relink (ht : Tree h kids held rank closing) (hp : h p = some pd) (hnp : n ≠ p)
    (hr : Relinked h h' n p nd pd (kids p) l) (hnodup : l.Nodup)
    (hl : ∀ m ≠ n, (m ∈ l ↔ m ∈ kids p)) (hout : ∀ q ≠ p, n ∉ kids q)
    (hmem : n ∈ l ↔ nd.parent = some p) (hpar : ∀ q, nd.parent = some q → q = p)
    (hty : pd.type ≠ typeLink) (hlink : nd.type = typeLink → kids n = [])
    (hends : nd.childrenHead = (kids n).head? ∧ nd.childrenTail = (kids n).getLast?)
    (hheld : ∀ m ≠ n, held' m = held m)
    (hcount : nd.refCount = held' n + (if nd.parent.isSome then 1 else 0) ∧ nd.refCount < refLimit)
    (hrank : nd.parent = some p → rank n < rank p) (hcl : closing n → nd.parent = none) :
    Tree h' (update kids p l) held' rank closing := by
  refine ht.change hr.self (fun m hmn => ?_) (fun q => ?_) (fun q => ?_) ?_ (fun m q hmn => ?_)
    (fun q => ?_) (fun q hq => ?_) hlink hcount hheld (fun m => .inl) hcl
  · by_cases hmp : m = p
    · rw [hmp, hr.parent, hp]
      rfl
    · obtain ⟨s, hs⟩ := hr.inner m hmn hmp
      rw [hs, Option.map_map]
      rfl
  · by_cases hqp : q = p
    · rw [hqp, update_self]
      exact hr.links
    · rw [update_of_ne hqp]
      refine (ht.links q).congr fun m hm => ?_
      have hmout : m ∉ kids p := fun hmp => hqp (ht.kids_unique hm hmp)
      have hmn : m ≠ n := fun heq => hout q hqp (heq ▸ hm)
      by_cases hmp : m = p
      · rw [hmp, sibling_of hr.parent, sibling_of hp]
      · rw [sibling, hr.other m hmout hmn hmp, sibling]
  · by_cases hqp : q = p
    · rwa [hqp, update_self]
    · rw [update_of_ne hqp]
      exact ht.nodup q
  · intro q qd hq hncl
    by_cases hqp : q = p
    · subst hqp
      cases hr.parent.symm.trans hq
      rw [update_self]
      exact ⟨rfl, rfl⟩
    · rw [update_of_ne hqp]
      by_cases hqn : q = n
      · subst hqn
        cases hr.self.symm.trans hq
        exact hends
      · obtain ⟨qd0, hq0, -, -, -, -, hends'⟩ := hr.back hp hq hqn
        rw [(hends' hqp).1, (hends' hqp).2]
        exact ht.ends hq0 hncl
  · by_cases hqp : q = p
    · rw [hqp, update_self]
      exact hl m hmn
    · rw [update_of_ne hqp]
  · by_cases hqp : q = p
    · rw [hqp, update_self]
      exact hmem
    · rw [update_of_ne hqp]
      exact iff_of_false (hout q hqp) fun hq => hqp (hpar q hq)
  · obtain rfl := hpar q hq
    exact ⟨hrank hq, pd, hp, hty⟩

end Relink

/-! ## Adding -/

section Add

variable {h : Heap} {kids : Addr → List Addr} {held rank : Addr → Nat} {closing : Addr → Prop}
  {a p : Addr} {pd : Node} {name : Option (List Nat)}

/-- The record of a new node. -/
def newNode (parent : Option Addr) (name : Option (List Nat)) : Node :=
  storeName name { refCount := 1, parent := parent }

theorem newNode_fields (parent : Option Addr) (name : Option (List Nat)) :
    (newNode parent name).refCount = 1 ∧ (newNode parent name).parent = parent ∧
      (newNode parent name).sibling = none ∧ (newNode parent name).childrenHead = none ∧
      (newNode parent name).childrenTail = none := by
  cases name <;> exact ⟨rfl, rfl, rfl, rfl, rfl⟩

/-- The rank below all others for a new node, which moves the others up. -/
def rankBelow (rank : Addr → Nat) (a m : Addr) : Nat := if m = a then 0 else rank m + 1

section

variable (ht : Tree h kids held rank closing) (ha : h a = none)
include ht ha

theorem Tree.rankBelow : Tree h kids held (Gnt.rankBelow rank a) closing := by
  refine ⟨ht.links, ht.nodup, ht.kid, ht.mem, ht.dir, ht.ends, ht.counts, ht.dead, ?_, ht.root⟩
  intro c p cd hc hcp
  obtain ⟨pd, hpd, -⟩ := ht.dir hc hcp
  have hlt := ht.ranked hc hcp
  simp only [Gnt.rankBelow, if_neg (ne_of_dead hc ha), if_neg (ne_of_dead hpd ha)]
  omega

theorem Tree.kids_of_dead : kids a = [] :=
  ht.kids_eq_nil fun _ hpd => absurd rfl (ne_of_dead hpd ha)

theorem Tree.notMem_of_dead (p : Addr) : a ∉ kids p := by
  intro hmem
  obtain ⟨ad, had, -⟩ := ht.kid hmem
  rw [ha] at had
  cases had

/-- A node without a parent: the reference is its creator's. -/
theorem Tree.addRoot :
    addNode (.ok a) none name h = some (.success, some a, h.set a (newNode none name)) ∧
      Tree (h.set a (newNode none name)) kids (update held a 1) rank closing := by
  obtain ⟨hcount, hpar, hsib, hhead, htail⟩ := newNode_fields none name
  constructor
  · simp [addNode, nameNode, Heap.set_set, newNode]
  have hset : ∀ {m}, m ≠ a → h.set a (newNode none name) m = h m := fun hm => Heap.set_of_ne hm h _
  refine ht.change (Heap.set_self h a _) (fun m hm => by rw [hset hm]) (fun p => ?_) ht.nodup ?_
    (fun _ _ _ => Iff.rfl) (fun p => ?_) (fun p hp => ?_) (fun _ => ht.kids_of_dead ha) ?_
    (fun m hm => update_of_ne hm _ _) (fun m => .inl) (fun _ => hpar)
  · refine (ht.links p).congr fun c hc => ?_
    rw [sibling, hset fun heq => ht.notMem_of_dead ha p (heq ▸ hc), sibling]
  · intro m md hm hncl
    by_cases hma : m = a
    · subst hma
      cases (Heap.set_self h m _).symm.trans hm
      rw [ht.kids_of_dead ha]
      exact ⟨hhead, htail⟩
    · exact ht.ends (hset hma ▸ hm) hncl
  · rw [hpar]
    exact iff_of_false (ht.notMem_of_dead ha p) fun h => by cases h
  · rw [hpar] at hp
    cases hp
  · rw [hcount, hpar, update_self]
    exact ⟨rfl, by decide⟩

/-- `StGnt_AddNode` under a node that is no link appends to its children. -/
theorem Tree.addNode_eq (hp : h p = some pd) (hty : pd.type ≠ typeLink) (hncl : ¬ closing p) :
    ∃ h', addNode (.ok a) (some p) name h = some (.success, some a, h') ∧
      Relinked h h' a p (newNode (some p) name) pd (kids p) (kids p ++ [a]) := by
  have hpa : p ≠ a := ne_of_dead hp ha
  obtain ⟨hhead, htail⟩ := ht.ends hp hncl
  have hout := ht.notMem_of_dead ha
  have hsib := (newNode_fields (some p) name).2.2.1
  generalize hx : ({ refCount := 1, parent := some p } : Node) = x
  have hp0 : h.set a x p = some pd := by rw [Heap.set_of_ne hpa, hp]
  rcases List.eq_nil_or_concat (kids p) with hk | ⟨l, t, hk⟩
  · -- the first child
    rw [hk] at hhead htail ⊢
    refine ⟨((h.set a x).set p { pd with childrenHead := some a, childrenTail := some a }).set a
      (newNode (some p) name), ?_, ⟨Heap.set_self _ _ _, ?_, ?_, ?_, ?_⟩⟩
    · have hatt : attach (h.set a x) p a = some ((h.set a x).set p
          { pd with childrenHead := some a, childrenTail := some a }) := by
        simp [attach, hp0, hhead]
      simp only [addNode, hx, hp0, if_neg hty, hatt, Option.bind_some, nameNode,
        Heap.set_of_ne (Ne.symm hpa), Heap.set_self]
      rw [← hx]
      rfl
    · rw [Heap.set_of_ne hpa, Heap.set_self]
      rfl
    · intro m hma hmp
      rw [Heap.set_of_ne hma, Heap.set_of_ne hmp, Heap.set_of_ne hma]
      exact exists_sibling (h m)
    · intro m _ hma hmp
      rw [Heap.set_of_ne hma, Heap.set_of_ne hmp, Heap.set_of_ne hma]
    · refine ⟨rfl, ?_⟩
      rw [sibling_of (Heap.set_self _ _ _)]
      exact hsib
  · -- the last child gets a sibling
    rw [List.concat_eq_append] at hk
    rw [hk] at hhead htail ⊢
    obtain ⟨td, hT, htp⟩ := ht.kid (show t ∈ kids p by simp [hk])
    have hta : t ≠ a := ne_of_dead hT ha
    have htp' : t ≠ p := ht.ne_parent hT htp
    obtain ⟨c, hc⟩ : ∃ c, (l ++ [t]).head? = some c := by
      cases l <;> exact ⟨_, rfl⟩
    have htail' : pd.childrenTail = some t := by simpa using htail
    have hheads : (l ++ [t] ++ [a]).head? = pd.childrenHead := by
      rw [hhead]
      cases l <;> rfl
    refine ⟨(((h.set a x).set t { td with sibling := some a }).set p
      { pd with childrenTail := some a }).set a (newNode (some p) name), ?_,
      ⟨Heap.set_self _ _ _, ?_, ?_, ?_, ?_⟩⟩
    · have hatt : attach (h.set a x) p a = some (((h.set a x).set t
          { td with sibling := some a }).set p { pd with childrenTail := some a }) := by
        simp only [attach, hp0, hhead, hc, htail', Heap.set_of_ne hta, hT,
          Heap.set_of_ne (Ne.symm htp')]
      simp only [addNode, hx, hp0, if_neg hty, hatt, Option.bind_some, nameNode,
        Heap.set_of_ne (Ne.symm hpa), Heap.set_of_ne (Ne.symm hta), Heap.set_self]
      rw [← hx]
      rfl
    · rw [Heap.set_of_ne hpa, Heap.set_self, hheads]
      simp
    · intro m hma hmp
      rw [Heap.set_of_ne hma, Heap.set_of_ne hmp]
      by_cases hmt : m = t
      · subst hmt
        exact ⟨some a, by rw [Heap.set_self, hT]; rfl⟩
      · rw [Heap.set_of_ne hmt, Heap.set_of_ne hma]
        exact exists_sibling (h m)
    · intro m hm hma hmp
      have hmt : m ≠ t := fun heq => hm (by simp [heq])
      rw [Heap.set_of_ne hma, Heap.set_of_ne hmp, Heap.set_of_ne hmt, Heap.set_of_ne hma]
    · have hpush := (hk ▸ ht.links p : Links (sibling h) (l ++ [t]).head? (l ++ [t])).pushBack
        (hk ▸ ht.nodup p) (hk ▸ hout p)
      rw [hheads, hhead]
      refine hpush.congr fun m hm => ?_
      by_cases hma : m = a
      · subst hma
        rw [update_self, sibling_of (Heap.set_self _ _ _), hsib]
      · have hmk : m ∈ kids p := by
          rw [hk]
          exact (List.mem_append.mp hm).resolve_right (by simpa using hma)
        obtain ⟨md, hmd, hmp⟩ := ht.kid hmk
        have hmp' : m ≠ p := ht.ne_parent hmd hmp
        rw [update_of_ne hma]
        by_cases hmt : m = t
        · subst hmt
          rw [update_self]
          simp only [sibling, Heap.set_of_ne hma, Heap.set_of_ne hmp', Heap.set_self,
            Option.bind_some]
        · rw [update_of_ne hmt]
          simp only [sibling, Heap.set_of_ne hma, Heap.set_of_ne hmp', Heap.set_of_ne hmt]

/-- **A node added under a directory goes to the end of its children.** The reference is the
tree's. -/
theorem Tree.addNode (hp : h p = some pd) (hty : pd.type ≠ typeLink) (hncl : ¬ closing p)
    (hacl : ¬ closing a) :
    ∃ h', Gnt.addNode (.ok a) (some p) name h = some (.success, some a, h') ∧
      Tree h' (update kids p (kids p ++ [a])) held (Gnt.rankBelow rank a) closing ∧
      Relinked h h' a p (newNode (some p) name) pd (kids p) (kids p ++ [a]) := by
  obtain ⟨h', hrun, hr⟩ : ∃ h', Gnt.addNode (.ok a) (some p) name h = some (.success, some a, h') ∧
      Relinked h h' a p (newNode (some p) name) pd (kids p) (kids p ++ [a]) :=
    ht.addNode_eq ha hp hty hncl
  obtain ⟨hcount, hpar, hsib, hhead, htail⟩ := newNode_fields (some p) name
  have hpa : p ≠ a := ne_of_dead hp ha
  refine ⟨h', hrun, ?_, hr⟩
  refine (ht.rankBelow ha).relink hp (Ne.symm hpa) hr ?_ ?_ (fun q _ => ht.notMem_of_dead ha q)
    ?_ ?_ hty (fun _ => ht.kids_of_dead ha) ?_ (fun _ _ => rfl) ?_ ?_ (fun h => absurd h hacl)
  · exact (ht.nodup p).append (List.nodup_singleton a)
      (by simpa using ht.notMem_of_dead ha p)
  · intro m hma
    simp [hma]
  · simp [hpar]
  · intro q hq
    rw [hpar] at hq
    exact (Option.some.inj hq).symm
  · rw [ht.kids_of_dead ha]
    exact ⟨hhead, htail⟩
  · rw [hcount, hpar, ht.dead ha]
    exact ⟨rfl, by decide⟩
  · simp [Gnt.rankBelow, hpa]

end

end Add

/-! ## Removing -/

section Remove

variable {h h' : Heap} {kids : Addr → List Addr} {held rank : Addr → Nat} {closing : Addr → Prop}
  {n p v : Addr} {nd pd : Node} {l l1 l2 : List Addr}

/-- The node that left the list is a root, and the tree's reference to it is the caller's. -/
theorem Tree.detach (ht : Tree h kids held rank closing) (hn : h n = some nd)
    (hpar : nd.parent = some p) (hp : h p = some pd) (hncl : ¬ closing n)
    (hr : Relinked h h' n p { nd with parent := none, sibling := none } pd (kids p)
      ((kids p).erase n)) :
    Tree h' (update kids p ((kids p).erase n)) (update held n (held n + 1)) rank
      closing := by
  have hmem : n ∈ kids p := ht.mem hn hpar
  obtain ⟨pd', hpd', hty⟩ := ht.dir hn hpar
  cases hp.symm.trans hpd'
  have hcount := ht.counts hn
  rw [hpar] at hcount
  have hends := ht.ends hn hncl
  refine ht.relink hp (ht.ne_parent hn hpar) hr ((ht.nodup p).erase n) ?_ ?_ ?_ ?_ hty ?_ hends
    (fun m hm => update_of_ne hm _ _) ?_ ?_ (fun _ => rfl)
  · exact fun m hm => List.mem_erase_of_ne hm
  · exact fun q hq hnq => hq (ht.kids_unique hnq hmem)
  · exact ⟨fun h => absurd h (ht.nodup p).not_mem_erase, fun h => by cases h⟩
  · exact fun q h => by cases h
  · exact fun hlink => ht.kids_of_link hn hlink
  · simpa using hcount
  · exact fun h => by cases h

/-- The search stops at the sibling before `n`. -/
theorem findPrev_eq {start : Option Addr} (hl : Links (sibling h) start (l1 ++ v :: n :: l2))
    (hnd : (l1 ++ v :: n :: l2).Nodup) (hlive : ∀ m ∈ l1 ++ [v], h m ≠ none) :
    ∀ fuel, l1.length < fuel → findPrev h n fuel start = some (some v) := by
  induction l1 generalizing start with
  | nil =>
    intro fuel hfuel
    obtain ⟨fuel, rfl⟩ := Nat.exists_eq_add_of_le' (show 1 ≤ fuel from hfuel)
    obtain ⟨vd, hv⟩ := Option.ne_none_iff_exists'.mp (hlive v (by simp))
    have hnext : vd.sibling = some n := by
      rw [← sibling_of hv]
      exact hl.2.1
    rw [show start = some v from hl.1]
    simp [findPrev, hv, hnext]
  | cons c l1 ih =>
    intro fuel hfuel
    obtain ⟨fuel, rfl⟩ := Nat.exists_eq_add_of_le' (show 1 ≤ fuel by simp at hfuel; omega)
    obtain ⟨cd, hc⟩ := Option.ne_none_iff_exists'.mp (hlive c (by simp))
    have hrest := hl.2
    rw [sibling_of hc] at hrest
    have hne : cd.sibling ≠ some n := by
      intro heq
      have hhead := hrest.head_eq
      rw [heq] at hhead
      -- `n` is not the head of a list that has `v` before it
      have hnd' := (List.nodup_cons.mp hnd).2
      cases l1 with
      | nil =>
        obtain rfl : n = v := by simpa using hhead
        simp at hnd'
      | cons d l1 =>
        obtain rfl : n = d := by simpa using hhead
        simp at hnd'
    rw [show start = some c from hl.1]
    simp only [findPrev, hc, if_neg hne]
    exact ih hrest (List.nodup_cons.mp hnd).2
      (fun m hm => hlive m (List.mem_cons_of_mem c hm)) fuel (by simp at hfuel; omega)

/-- The tail pointer is the removed node exactly when nothing follows it. -/
theorem getLast?_eq_some_iff_of_nodup (hnd : (l1 ++ n :: l2).Nodup) :
    (l1 ++ n :: l2).getLast? = some n ↔ l2 = [] := by
  constructor
  · intro hlast
    cases l2 with
    | nil => rfl
    | cons c l2 =>
      have hmem : n ∈ c :: l2 := by
        rw [List.getLast?_append_cons, List.getLast?_cons_cons] at hlast
        exact List.mem_of_getLast? hlast
      exact absurd hmem (List.nodup_cons.mp (List.nodup_append.mp hnd).2.1).1
  · rintro rfl
    simp

/-- The unlinking of `n`, which is behind the children `l1`: only the one before `n` or the head of
`p` is written. -/
theorem Tree.unlink_eq (ht : Tree h kids held rank closing) (hn : h n = some nd)
    (hp : h p = some pd) (hncl : ¬ closing p) (hpk : p ∉ kids p) (hnp : n ≠ p)
    (hk : kids p = l1 ++ n :: l2) :
    ∃ h1, (∀ fuel, l1.length ≤ fuel → unlink fuel n p h = some (l1.getLast?, h1)) ∧
      h1 n = some nd ∧ h1 p = some { pd with childrenHead := (l1 ++ l2).head? } ∧
      (∀ m ≠ p, ∃ s, h1 m = (h m).map fun md => { md with sibling := s }) ∧
      (∀ m ∉ kids p, m ≠ p → h1 m = h m) ∧ Links (sibling h1) (l1 ++ l2).head? (l1 ++ l2) := by
  have hnd := ht.nodup p
  have hlinks := ht.links p
  have hhead := (ht.ends hp hncl).1
  rw [hk] at hnd hlinks hhead hpk
  have hnext : nd.sibling = l2.head? := (sibling_of hn).symm.trans hlinks.next_eq
  have hn1 : n ∉ l1 := fun hmem => (List.nodup_append.mp hnd).2.2 n hmem n (by simp) rfl
  rcases List.eq_nil_or_concat' l1 with rfl | ⟨l0, v, rfl⟩
  · -- the first child: the head moves on
    refine ⟨h.set p { pd with childrenHead := nd.sibling }, fun fuel _ => ?_, ?_, ?_,
      fun m hmp => ?_, fun m _ hmp => Heap.set_of_ne hmp _ _, ?_⟩
    · simp [unlink, hn, hp, hhead]
    · rw [Heap.set_of_ne hnp, hn]
    · rw [Heap.set_self, hnext, List.nil_append]
    · rw [Heap.set_of_ne hmp]
      exact exists_sibling (h m)
    · have htl := hlinks.2
      rw [htl.head_eq] at htl
      refine htl.congr fun m hm => ?_
      have hmp : m ≠ p := fun heq => hpk (List.mem_cons_of_mem n (heq ▸ hm))
      rw [sibling, Heap.set_of_ne hmp, sibling]
  · -- a later child: the one before it is linked past it
    have hvk : v ∈ kids p := by simp [hk]
    obtain ⟨vd, hv, hvp⟩ := ht.kid hvk
    have hvn : v ≠ n := fun heq => hn1 (by simp [heq])
    have hvp' : v ≠ p := ht.ne_parent hv hvp
    have hheads : (l0 ++ [v] ++ n :: l2).head? = (l0 ++ [v] ++ l2).head? := by cases l0 <;> rfl
    refine ⟨h.set v { vd with sibling := nd.sibling }, fun fuel hfuel => ?_, ?_, ?_,
      fun m hmp => ?_, fun m hm _ => Heap.set_of_ne (ne_of_mem_of_not_mem hvk hm).symm _ _, ?_⟩
    · have hhn : pd.childrenHead ≠ some n := by
        rw [hhead]
        intro hcontra
        cases l0 with
        | nil => exact hvn (by simpa using hcontra)
        | cons c l0 => exact hn1 (by simp at hcontra; simp [hcontra])
      have hlive : ∀ m ∈ l0 ++ [v], h m ≠ none := by
        intro m hm
        obtain ⟨md, hmd, -⟩ := ht.kid (hk ▸ List.mem_append_left _ hm)
        simp [hmd]
      rw [List.append_assoc, List.singleton_append] at hnd hlinks hhead
      have hprev : findPrev h n fuel pd.childrenHead = some (some v) :=
        hhead ▸ findPrev_eq hlinks hnd hlive fuel (by simp at hfuel; omega)
      simp only [unlink, hn, hp, if_neg hhn, hprev, hv, Option.map_some, List.getLast?_concat]
    · rw [Heap.set_of_ne (Ne.symm hvn), hn]
    · rw [Heap.set_of_ne (Ne.symm hvp'), hp, ← hheads, ← hhead]
    · by_cases hmv : m = v
      · rw [hmv, Heap.set_self, hv]
        exact ⟨nd.sibling, rfl⟩
      · rw [Heap.set_of_ne hmv]
        exact exists_sibling (h m)
    · have hout := (List.nodup_middle.mp hnd).notMem
      rw [List.append_assoc, List.singleton_append] at hnd hlinks hout
      have hun := hlinks.unlink hnd
      rw [← hheads, List.append_assoc, List.append_assoc, List.singleton_append,
        List.singleton_append]
      refine hun.congr fun m hm => ?_
      rw [update_of_ne (ne_of_mem_of_not_mem hm hout)]
      by_cases hmv : m = v
      · rw [hmv, update_self, sibling_of hn, sibling_of (Heap.set_self h v _)]
      · rw [update_of_ne hmv, sibling, Heap.set_of_ne hmv, sibling]

/-- `StGnt_RemoveNode` cuts the node out of its list and then releases it. -/
theorem Tree.removeNode_eq (ht : Tree h kids held rank closing) (hn : h n = some nd)
    (hpar : nd.parent = some p) (hp : h p = some pd) (hncl : ¬ closing p) :
    ∃ h' fuel0, Relinked h h' n p { nd with parent := none, sibling := none } pd (kids p)
        ((kids p).erase n) ∧
      ∀ fuel, fuel0 ≤ fuel → Gnt.removeNode fuel n h = Gnt.releaseNode fuel n h' := by
  have hnp : n ≠ p := ht.ne_parent hn hpar
  obtain ⟨l1, l2, hk⟩ := List.append_of_mem (ht.mem hn hpar)
  have hnd : (l1 ++ n :: l2).Nodup := hk ▸ ht.nodup p
  have hn1 : n ∉ l1 ++ l2 := (List.nodup_middle.mp hnd).notMem
  have herase : (kids p).erase n = l1 ++ l2 := by
    rw [hk, List.erase_append_right _ fun h => hn1 (List.mem_append_left _ h), List.erase_cons_head]
  obtain ⟨pd', hpd', hty⟩ := ht.dir hn hpar
  cases hp.symm.trans hpd'
  have hpk : p ∉ kids p := fun hmem => by
    obtain ⟨pd', hpd', hpp⟩ := ht.kid hmem
    exact absurd (ht.ranked hpd' hpp) (lt_irrefl _)
  obtain ⟨h1, hun, hn', hp', hinner, hother, hlinks⟩ := ht.unlink_eq hn hp hncl hpk hnp hk
  have htail := (ht.ends hp hncl).2
  rw [hk] at htail
  rw [herase]
  -- the tail moves back if the node was the last one
  generalize hh2 : (if pd.childrenTail = some n then
      h1.set p { pd with childrenHead := (l1 ++ l2).head?, childrenTail := l1.getLast? } else h1) =
        h2
  have hother2 : ∀ m ≠ p, h2 m = h1 m := by
    intro m hmp
    rw [← hh2]
    split
    · rw [Heap.set_of_ne hmp]
    · rfl
  have hp2 : h2 p = some { pd with
      childrenHead := (l1 ++ l2).head?, childrenTail := (l1 ++ l2).getLast? } := by
    rw [← hh2, htail]
    cases l2 with
    | nil => rw [if_pos ((getLast?_eq_some_iff_of_nodup hnd).mpr rfl), Heap.set_self,
        List.append_nil]
    | cons c l2 =>
      rw [if_neg (mt (getLast?_eq_some_iff_of_nodup hnd).mp (List.cons_ne_nil c l2)), hp']
      simp only [List.getLast?_append_cons, List.getLast?_cons_cons] at htail ⊢
      rw [← htail]
  refine ⟨h2.set n { nd with parent := none, sibling := none }, l1.length, ⟨Heap.set_self _ _ _, ?_,
    fun m hmn hmp => ?_, fun m hm hmn hmp => ?_, hlinks.congr fun m hm => ?_⟩, fun fuel hfuel => ?_⟩
  · rw [Heap.set_of_ne (Ne.symm hnp), hp2]
  · rw [Heap.set_of_ne hmn, hother2 m hmp]
    exact hinner m hmp
  · rw [Heap.set_of_ne hmn, hother2 m hmp, hother m hm hmp]
  · have hmn : m ≠ n := fun heq => hn1 (heq ▸ hm)
    have hmp : m ≠ p := by
      rintro rfl
      rw [hk] at hpk
      simp at hm hpk
      tauto
    rw [sibling, Heap.set_of_ne hmn, hother2 m hmp, sibling]
  · simp only [Gnt.removeNode, hn, hpar, hp, if_neg hty, hun fuel hfuel, hp', hh2]
    rw [hother2 n hnp, hn']

/-- **A removed node leaves the children of its parent, which keep their order.** The node itself
is released: where the tree held the last reference it is freed with its children. -/
theorem Tree.removeNode (ht : Tree h kids held rank fun _ => False) (hn : h n = some nd)
    (hpar : nd.parent = some p) :
    ∃ h' kids' fuel0, (∀ fuel, fuel0 ≤ fuel → Gnt.removeNode fuel n h = some h') ∧
      (Tree h' kids' held rank fun _ => False) ∧ h' p ≠ none ∧
      kids' p = (kids p).erase n := by
  obtain ⟨pd, hp, -⟩ := ht.dir hn hpar
  obtain ⟨h1, fuel1, hd, hrun1⟩ := ht.removeNode_eq hn hpar hp id
  have ht1 := ht.detach hn hpar hp id hd
  obtain ⟨h2, kids2, fuel2, hrun2, ht2, hrel⟩ := releasesBelow (rank n + 1) n h1 _ _ rank _ ht1
    (Nat.lt_succ_self _) (by rw [hd.self]; simp) id (by simp)
  rw [update_self, Nat.add_sub_cancel, update_idem, update_eq_self]
    at ht2
  -- the parent is above the node, so it survives
  have hp2 : h2 p ≠ none := by
    rw [hrel.above p (ht.ranked hn hpar), hd.parent]
    simp
  refine ⟨h2, kids2, max fuel1 fuel2, ?_, ht2, hp2, ?_⟩
  · intro fuel hfuel
    rw [hrun1 fuel (by omega), hrun2 fuel (by omega)]
  · rw [hrel.kids p hp2, update_self]

end Remove

end FoliOS.Strata.Gnt
