import FoliOS.Lib.Backing
import FoliOS.Strata.Mm.Sparse
import FoliOS.Strata.Vmm.Runs

/-!
# Strata — filling pages in batches, and taking it back

A loop that fills pages holds a list of batches, each a run of fresh frames at consecutive pages.

* `releasePages_added` — reserving and releasing leaves all domains as they were.
* `rollback_prefix`    — the rollback finds the batches again one by one, through the first page of
  each and the order the PMM recorded, and gives them back; `rollback_stuck` — where it cannot.
* `Filling`            — what a loop has done so far; `Filling.map` — a further batch;
  `Filling.served`, `Filling.undo` — what its end and its rollback come to.
-/

namespace FoliOS.Strata.Mm.Sparse

open Paging (isGlobalVpn isLocalVpn virtPageMax pml4HoleStart pml4HoleEnd)
open Pmm (frameLimit)
open Function Lib Vmm

variable {p f : Nat} {e : StStatus} {frames : FrameSupply} {live : Nat → Option Nat}
  {owner : Option Nat} {af : AllocFlags}

/-! ## Reservations -/

/-- The domains have the same bounds, reservations and free pages. -/
structure SameDomains (s s' : Vmm.State) : Prop where
  shape : ∀ d, (s'.doms d).shape = (s.doms d).shape
  spans : ∀ d, s'.spans d = s.spans d
  free  : ∀ d, (s.doms d).initialized = true → (s'.doms d).freeCount = (s.doms d).freeCount

section Reservations

variable {s₀ s s' : Vmm.State} {L : DomainId → List NodeRef} {d : DomainId} {vpn count : Nat}

theorem SameDomains.refl (s : Vmm.State) : SameDomains s s :=
  ⟨fun _ => rfl, fun _ => rfl, fun _ _ => rfl⟩

theorem SameDomains.of_kept (h : VmmOk s L) (h' : VmmOk s' L) (hk : Kept s s' L) :
    SameDomains s s' := by
  have hdomain := fun d => h.domain_eq h' (hk.doms d) fun a ha => hk.span ha
  exact ⟨hk.doms, fun d => (hdomain d).1, fun d => (hdomain d).2⟩

/-- The release of a new reservation. -/
theorem releasePages_added {base : Nat} {req : Request} {r : NodeRef} {l1 l2 : List NodeRef}
    (h0 : VmmOk s₀ L) (h : Added s₀ s L d base (vpn + count) req r l1 l2)
    (hvpn : vpn = base + guardPageCountFromMapFlags req.mapFlags) (hcount : 0 < count)
    (hlt : vpn + count < wordLimit) : SameDomains s₀ (releasePages s d vpn count) := by
  have hmem : r ∈ update L d (l1 ++ r :: l2) d := by simp
  have hlimit : (s.nodes r).limitVpn = vpn + count := h.field Node.limitVpn fun _ => rfl
  have husable : (s.nodes r).usableBaseVpn = vpn := by
    rw [hvpn]
    exact h.field Node.usableBaseVpn fun _ => rfl
  have heq : releasePages s d vpn count = releasePage s d vpn count := by
    cases d with
    | global g => exact if_neg (by rw [h.ok.initialized_of_mem hmem]; simp; omega)
    | «local» asp => exact stVmmReleaseLocalPage_eq hcount hlt hlimit (.inr husable) h.ok hmem
  obtain ⟨hok, hkept⟩ := releasePage_added hcount hlt hlimit (.inr husable) h.ok h.split (h.fresh d)
  rw [heq]
  exact .of_kept h0 hok (h.kept.trans hkept)

theorem releasePages_reserved {unmapped : Nat → Bool} {req : Request} (h0 : VmmOk s₀ L)
    (h : Reserves unmapped s₀ L d vpn count req .success s) (hlt : vpn + count < wordLimit) :
    SameDomains s₀ (releasePages s d vpn count) := by
  rcases h with ⟨-, hcount, base, r, l1, l2, hvpn, -, hadd⟩ | hfail
  · exact releasePages_added h0 hadd hvpn hcount hlt
  · exact absurd hfail.status (by decide)

/-- **Reserving and releasing.** After any run, a reservation at pages the VMM chooses and its
release leave every domain as it was. -/
theorem reserve_release (s : Vmm.State) (hs : Reachable s) (fs : FrameSource)
    (unmapped : Nat → Bool) (af : AllocFlags) (mf : MapFlags) (hlt : vpn + count < wordLimit) :
    (∀ g owner, stVmmReserveGlobalPage fs unmapped s g count owner af mf = (.success, vpn, s') →
      SameDomains s (stVmmReleaseGlobalPage s' g vpn count)) ∧
    ∀ asp, stVmmReserveLocalPage fs unmapped s asp count af mf = (.success, vpn, s') →
      SameDomains s (stVmmReleaseLocalPage s' asp vpn count) := by
  obtain ⟨L, h⟩ := reachable_ok hs
  refine ⟨fun g owner heq => ?_, fun asp heq => ?_⟩
  · obtain ⟨_, _, _, hok, hres⟩ := stVmmReserveGlobalPage_ok h fs unmapped g count owner af mf
    cases hok.symm.trans heq
    exact releasePages_reserved h hres hlt
  · obtain ⟨_, _, _, hok, hres⟩ := stVmmReserveLocalPage_ok h fs unmapped asp count af mf
    cases hok.symm.trans heq
    exact releasePages_reserved h hres hlt

/-- Three pages beside a grown stack. -/
theorem reserve_release_stack : ∃ vpn s',
    stVmmReserveLocalPage noFrames (fun _ => true) stackRun 0 3 0 mfGuard = (.success, vpn, s') ∧
      SameDomains stackRun (stVmmReleaseLocalPage s' 0 vpn 3) := by
  have hreserve :
      (stVmmReserveLocalPage noFrames (fun _ => true) stackRun 0 3 0 mfGuard).1 = .success :=
    by decide +kernel
  exact ⟨_, _, Prod.ext hreserve rfl, (reserve_release stackRun stackRun_reachable noFrames
    (fun _ => true) 0 mfGuard (by decide +kernel)).2 0 (Prod.ext hreserve rfl)⟩

end Reservations

/-! ## Page counts of owners -/

section

variable (u : Nat → Nat) (w : Option Nat)
include u w

theorem addUsage_zero : addUsage u w 0 = u := by
  cases w with
  | none => rfl
  | some o => exact update_eq_self ..

theorem addUsage_addUsage (a b : Nat) : addUsage (addUsage u w a) w b = addUsage u w (a + b) := by
  cases w with
  | none => rfl
  | some o => simp only [addUsage, update_self, update_idem, Nat.add_assoc]

theorem subUsage_zero : subUsage u w 0 = u := by
  cases w with
  | none => rfl
  | some o => exact update_eq_self ..

theorem subUsage_subUsage (a b : Nat) : subUsage (subUsage u w a) w b = subUsage u w (a + b) := by
  cases w with
  | none => rfl
  | some o => simp only [subUsage, update_self, update_idem, Nat.sub_sub]

theorem subUsage_addUsage (n : Nat) : subUsage (addUsage u w n) w n = u := by
  cases w with
  | none => rfl
  | some o =>
    simp only [subUsage, addUsage, update_self, update_idem, Nat.add_sub_cancel,
      update_eq_self]

end

/-! ## Batches -/

/-- The pages of batches, given by their first frames and orders. -/
def extent (l : List (Nat × Nat)) : Nat := (l.map fun x => 2 ^ x.2).sum

/-- The first frames of batches. -/
def heads (l : List (Nat × Nat)) : List Nat := l.map Prod.fst

/-- The batches stand one after the other from page `v` on, as far as their first pages tell. -/
def Starts (s : State) (d : DomainId) : Nat → List (Nat × Nat) → Prop
  | _, [] => True
  | v, x :: l => virtPageToPhysFrame s d v = .ok x.1 ∧ Starts s d (v + 2 ^ x.2) l

/-- The batches stand one after the other from page `v` on. -/
def Tiled (s : State) (d : DomainId) : Nat → List (Nat × Nat) → Prop
  | _, [] => True
  | v, x :: l => (onSide d v = true ∧ v + 2 ^ x.2 ≤ virtPageMax ∧
      ∀ k < 2 ^ x.2, s.pages (tablesOf d) (v + k) = some (x.1 + k)) ∧ Tiled s d (v + 2 ^ x.2) l

section Batches

variable {s s' : State} {d : DomainId} {v : Nat} {x : Nat × Nat} {l l' : List (Nat × Nat)}

@[simp] theorem extent_nil : extent [] = 0 := rfl

@[simp] theorem extent_cons : extent (x :: l) = 2 ^ x.2 + extent l := by
  simp [extent]

@[simp] theorem extent_append : extent (l ++ l') = extent l + extent l' := by
  simp [extent]

theorem length_le_extent (l : List (Nat × Nat)) : l.length ≤ extent l := by
  induction l with
  | nil => exact le_refl 0
  | cons x l ih =>
    have := Nat.two_pow_pos x.2
    rw [extent_cons, List.length_cons]
    omega

theorem virtPageToPhysFrame_ok : virtPageToPhysFrame s d p = .ok f ↔
    onSide d p = true ∧ p ≤ virtPageMax ∧ s.pages (tablesOf d) p = some f := by
  unfold virtPageToPhysFrame
  cases onSide d p with
  | false => simp
  | true =>
    by_cases hp : p > virtPageMax
    · simp [hp]
    · cases hm : s.pages (tablesOf d) p <;> simp [hp, Nat.le_of_not_gt hp]

theorem virtPageToPhysFrame_congr (h : virtPageToPhysFrame s d p = .ok f)
    (hp : s'.pages (tablesOf d) p = s.pages (tablesOf d) p) :
      virtPageToPhysFrame s' d p = .ok f := by
  obtain ⟨hside, hmax, hpage⟩ := virtPageToPhysFrame_ok.mp h
  exact virtPageToPhysFrame_ok.mpr ⟨hside, hmax, hp.trans hpage⟩

theorem unmapped_iff : s.unmapped d p = true ↔
    onSide d p = true ∧ p ≤ virtPageMax ∧ s.pages (tablesOf d) p = none := by
  unfold State.unmapped virtPageToPhysFrame
  cases onSide d p with
  | false => simp
  | true =>
    by_cases hp : p > virtPageMax
    · simp [hp]
    · cases hm : s.pages (tablesOf d) p <;> simp [hp, Nat.le_of_not_gt hp]

theorem Starts.congr : ∀ {l : List (Nat × Nat)} {v : Nat}, Starts s d v l →
    (∀ p, v ≤ p → p < v + extent l → s'.pages (tablesOf d) p = s.pages (tablesOf d) p) →
    Starts s' d v l := by
  intro l
  induction l with
  | nil => exact fun _ _ => trivial
  | cons x l ih =>
    intro v h hp
    have hpos := Nat.two_pow_pos x.2
    rw [extent_cons] at hp
    exact ⟨virtPageToPhysFrame_congr h.1 (hp v le_rfl (by omega)),
      ih h.2 fun p h1 h2 => hp p (by omega) (by omega)⟩

/-- The first page of each batch, somewhere before the end. -/
theorem Starts.exists_page {l : List (Nat × Nat)} {v f : Nat} (h : Starts s d v l)
    (hf : f ∈ heads l) :
    ∃ p, v ≤ p ∧ p < v + extent l ∧ s.pages (tablesOf d) p = some f := by
  induction l generalizing v f with
  | nil => cases hf
  | cons x l ih =>
    have hpos := Nat.two_pow_pos x.2
    rw [extent_cons]
    rcases List.mem_cons.mp hf with rfl | hf
    · exact ⟨v, le_refl v, by omega, (virtPageToPhysFrame_ok.mp h.1).2.2⟩
    · obtain ⟨p, h1, h2, hp⟩ := ih h.2 hf
      exact ⟨p, by omega, by omega, hp⟩

theorem Starts.split : ∀ {l : List (Nat × Nat)} {v : Nat}, Starts s d v (l ++ l') →
    Starts s d v l ∧ Starts s d (v + extent l) l' := by
  intro l
  induction l with
  | nil => exact fun h => ⟨trivial, h⟩
  | cons x l ih =>
    intro v h
    obtain ⟨h1, h2⟩ := ih h.2
    rw [extent_cons, ← Nat.add_assoc]
    exact ⟨⟨h.1, h1⟩, h2⟩

theorem Tiled.starts : ∀ {l : List (Nat × Nat)} {v : Nat}, Tiled s d v l → Starts s d v l := by
  intro l
  induction l with
  | nil => exact fun _ => trivial
  | cons x l ih =>
    rintro v ⟨⟨hside, hmax, hpages⟩, h⟩
    have hpos := Nat.two_pow_pos x.2
    exact ⟨virtPageToPhysFrame_ok.mpr ⟨hside, by omega, hpages 0 hpos⟩, ih h⟩

theorem Tiled.congr : ∀ {l : List (Nat × Nat)} {v : Nat}, Tiled s d v l →
    (∀ p, v ≤ p → p < v + extent l → s'.pages (tablesOf d) p = s.pages (tablesOf d) p) →
    Tiled s' d v l := by
  intro l
  induction l with
  | nil => exact fun _ _ => trivial
  | cons x l ih =>
    rintro v ⟨⟨hside, hmax, hpages⟩, h⟩ hp
    have hpos := Nat.two_pow_pos x.2
    rw [extent_cons] at hp
    refine ⟨⟨hside, hmax, fun k hk => ?_⟩, ih h fun p h1 h2 => hp p (by omega) (by omega)⟩
    rw [hp (v + k) (by omega) (by omega), hpages k hk]

theorem Tiled.append : ∀ {l : List (Nat × Nat)} {v : Nat}, Tiled s d v l →
    Tiled s d (v + extent l) l' → Tiled s d v (l ++ l') := by
  intro l
  induction l with
  | nil => exact fun _ h => h
  | cons x l ih =>
    intro v h h'
    rw [extent_cons, ← Nat.add_assoc] at h'
    exact ⟨h.1, ih h.2 h'⟩

/-- Every page of the batches has its frame from one of them. -/
theorem Tiled.exists_batch : ∀ {l : List (Nat × Nat)} {v p : Nat}, Tiled s d v l → v ≤ p →
    p < v + extent l → ∃ x ∈ l, ∃ k < 2 ^ x.2, s.pages (tablesOf d) p = some (x.1 + k) := by
  intro l
  induction l with
  | nil => intro v p _ h1 h2; rw [extent_nil] at h2; omega
  | cons x l ih =>
    rintro v p ⟨⟨-, -, hpages⟩, h⟩ h1 h2
    rw [extent_cons] at h2
    by_cases hp : p < v + 2 ^ x.2
    · refine ⟨x, List.mem_cons_self, p - v, by omega, ?_⟩
      rw [← hpages (p - v) (by omega)]
      congr 1
      omega
    · obtain ⟨y, hy, hk⟩ := ih (p := p) h (by omega) (by omega)
      exact ⟨y, List.mem_cons_of_mem _ hy, hk⟩

/-- Two runs of frames have none in common. -/
def Apart (x y : Nat × Nat) : Prop := x.1 + 2 ^ x.2 ≤ y.1 ∨ y.1 + 2 ^ y.2 ≤ x.1

/-- Pages of batches that are apart have different frames. -/
theorem Tiled.distinct : ∀ {l : List (Nat × Nat)} {v p q : Nat}, Tiled s d v l → l.Pairwise Apart →
    v ≤ p → p < q → q < v + extent l →
    s.pages (tablesOf d) p ≠ s.pages (tablesOf d) q := by
  intro l
  induction l with
  | nil => intro v p q _ _ h1 h2 h3; rw [extent_nil] at h3; omega
  | cons x l ih =>
    rintro v p q ⟨⟨-, -, hpages⟩, h⟩ hapart h1 h2 h3
    obtain ⟨hx, hl⟩ := List.pairwise_cons.mp hapart
    rw [extent_cons] at h3
    have hat : ∀ r, v ≤ r → r < v + 2 ^ x.2 → s.pages (tablesOf d) r = some (x.1 + (r - v)) :=
      fun r hr1 hr2 => by
        rw [← hpages (r - v) (by omega)]
        congr 1
        omega
    by_cases hp : p < v + 2 ^ x.2
    · rw [hat p h1 hp]
      by_cases hq : q < v + 2 ^ x.2
      · rw [hat q (by omega) hq]
        intro heq
        have := Option.some.inj heq
        omega
      · obtain ⟨y, hy, k, hk, hpage⟩ := h.exists_batch (p := q) (by omega) (by omega)
        rw [hpage]
        intro heq
        have := Option.some.inj heq
        have := hx y hy
        unfold Apart at this
        omega
    · exact ih h hl (by omega) h2 (by omega)

theorem nodup_heads (h : l.Pairwise Apart) : (heads l).Nodup := by
  refine List.pairwise_map.mpr (h.imp fun {x y} hxy heq => ?_)
  have := Nat.two_pow_pos x.2
  have := Nat.two_pow_pos y.2
  unfold Apart at hxy
  omega

end Batches

/-! ## The rollback -/

/-- The batches of `l` have been given back. -/
structure Freed (s s' : State) (l : List (Nat × Nat)) : Prop where
  vmm    : s'.vmm = s.vmm
  pages  : s'.pages = s.pages
  gone   : ∀ f ∈ heads l, s'.live f = none
  others : ∀ f, f ∉ heads l → s'.live f = s.live f ∧ s'.charge f = s.charge f
  usage  : ∀ w, (∀ x ∈ l, s.charge x.1 = w) → s'.usage = subUsage s.usage w (extent l)

section Rollback

variable {s : State} {d : DomainId} {vpn n : Nat} {l : List (Nat × Nat)}

/-- **The rollback.** It goes from batch to batch and gives each back. -/
theorem rollback_prefix (d : DomainId) (vpn n fuel : Nat) (l : List (Nat × Nat)) (s : State)
    (i : Nat) (hnodup : (heads l).Nodup) (hlive : (∀ x ∈ l, s.live x.1 = some x.2))
    (hstarts : Starts s d (vpn + i) l) (hn : i + extent l ≤ n) :
    ∃ s', rollbackSparseAllocation d vpn n (fuel + l.length) s i =
      rollbackSparseAllocation d vpn n fuel s' (i + extent l) ∧ Freed s s' l := by
  induction l generalizing s i with
  | nil =>
    exact ⟨s, rfl, rfl, rfl, by simp [heads], fun _ _ => ⟨rfl, rfl⟩,
      fun w _ => (subUsage_zero s.usage w).symm⟩
  | cons x l ih =>
    obtain ⟨hx, hnodup⟩ := List.nodup_cons.mp hnodup
    have hne : ∀ y ∈ l, y.1 ≠ x.1 := fun y hy heq => hx (heq ▸ List.mem_map_of_mem hy)
    have hpos := Nat.two_pow_pos x.2
    rw [extent_cons] at hn ⊢
    have hround : rollbackSparseAllocation d vpn n (fuel + (x :: l).length) s i =
        rollbackSparseAllocation d vpn n (fuel + l.length) (s.drop x.1 x.2) (i + 2 ^ x.2) := by
      rw [List.length_cons, ← Nat.add_assoc, rollbackSparseAllocation, if_neg (by omega), hstarts.1]
      dsimp only
      rw [hlive x List.mem_cons_self]
    obtain ⟨s', hs', hfreed⟩ := ih (s.drop x.1 x.2) (i + 2 ^ x.2) hnodup
      (fun y hy => by
        show update s.live x.1 none y.1 = _
        rw [update_of_ne (hne y hy), hlive y (List.mem_cons_of_mem _ hy)])
      (by rw [← Nat.add_assoc]; exact hstarts.2.congr fun _ _ _ => rfl) (by omega)
    refine ⟨s', by rw [hround, hs', Nat.add_assoc], hfreed.vmm, hfreed.pages, fun f hf => ?_,
      ?_, ?_⟩
    · by_cases hfl : f ∈ heads l
      · exact hfreed.gone f hfl
      · have hfx : f = x.1 := (List.mem_cons.mp hf).resolve_right hfl
        rw [(hfreed.others f hfl).1, hfx]
        exact update_self ..
    · intro f hf
      obtain ⟨hfx, hfl⟩ := not_or.mp (mt List.mem_cons.mpr hf)
      obtain ⟨h1, h2⟩ := hfreed.others f hfl
      exact ⟨h1.trans (update_of_ne hfx ..), h2.trans (update_of_ne hfx ..)⟩
    · intro w hw
      rw [extent_cons, hfreed.usage w fun y hy => ?_, ← subUsage_subUsage, ← hw x
        List.mem_cons_self]
      · rfl
      · show update s.charge x.1 none y.1 = w
        rw [update_of_ne (hne y hy), hw y (List.mem_cons_of_mem _ hy)]

theorem rollback_done (fuel : Nat) (s : State) {i : Nat} (hi : n ≤ i) :
    rollbackSparseAllocation d vpn n fuel s i = some s := by
  cases fuel with
  | zero => rfl
  | succ fuel => rw [rollbackSparseAllocation, if_pos hi]

section

variable (hnodup : (heads l).Nodup) (hlive : ∀ x ∈ l, s.live x.1 = some x.2)
  (hstarts : Starts s d vpn l)
include hnodup hlive hstarts

/-- The rollback of batches that fill the whole range. -/
theorem rollback_all :
    ∃ s', rollbackSparseAllocation d vpn (extent l) (extent l) s 0 = some s' ∧ Freed s s' l := by
  obtain ⟨k, hk⟩ := Nat.exists_eq_add_of_le' (length_le_extent l)
  obtain ⟨s', hs', hfreed⟩ := rollback_prefix d vpn (extent l) k l s 0 hnodup hlive hstarts
    (by omega)
  refine ⟨s', ?_, hfreed⟩
  rw [← hk, rollback_done k s' (by omega)] at hs'
  exact hs'

/-- The rollback panics at a page whose run has been given back. -/
theorem rollback_stuck (hlt : extent l < n)
    (hpage : virtPageToPhysFrame s d (vpn + extent l) = .ok f) (hf : f ∈ heads l ∨
      s.live f = none) :
    rollbackSparseAllocation d vpn n n s 0 = none := by
  have hlen := length_le_extent l
  obtain ⟨k, hk⟩ : ∃ k, n = k + 1 + l.length := ⟨n - 1 - l.length, by omega⟩
  obtain ⟨s', hs', hfreed⟩ := rollback_prefix d vpn n (k + 1) l s 0 hnodup hlive hstarts
    (by omega)
  have hpage' := virtPageToPhysFrame_congr hpage (congrFun (congrFun hfreed.pages _) _)
  have hdead : s'.live f = none := by
    by_cases hmem : f ∈ heads l
    · exact hfreed.gone f hmem
    · rw [(hfreed.others f hmem).1, hf.resolve_left hmem]
  rw [← hk, Nat.zero_add, rollbackSparseAllocation, if_neg (by omega), hpage'] at hs'
  dsimp only at hs'
  rw [hdead] at hs'
  exact hs'

end

end Rollback

/-! ## Rounds of the loop -/

/-- A round that gets to its batch: `none` is one that the PMM reports without a frame. -/
structure Job.Round (plat : Platform) (j : Job) (s : State) (n : Nat) (written : Option Nat)
    (order : Nat) : Prop where
  lt     : n < j.count
  absent : j.batchCheck s (2 ^ batchOrder (j.count - n)) (j.vpn + n) = none
  batch  : allocateSparseFrameBatch plat.frames s.live j.owner j.allocFlags
    (batchOrder (j.count - n) + 1) = .ok (written, order)

/-- The state after a batch was mapped. -/
def Job.mapped (j : Job) (s : State) (written : Option Nat) (pfn order n : Nat) : State :=
  (s.receive written order j.owner).setPages j.domain fun p =>
    if j.vpn + n ≤ p ∧ p < j.vpn + n + 2 ^ order then some ((pfn + (p - (j.vpn + n))) % 2 ^ 40)
    else s.pages (tablesOf j.domain) p

/-- Whether the batch of a round can be mapped. -/
def Job.Maps (plat : Platform) (j : Job) (s : State) (pfn order n : Nat) : Prop :=
  checkSuccess (plat.map s.pages j.domain pfn (j.vpn + n) (2 ^ order) j.mapFlags) = true

/-- The loop asks for a batch of fewer than 32 frames for which the PMM has no run. -/
inductive Job.Starves (plat : Platform) (j : Job) : State → Nat → Prop where
  | now {s : State} {n order : Nat} (h : j.Round plat s n none order) : Starves plat j s n
  | later {s : State} {n pfn order : Nat} (h : j.Round plat s n (some pfn) order)
      (hmap : j.Maps plat s pfn order n)
      (hrest : Starves plat j (j.mapped s (some pfn) pfn order n) (n + 2 ^ order)) :
        Starves plat j s n

section Rounds

variable {plat : Platform} {j : Job} {s : State} {n order fuel pfn : Nat} {written : Option Nat}

theorem batchCheck_none : ∀ {n v : Nat}, j.batchCheck s n v = none →
    ∀ p, v ≤ p → p < v + n → s.unmapped j.domain p = true := by
  intro n
  induction n with
  | zero => intro v _ p h1 h2; omega
  | succ n ih =>
    intro v h p h1 h2
    rw [Job.batchCheck] at h
    split at h
    next hpage =>
      rcases Nat.eq_or_lt_of_le h1 with rfl | hlt
      · rw [State.unmapped, hpage]
      · exact ih h p hlt (by omega)
    next => cases h
    next => cases h

/-- The check fails with an error, or at a page that is present. -/
theorem batchCheck_some {n v : Nat} (h : j.batchCheck s n v = some e) :
    checkSuccess e = false ∨
      (e = j.taken ∧ ∃ p, v ≤ p ∧ p < v + n ∧ s.pages (tablesOf j.domain) p ≠ none) := by
  induction n generalizing v with
  | zero => cases h
  | succ n ih =>
    rw [Job.batchCheck] at h
    split at h
    next =>
      rcases ih h with he | ⟨he, p, h1, h2, hp⟩
      · exact .inl he
      · exact .inr ⟨he, p, by omega, by omega, hp⟩
    next e' hne hpage =>
      cases h
      unfold virtPageToPhysFrame at hpage
      split_ifs at hpage
      · exact .inl (Except.error.inj hpage ▸ rfl)
      · exact .inl (Except.error.inj hpage ▸ rfl)
      · split at hpage
        · exact .inl (Except.error.inj hpage ▸ rfl)
        · cases hpage
    next f hpage =>
      have hp := (virtPageToPhysFrame_ok.mp hpage).2.2
      exact .inr ⟨(Option.some.inj h).symm, v, le_refl v, by omega, by rw [hp]; simp⟩

theorem allocateSparseFrameBatch_ok {k : Nat}
    (h : allocateSparseFrameBatch frames live owner af k = .ok (written, order)) :
    order < k ∧ frames.allocate live order owner (af &&& ~~~afAlignMask) = .ok written := by
  induction k with
  | zero => cases h
  | succ k ih =>
    rw [allocateSparseFrameBatch] at h
    split at h
    next w hw =>
      cases h
      exact ⟨Nat.lt_succ_self _, hw⟩
    next e he =>
      split at h
      · cases h
      · obtain ⟨hlt, hok⟩ := ih h
        exact ⟨by omega, hok⟩

theorem allocateSparseFrameBatch_error {k : Nat}
    (h : allocateSparseFrameBatch frames live owner af k = .error e) : checkSuccess e = false := by
  induction k with
  | zero => exact Except.error.inj h ▸ rfl
  | succ k ih =>
    rw [allocateSparseFrameBatch] at h
    split at h
    next => cases h
    next e' he =>
      split at h
      · exact Except.error.inj h ▸ frames.failure _ _ _ _ _ he
      · exact ih h

theorem receive_pages (s : State) (written : Option Nat) (order : Nat) (owner : Option Nat) :
    (s.receive written order owner).pages = s.pages := by
  cases written <;> rfl

theorem Job.Round.fits (h : j.Round plat s n written order) : n + 2 ^ order ≤ j.count ∧
    (∀ p, j.vpn + n ≤ p → p < j.vpn + n + 2 ^ order → s.unmapped j.domain p = true) ∧
    plat.frames.allocate s.live order j.owner (j.allocFlags &&& ~~~afAlignMask) = .ok written := by
  obtain ⟨hlt, hok⟩ := allocateSparseFrameBatch_ok h.batch
  have hpow : 2 ^ order ≤ 2 ^ batchOrder (j.count - n) :=
    Nat.pow_le_pow_right (by decide) (Nat.le_of_lt_succ hlt)
  have hself := Nat.log2_self_le (n := j.count - n) (by have := h.lt; omega)
  have := h.lt
  exact ⟨by unfold batchOrder at hpow; omega,
    fun p h1 h2 => batchCheck_none h.absent p h1 (by omega), hok⟩

/-- A run that is handed out was not in use. -/
theorem Job.Round.free (h : j.Round plat s n (some pfn) order) : s.live pfn = none := by
  cases hlive : s.live pfn with
  | none => rfl
  | some o =>
    have := (plat.frames.fresh _ _ _ _ _ h.fits.2.2).2 _ _ hlive
    have := Nat.two_pow_pos o
    have := Nat.two_pow_pos order
    omega

theorem Job.Round.fill_succ (h : j.Round plat s n written order) (fuel pfn : Nat) :
    j.fill plat (fuel + 1) s n pfn =
      if checkSuccess (plat.map s.pages j.domain (written.getD pfn) (j.vpn + n) (2 ^ order)
        j.mapFlags) = true
      then j.fill plat fuel (j.mapped s written (written.getD pfn) order n) (n + 2 ^ order)
        (written.getD pfn)
      else (stPmmFreeContiguousFrame (s.receive written order j.owner) (written.getD pfn)).map
        fun t =>
        ⟨some (plat.map s.pages j.domain (written.getD pfn) (j.vpn + n) (2 ^ order) j.mapFlags), n,
          t⟩ := by
  rw [Job.fill, if_neg (Nat.not_le_of_gt h.lt), h.absent]
  rw [h.batch]
  dsimp only
  unfold mapContiguousMemory
  rw [receive_pages]
  generalize plat.map s.pages j.domain (written.getD pfn) (j.vpn + n) (2 ^ order) j.mapFlags = st
  by_cases h : checkSuccess st = true
  · simp only [if_pos h]
    rfl
  · simp only [if_neg h]

/-- A round ends the loop, fails before its batch, or gets to it. -/
theorem fill_cases (plat : Platform) (j : Job) (s : State) (n fuel pfn : Nat) :
    (j.count ≤ n ∧ j.fill plat (fuel + 1) s n pfn = some ⟨none, n, s⟩) ∨
      (∃ e, j.fill plat (fuel + 1) s n pfn = some ⟨some e, n, s⟩ ∧
        (checkSuccess e = false ∨ (e = j.taken ∧ ∃ p, j.vpn + n ≤ p ∧ p < j.vpn + j.count ∧
          s.pages (tablesOf j.domain) p ≠ none))) ∨
      ∃ written order, j.Round plat s n written order := by
  by_cases hn : j.count ≤ n
  · exact .inl ⟨hn, by rw [Job.fill, if_pos hn]⟩
  refine .inr ?_
  cases hcheck : j.batchCheck s (2 ^ batchOrder (j.count - n)) (j.vpn + n) with
  | some e =>
    refine .inl ⟨e, by rw [Job.fill, if_neg hn, hcheck], ?_⟩
    refine (batchCheck_some hcheck).imp_right fun ⟨he, p, h1, h2, hp⟩ => ⟨he, p, h1, ?_, hp⟩
    have := Nat.log2_self_le (n := j.count - n) (by omega)
    unfold batchOrder at h2
    omega
  | none =>
    cases hbatch : allocateSparseFrameBatch plat.frames s.live j.owner j.allocFlags
        (batchOrder (j.count - n) + 1) with
    | error e =>
      refine .inl ⟨e, ?_, .inl (allocateSparseFrameBatch_error hbatch)⟩
      rw [Job.fill, if_neg hn, hcheck]
      rw [hbatch]
    | ok x => exact .inr ⟨x.1, x.2, by omega, hcheck, hbatch⟩

theorem mapped_tables (j : Job) (s : State) (written : Option Nat) (pfn order n : Nat)
    {t : Option Nat}
    (ht : t ≠ tablesOf j.domain) : (j.mapped s written pfn order n).pages t = s.pages t := by
  rw [← receive_pages s written order j.owner]
  exact update_of_ne ht ..

theorem mapped_page (j : Job) (s : State) (written : Option Nat) (pfn order n p : Nat) :
    (j.mapped s written pfn order n).pages (tablesOf j.domain) p =
      if j.vpn + n ≤ p ∧ p < j.vpn + n + 2 ^ order then some ((pfn + (p - (j.vpn + n))) % 2 ^ 40)
      else s.pages (tablesOf j.domain) p := by
  show update (s.receive written order j.owner).pages (tablesOf j.domain) _ _ p = _
  rw [update_self]

/-- Pages before the batch stay as they are. -/
theorem mapped_before (j : Job) (s : State) (written : Option Nat) (pfn order n : Nat)
    (hp : p < j.vpn + n) : (j.mapped s written pfn order n).pages (tablesOf j.domain) p =
      s.pages (tablesOf j.domain) p := by
  rw [mapped_page, if_neg (by omega)]

end Rounds

/-! ## What a loop has done so far -/

/-- Runs of frames mapped since an earlier pair of maps, in `[first, limit)` and clear of the
hole. -/
structure Backs (m₀ live₀ m live : Nat → Option Nat) (first limit : Nat) (R : Set FrameRun) :
    Prop where
  backed : Backed m₀ live₀ m live R
  inside : ∀ r ∈ R, first ≤ r.page ∧ r.limit ≤ limit
  clear  : ∀ r ∈ R, clearOfHole r.page (2 ^ r.order) = true

/-- A run that is not in use, mapped where no page has a frame. -/
theorem Backs.add {m₀ live₀ m live m' : Nat → Option Nat} {first limit limit' : Nat}
    {R : Set FrameRun} {r : FrameRun} (h : Backs m₀ live₀ m live first limit R)
      (hle : limit ≤ limit')
    (hr : first ≤ r.page ∧ r.limit ≤ limit') (hclear : clearOfHole r.page (2 ^ r.order) = true)
    (hfree : live r.frame = none) (hbare : ∀ p, r.Has p → m p = none)
    (hm : ∀ p, r.Has p → m' p = some (r.frame + (p - r.page)))
    (hmElse : ∀ p, ¬ r.Has p → m' p = m p) :
    Backs m₀ live₀ m' (update live r.frame (some r.order)) first limit' (insert r R) := by
  refine ⟨h.backed.add hfree hbare hm hmElse rfl, ?_, ?_⟩
  · rintro a (rfl | ha)
    · exact hr
    · exact ⟨(h.inside a ha).1, (h.inside a ha).2.trans hle⟩
  · rintro a (rfl | ha)
    · exact hclear
    · exact h.clear a ha

/-- Since `s₀` the batches of `l`, and no others, were taken and mapped from the first page on. -/
structure Filling (s₀ s : State) (j : Job) (l : List (Nat × Nat)) : Prop where
  vmm     : s.vmm = s₀.vmm
  tables  : ∀ t, t ≠ tablesOf j.domain → s.pages t = s₀.pages t
  outside : ∀ p, p < j.vpn ∨ j.vpn + extent l ≤ p →
              s.pages (tablesOf j.domain) p = s₀.pages (tablesOf j.domain) p
  bare    : ∀ p, j.vpn ≤ p → p < j.vpn + extent l → s₀.pages (tablesOf j.domain) p = none
  tiled   : Tiled s j.domain j.vpn l
  ends    : l ≠ [] → onSide j.domain j.vpn = true ∧ j.vpn ≤ virtPageMax ∧
              clearOfHole j.vpn (extent l) = true
  apart   : l.Pairwise Apart
  fresh   : ∀ x ∈ l, x.1 + 2 ^ x.2 ≤ frameLimit ∧ ∀ base o, s₀.live base = some o →
      Apart (base, o) x
  inUse   : ∀ x ∈ l, s.live x.1 = some x.2 ∧ s.charge x.1 = j.owner
  others  : ∀ f, f ∉ heads l → s.live f = s₀.live f ∧
              (s₀.live f ≠ none → s.charge f = s₀.charge f)
  usage   : s.usage = addUsage s₀.usage j.owner (extent l)
  backs   : ∃ R, Backs (s₀.pages (tablesOf j.domain)) s₀.live (s.pages (tablesOf j.domain)) s.live
              j.vpn (j.vpn + extent l) R

section Filling

variable {plat : Platform} {j : Job} {s₀ s : State} {l : List (Nat × Nat)} {pfn order : Nat}

theorem Filling.start (s : State) (j : Job) : Filling s s j [] :=
  ⟨rfl, fun _ _ => rfl, fun _ _ => rfl, fun p h1 h2 => by rw [extent_nil] at h2; omega, trivial,
    fun h => absurd rfl h, .nil, by simp, by simp, fun _ _ => ⟨rfl, fun _ => rfl⟩,
    (addUsage_zero _ _).symm, ∅, Backed.empty _ _, by simp, by simp⟩

theorem Filling.wasFree (h : Filling s₀ s j l) (hf : f ∈ heads l) : s₀.live f = none := by
  obtain ⟨x, hx, rfl⟩ := List.mem_map.mp hf
  cases hlive : s₀.live x.1 with
  | none => rfl
  | some o =>
    have := (h.fresh x hx).2 _ _ hlive
    have := Nat.two_pow_pos o
    have := Nat.two_pow_pos x.2
    dsimp only [Apart] at *
    omega

theorem clearOfHole_append {v a b : Nat} (h1 : a = 0 ∨ clearOfHole v a = true)
    (h2 : clearOfHole (v + a) b = true) : clearOfHole v (a + b) = true := by
  unfold clearOfHole at *
  simp only [Bool.and_eq_true, Bool.not_eq_true', decide_eq_false_iff_not] at *
  rcases h1 with rfl | h1
  · simpa using h2
  · refine ⟨h1.1, ?_⟩
    rw [← Nat.add_assoc]
    exact h2.2

/-- A run of fresh frames that was mapped behind the others joins them. -/
theorem Filling.map (h : Filling s₀ s j l) (hr : j.Round plat s (extent l) (some pfn) order)
    (hmap : j.Maps plat s pfn order (extent l)) :
    Filling s₀ (j.mapped s (some pfn) pfn order (extent l)) j (l ++ [(pfn, order)]) := by
  obtain ⟨-, habsent, hbatch⟩ := hr.fits
  obtain ⟨hphys, hfresh⟩ := plat.frames.fresh _ _ _ _ _ hbatch
  obtain ⟨hside, hmax, hclear⟩ := plat.accepted _ _ _ _ _ _ hmap
  have hpos := Nat.two_pow_pos order
  have hlim : frameLimit ≤ 2 ^ 40 := by decide
  have hext : extent (l ++ [(pfn, order)]) = extent l + 2 ^ order := by simp
  have hheads : heads (l ++ [(pfn, order)]) = heads l ++ [pfn] := List.map_append
  have hnew : ∀ x ∈ l, x.1 ≠ pfn := by
    intro x hx heq
    have := (h.inUse x hx).1
    rw [heq, hr.free] at this
    cases this
  refine ⟨h.vmm, fun t ht => ?_, fun p hp => ?_, fun p h1 h2 => ?_, ?_, fun _ => ?_, ?_, ?_, ?_,
    ?_, ?_, ?_⟩
  · rw [mapped_tables _ _ _ _ _ _ ht, h.tables t ht]
  · rw [mapped_page, if_neg (by omega), h.outside p (by omega)]
  · by_cases hp : p < j.vpn + extent l
    · exact h.bare p h1 hp
    · rw [← h.outside p (by omega)]
      exact (unmapped_iff.mp (habsent p (by omega) (by omega))).2.2
  · refine (h.tiled.congr fun p _ hp => mapped_before _ _ _ _ _ _ hp).append
      ⟨⟨hside, hmax, fun k hk => ?_⟩, trivial⟩
    have hlt : k < 2 ^ order := hk
    rw [mapped_page, if_pos ⟨by omega, by omega⟩, Nat.add_sub_cancel_left,
      Nat.mod_eq_of_lt (by omega)]
  · rw [hext]
    by_cases hl : l = []
    · subst hl
      exact ⟨hside, by rw [extent_nil] at hmax; omega, clearOfHole_append (.inl rfl) hclear⟩
    · obtain ⟨h1, h2, h3⟩ := h.ends hl
      exact ⟨h1, h2, clearOfHole_append (.inr h3) hclear⟩
  · refine List.pairwise_append.mpr ⟨h.apart, List.pairwise_singleton _ _, fun x hx y hy => ?_⟩
    rw [List.mem_singleton.mp hy]
    exact hfresh _ _ (h.inUse x hx).1
  · intro x hx
    rcases List.mem_append.mp hx with hx | hx
    · exact h.fresh x hx
    · rw [List.mem_singleton.mp hx]
      refine ⟨hphys, fun base o hlive => hfresh base o ?_⟩
      rw [(h.others base fun hb => ?_).1, hlive]
      rw [h.wasFree hb] at hlive
      cases hlive
  · intro x hx
    show update s.live pfn (some order) x.1 = _ ∧ update s.charge pfn j.owner x.1 = _
    rcases List.mem_append.mp hx with hx | hx
    · rw [update_of_ne (hnew x hx), update_of_ne (hnew x hx)]
      exact h.inUse x hx
    · rw [List.mem_singleton.mp hx, update_self, update_self]
      exact ⟨rfl, rfl⟩
  · intro f hf
    rw [hheads, List.mem_append, not_or, List.mem_singleton] at hf
    obtain ⟨h1, h2⟩ := h.others f hf.1
    exact ⟨(update_of_ne hf.2 ..).trans h1,
      fun hlive => (update_of_ne hf.2 ..).trans (h2 hlive)⟩
  · show addUsage s.usage j.owner (2 ^ order) = _
    rw [h.usage, addUsage_addUsage, hext]
  · obtain ⟨R, hR⟩ := h.backs
    have hend : FrameRun.limit ⟨j.vpn + extent l, pfn, order⟩ ≤
        j.vpn + extent (l ++ [(pfn, order)]) := by rw [hext, ← Nat.add_assoc]; exact le_rfl
    refine ⟨_, hR.add (r := ⟨j.vpn + extent l, pfn, order⟩) (by omega) ⟨Nat.le_add_right _ _, hend⟩
      hclear hr.free (fun p hp => (unmapped_iff.mp (habsent p hp.1 hp.2)).2.2) (fun p hp => ?_)
      fun p hp => ?_⟩
    · have h1 : j.vpn + extent l ≤ p := hp.1
      have h2 : p < j.vpn + extent l + 2 ^ order := hp.2
      rw [mapped_page, if_pos ⟨h1, h2⟩, Nat.mod_eq_of_lt (by omega)]
    · rw [mapped_page]
      exact if_neg hp

theorem Filling.head_lt (h : Filling s₀ s j l) (hf : f ∈ heads l) : f < frameLimit := by
  obtain ⟨x, hx, rfl⟩ := List.mem_map.mp hf
  have := (h.fresh x hx).1
  have := Nat.two_pow_pos x.2
  omega

end Filling

/-! ## The property -/

/-- The frame belongs to a run in use. -/
def State.InUse (s : State) (f : Nat) : Prop :=
  ∃ base o, s.live base = some o ∧ base ≤ f ∧ f < base + 2 ^ o

/-- All runs in use are frames that exist. -/
def State.Physical (s : State) : Prop := ∀ base o, s.live base = some o → base + 2 ^ o ≤ frameLimit

/-- A success: `count` more pages are present, each with a frame of its own that was not in use. -/
structure Served (s s' : State) (d : DomainId) (vpn count : Nat) : Prop where
  present  : ∀ p, vpn ≤ p → p < vpn + count →
    s.pages (tablesOf d) p = none ∧ s'.pages (tablesOf d) p ≠ none
  distinct : ∀ p q, vpn ≤ p → p < q → q < vpn + count →
    s'.pages (tablesOf d) p ≠ s'.pages (tablesOf d) q
  new      : ∀ p f, vpn ≤ p → p < vpn + count → s'.pages (tablesOf d) p = some f →
    s'.InUse f ∧ ¬ s.InUse f
  others   : ∀ t p, t ≠ tablesOf d ∨ p < vpn ∨ vpn + count ≤ p → s'.pages t p = s.pages t p
  kept     : ∀ f o, s.live f = some o → s'.live f = some o

/-- The same pages, runs in use and page counts of owners. -/
structure SameMemory (s s' : State) : Prop where
  pages   : s'.pages = s.pages
  runs    : s'.live = s.live
  charges : ∀ f, s.live f ≠ none → s'.charge f = s.charge f
  usage   : s'.usage = s.usage

/-- A failure: nothing has changed. -/
structure Restored (s s' : State) : Prop where
  domains : SameDomains s.vmm s'.vmm
  memory  : SameMemory s s'

section Ends

variable {plat : Platform} {j : Job} {s₀ s : State} {l : List (Nat × Nat)}

/-- The loop ends with all pages. -/
theorem Filling.served (h : Filling s₀ s j l) (hl : extent l = j.count) :
    Served s₀ s j.domain j.vpn j.count := by
  rw [← hl]
  refine ⟨fun p h1 h2 => ⟨h.bare p h1 h2, ?_⟩, fun p q h1 h2 h3 =>
    h.tiled.distinct h.apart h1 h2 h3, fun p f h1 h2 hf => ?_, fun t p hp => ?_,
    fun f o hlive => ?_⟩
  · obtain ⟨x, -, k, -, hpage⟩ := h.tiled.exists_batch h1 h2
    rw [hpage]
    simp
  · obtain ⟨x, hx, k, hk, hpage⟩ := h.tiled.exists_batch h1 h2
    obtain rfl : f = x.1 + k := by
      rw [hf] at hpage
      exact Option.some.inj hpage
    refine ⟨⟨x.1, x.2, (h.inUse x hx).1, by omega, by omega⟩, ?_⟩
    rintro ⟨base, o, hlive, hb1, hb2⟩
    have := (h.fresh x hx).2 _ _ hlive
    dsimp only [Apart] at this
    omega
  · by_cases ht : t = tablesOf j.domain
    · subst ht
      exact h.outside p (hp.resolve_left fun hne => hne rfl)
    · rw [h.tables t ht]
  · rw [(h.others f fun hf => ?_).1, hlive]
    rw [h.wasFree hf] at hlive
    cases hlive

theorem unmapPages_mapped {n : Nat} {m : Nat → Option Nat} {vpn : Nat}
    (h : (∀ p, vpn ≤ p → p < vpn + n → (m p).isSome = true)) :
    ∃ m', unmapPages n m vpn = some m' ∧ (∀ p, vpn ≤ p → p < vpn + n → m' p = none) ∧
      ∀ p, ¬ (vpn ≤ p ∧ p < vpn + n) → m' p = m p := by
  induction n generalizing m vpn with
  | zero =>
    exact ⟨m, rfl, fun p h1 h2 => by omega, fun p _ => rfl⟩
  | succ n ih =>
    rw [unmapPages, if_pos (h vpn le_rfl (by omega))]
    obtain ⟨m', heq, hin, hout⟩ := @ih (update m vpn none) (vpn + 1) fun p h1 h2 => by
      rw [update_of_ne (by omega)]
      exact h p (by omega) (by omega)
    refine ⟨m', heq, fun p h1 h2 => ?_, fun p hp => ?_⟩
    · rcases eq_or_ne p vpn with rfl | hne
      · rw [hout p (by omega), update_self]
      · exact hin p (by omega) (by omega)
    · rw [hout p (by omega), update_of_ne (by omega)]

/-- Pages that are all present are unmapped, and no others. -/
theorem unmapContiguousMemory_mapped {d : DomainId} {vpn n : Nat} (hside : onSide d vpn = true)
    (hmax : vpn ≤ virtPageMax) (hclear : clearOfHole vpn n = true)
    (h : ∀ p, vpn ≤ p → p < vpn + n → (s.pages (tablesOf d) p).isSome = true) :
    ∃ m, unmapContiguousMemory s d vpn n = some (s.setPages d m) ∧
      (∀ p, vpn ≤ p → p < vpn + n → m p = none) ∧
      ∀ p, ¬ (vpn ≤ p ∧ p < vpn + n) → m p = s.pages (tablesOf d) p := by
  obtain ⟨m, hm, hin, hout⟩ := unmapPages_mapped h
  refine ⟨m, ?_, hin, hout⟩
  rw [unmapContiguousMemory, if_neg (by simp [hside]), if_neg (by omega),
    if_neg (by simp [hclear]), hm]
  rfl

theorem unmapContiguousMemory_zero (s : State) (d : DomainId) (vpn : Nat) :
    unmapContiguousMemory s d vpn 0 = some s := by
  unfold unmapContiguousMemory
  split_ifs
  · rfl
  · rfl
  · rfl
  · rw [unmapPages, Option.map_some, State.setPages, update_eq_self]

/-- **A failed loop leaves nothing.** Its batches go back to the PMM and its pages are unmapped. -/
theorem Filling.undo (h : Filling s₀ s j l) : ∃ s', j.undo (extent l) s = some s' ∧
    s'.vmm = s₀.vmm ∧ SameMemory s₀ s' := by
  obtain ⟨s1, hroll, hfreed⟩ := rollback_all (nodup_heads h.apart) (fun x hx => (h.inUse x hx).1)
    h.tiled.starts
  have hlive : s1.live = s₀.live := by
    funext f
    by_cases hf : f ∈ heads l
    · rw [hfreed.gone f hf, h.wasFree hf]
    · rw [(hfreed.others f hf).1, (h.others f hf).1]
  have hcharge : ∀ f, s₀.live f ≠ none → s1.charge f = s₀.charge f := by
    intro f hf
    have hno : f ∉ heads l := fun hmem => hf (h.wasFree hmem)
    rw [(hfreed.others f hno).2, (h.others f hno).2 hf]
  have husage : s1.usage = s₀.usage := by
    rw [hfreed.usage j.owner fun x hx => (h.inUse x hx).2, h.usage, subUsage_addUsage]
  rw [Job.undo, hroll, Option.bind_some]
  by_cases hl : l = []
  · subst hl
    refine ⟨s1, unmapContiguousMemory_zero _ _ _, hfreed.vmm.trans h.vmm, ?_, hlive, hcharge,
      husage⟩
    rw [hfreed.pages]
    funext t p
    by_cases ht : t = tablesOf j.domain
    · rw [ht]
      exact h.outside p (by rw [extent_nil]; omega)
    · rw [h.tables t ht]
  obtain ⟨hside, hmax, hclear⟩ := h.ends hl
  obtain ⟨m, hm, hin, hout⟩ :=
    unmapContiguousMemory_mapped (s := s1) hside hmax hclear fun p h1 h2 => by
    obtain ⟨x, -, k, -, hpage⟩ := h.tiled.exists_batch h1 h2
    rw [hfreed.pages, hpage]
    rfl
  refine ⟨s1.setPages j.domain m, hm, hfreed.vmm.trans h.vmm, ?_, hlive, hcharge, husage⟩
  · funext t p
    show update s1.pages (tablesOf j.domain) m t p = _
    by_cases ht : t = tablesOf j.domain
    · subst ht
      rw [update_self]
      by_cases hp : j.vpn ≤ p ∧ p < j.vpn + extent l
      · rw [hin p hp.1 hp.2, h.bare p hp.1 hp.2]
      · rw [hout p hp, hfreed.pages, h.outside p (by omega)]
    · rw [update_of_ne ht, hfreed.pages, h.tables t ht]

end Ends

end FoliOS.Strata.Mm.Sparse
