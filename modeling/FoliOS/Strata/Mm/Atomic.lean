import FoliOS.Strata.Mm.Rollback

/-!
# Strata — sparse allocation is all or nothing while the PMM serves it

The loop that fills pages takes a success of the PMM for a run of frames, also where none was found
and `*pfn` still has the frame number of the batch before.

* `fill_served`  — while every batch has frames, the loop ends with all pages, or fails with what it
  has done so far on its list.
* `fill_starved` — after a batch of no frames two pages share a frame (`Tainted`), and a failure
  meets a run that was given back already (`Doomed`).
* `sparse_atomic_iff` — the calls succeed with a fresh frame on every page or fail without a trace,
  exactly if the PMM has a run for every small batch they ask for.
-/

namespace FoliOS.Strata.Mm.Sparse

open Paging (isGlobalVpn isLocalVpn virtPageMax)
open Pmm (frameLimit)
open Function Vmm

variable {st e : StStatus} {vmm : Vmm.State} {req : Request} {range : Except StStatus (Nat × Nat)}
  {info : Except StStatus PageInfo} {s : State} {n : Nat}

/-! ## A batch of no frames -/

/-- The batches of `l` are there, and behind them a page of frame `f`. -/
structure Follows (j : Job) (s : State) (n : Nat) (l : List (Nat × Nat)) (f : Nat) : Prop where
  nodup  : (heads l).Nodup
  inUse  : ∀ x ∈ l, s.live x.1 = some x.2
  starts : Starts s j.domain j.vpn l
  lt     : extent l < n
  page   : virtPageToPhysFrame s j.domain (j.vpn + extent l) = .ok f

/-- The rollback is going to meet a run that is not in use. -/
def Doomed (j : Job) (s : State) (n : Nat) : Prop :=
  ∃ l f, Follows j s n l f ∧ (f ∈ heads l ∨ s.live f = none)

/-- A page has the frame of an earlier batch, or one that does not exist. -/
structure Tainted (j : Job) (s : State) (n : Nat) : Prop where
  stale    : ∃ l f, Follows j s n l f ∧ (f ∈ heads l ∨ frameLimit ≤ f)
  physical : s.Physical
  le       : n ≤ j.count

/-- How the loop ends after a batch of no frames. -/
def Spoiled (j : Job) : Option Progress → Prop
  | none => True
  | some ⟨none, n, s⟩ => Tainted j s n
  | some ⟨some _, n, s⟩ => Doomed j s n

section Spoiled

variable {plat : Platform} {j : Job} {s0 s : State} {n f g o order pfn : Nat} {l : List (Nat × Nat)}
  {written : Option Nat}

theorem Follows.congr {s' : State} {n' : Nat} (hl : Follows j s n l f)
    (hlive : ∀ x ∈ l, s.live x.1 = some x.2 → s'.live x.1 = some x.2)
    (hpages : ∀ p < j.vpn + n, s'.pages (tablesOf j.domain) p = s.pages (tablesOf j.domain) p)
    (hn : n ≤ n') : Follows j s' n' l f := by
  have hlt := hl.lt
  exact ⟨hl.nodup, fun x hx => hlive x hx (hl.inUse x hx),
    hl.starts.congr fun p _ hp => hpages p (by omega), by omega,
    virtPageToPhysFrame_congr hl.page (hpages _ (by omega))⟩

theorem Doomed.undo (h : Doomed j s n) : j.undo n s = none := by
  obtain ⟨l, f, hl, hf⟩ := h
  rw [Job.undo, rollback_stuck hl.nodup hl.inUse hl.starts hl.lt hl.page hf]
  rfl

theorem State.Physical.none (h : s.Physical) (hf : frameLimit ≤ f) : s.live f = none := by
  cases hlive : s.live f with
  | none => rfl
  | some o =>
    have := h f o hlive
    have := Nat.two_pow_pos o
    omega

theorem Tainted.doomed (h : Tainted j s n) : Doomed j s n := by
  obtain ⟨l, f, hl, hf⟩ := h.stale
  exact ⟨l, f, hl, hf.imp_right h.physical.none⟩

/-- The batches of `l` without the run of one of them. -/
theorem doomed_drop (hnodup : (heads l).Nodup) (hlive : ∀ x ∈ l, s.live x.1 = some x.2)
    (hstarts : Starts s j.domain j.vpn l) (hle : extent l ≤ n) (hg : g ∈ heads l) (o : Nat) :
    Doomed j (s.drop g o) n := by
  obtain ⟨x, hx, rfl⟩ := List.mem_map.mp hg
  obtain ⟨a, b, rfl⟩ := List.append_of_mem hx
  have hpos := Nat.two_pow_pos x.2
  obtain ⟨ha, hb⟩ := hstarts.split
  rw [extent_append, extent_cons] at hle
  rw [heads, List.map_append, List.nodup_append] at hnodup
  refine ⟨a, x.1, ⟨hnodup.1, fun y hy => ?_, ha.congr fun _ _ _ => rfl, by omega, hb.1⟩,
    .inr (update_self ..)⟩
  have hne : y.1 ≠ x.1 := hnodup.2.2 _ (List.mem_map_of_mem hy) _ List.mem_cons_self
  show update s.live x.1 none y.1 = _
  rw [update_of_ne hne, hlive y (List.mem_append_left _ hy)]

/-- Giving back a run does not help. -/
theorem Doomed.drop (h : Doomed j s n) (g o : Nat) : Doomed j (s.drop g o) n := by
  obtain ⟨l, f, hl, hf⟩ := h
  by_cases hg : g ∈ heads l
  · exact doomed_drop hl.nodup hl.inUse hl.starts hl.lt.le hg o
  · refine ⟨l, f, hl.congr (fun x hx => ?_) (fun _ _ => rfl) le_rfl, hf.imp_right fun hdead => ?_⟩
    · have hne : x.1 ≠ g := fun heq => hg (heq ▸ List.mem_map_of_mem hx)
      exact (update_of_ne hne ..).trans
    · show update s.live g none f = none
      by_cases hfg : f = g
      · rw [hfg, update_self]
      · rw [update_of_ne hfg, hdead]

theorem receive_live (h : j.Round plat s n written order) (hf : s.live f = some o) :
    (s.receive written order j.owner).live f = some o := by
  cases written with
  | none => exact hf
  | some pfn =>
    have hne : f ≠ pfn := by
      rintro rfl
      rw [h.free] at hf
      cases hf
    exact (update_of_ne hne ..).trans hf

theorem receive_physical (h : j.Round plat s n written order) (hs : s.Physical) :
    (s.receive written order j.owner).Physical := by
  cases written with
  | none => exact hs
  | some pfn =>
    intro base o hlive
    by_cases hb : base = pfn
    · subst hb
      obtain rfl : order = o := by
        have : update s.live base (some order) base = some o := hlive
        rw [update_self] at this
        exact Option.some.inj this
      exact (plat.frames.fresh _ _ _ _ _ h.fits.2.2).1
    · exact hs base o ((update_of_ne hb ..).symm.trans hlive)

/-- **No way back.** Whatever the loop does after a batch of no frames. -/
theorem fill_tainted (plat : Platform) : ∀ (fuel : Nat) {s : State} {n : Nat} (pfn : Nat),
    Tainted j s n → Spoiled j (j.fill plat fuel s n pfn) := by
  intro fuel
  induction fuel with
  | zero => exact fun _ h => h
  | succ fuel ih =>
    intro s n pfn h
    rcases fill_cases plat j s n fuel pfn with ⟨-, heq⟩ | ⟨e, heq, -⟩ | ⟨written, order, hr⟩
    · rw [heq]
      exact h
    · rw [heq]
      exact h.doomed
    · have hphys := receive_physical hr h.physical
      obtain ⟨l, f, hl, hf⟩ := h.stale
      rw [hr.fill_succ]
      split
      · refine ih _ ⟨⟨l, f, hl.congr (fun x _ => receive_live hr) ?_ (Nat.le_add_right ..), hf⟩,
          hphys, hr.fits.1⟩
        exact fun p hp => mapped_before _ _ _ _ _ _ hp
      · rw [stPmmFreeContiguousFrame]
        cases (s.receive written order j.owner).live (written.getD pfn) with
        | none => trivial
        | some o =>
          have hdoomed : Doomed j (s.receive written order j.owner) n :=
            ⟨l, f, hl.congr (fun x _ => receive_live hr) (fun p _ => by rw [receive_pages]) le_rfl,
              hf.imp_right hphys.none⟩
          exact hdoomed.drop _ o

/-- The frame number a batch of no frames is mapped with. -/
def Stale (l : List (Nat × Nat)) (pfn : Nat) : Prop := (l = [] ∧ pfn = unsetFrame) ∨ pfn ∈ heads l

/-- **The PMM runs dry.** -/
theorem fill_starved (h : j.Starves plat s n) {fuel : Nat} (hl : Filling s0 s j l)
    (hn : n = extent l) (hphys : s.Physical) (hstale : Stale l pfn) (hfuel : j.count ≤ n + fuel) :
    Spoiled j (j.fill plat fuel s n pfn) := by
  induction h generalizing fuel l pfn with
  | @now s n order hr =>
    have hlt := hr.lt
    obtain ⟨fuel, rfl⟩ : ∃ k, fuel = k + 1 := ⟨fuel - 1, by omega⟩
    have hlive : ∀ x ∈ l, s.live x.1 = some x.2 := fun x hx => (hl.inUse x hx).1
    rw [hr.fill_succ, Option.getD_none]
    split
    next hmap =>
      -- the page behind the batches gets the frame number that was left
      obtain ⟨hside, hmax, -⟩ := plat.accepted _ _ _ _ _ _ hmap
      have hpos := Nat.two_pow_pos order
      refine fill_tainted plat fuel pfn ⟨⟨l, pfn % 2 ^ 40, ⟨nodup_heads hl.apart, hlive,
        hl.tiled.starts.congr fun p _ hp => mapped_before _ _ _ _ _ _ (by omega), by omega, ?_⟩,
        ?_⟩, hphys, hr.fits.1⟩
      · rw [← hn]
        refine virtPageToPhysFrame_ok.mpr ⟨hside, by omega, ?_⟩
        rw [mapped_page, if_pos ⟨le_rfl, by omega⟩, Nat.sub_self, Nat.add_zero]
      · rcases hstale with ⟨-, rfl⟩ | hmem
        · exact .inr (by decide)
        · have hlim : frameLimit ≤ 2 ^ 40 := by decide
          have := hl.head_lt hmem
          rw [Nat.mod_eq_of_lt (by omega)]
          exact .inl hmem
    next =>
      -- the run of the batch before is given back under the loop's feet
      show Spoiled j ((stPmmFreeContiguousFrame s pfn).map _)
      rw [stPmmFreeContiguousFrame]
      rcases hstale with ⟨-, rfl⟩ | hmem
      · rw [hphys.none (by decide)]
        trivial
      · cases s.live pfn with
        | none => trivial
        | some o => exact doomed_drop (nodup_heads hl.apart) hlive hl.tiled.starts hn.ge hmem o
  | @later s n pfn' order hr hmap hrest ih =>
    have hlt := hr.lt
    have hpos := Nat.two_pow_pos order
    obtain ⟨fuel, rfl⟩ : ∃ k, fuel = k + 1 := ⟨fuel - 1, by omega⟩
    have hok :
        checkSuccess (plat.map s.pages j.domain pfn' (j.vpn + n) (2 ^ order) j.mapFlags) = true :=
      hmap
    rw [hr.fill_succ, Option.getD_some, if_pos hok]
    subst hn
    exact ih (hl.map hr hmap) (by simp) (receive_physical hr hphys)
      (.inr (List.mem_map_of_mem (List.mem_append_right _ List.mem_cons_self))) (by omega)

/-- Two pages with one frame, or a page without any. -/
theorem Tainted.not_served (h : Tainted j s n) : ¬ Served s0 s j.domain j.vpn j.count := by
  intro hserved
  obtain ⟨l, f, hl, hf⟩ := h.stale
  have hlt := hl.lt
  have hle := h.le
  have hpage := (virtPageToPhysFrame_ok.mp hl.page).2.2
  rcases hf with hmem | hlim
  · obtain ⟨p, h1, h2, hp⟩ := hl.starts.exists_page hmem
    exact hserved.distinct p _ h1 h2 (by omega) (hp.trans hpage.symm)
  · obtain ⟨⟨base, o, hlive, -, hb⟩, -⟩ := hserved.new _ f (by omega) (by omega) hpage
    have := h.physical base o hlive
    omega

end Spoiled

/-! ## Whole loops -/

section Loops

variable {plat : Platform} {j : Job} {s0 s : State} {l : List (Nat × Nat)} {pfn order : Nat}

/-- A batch that could not be mapped goes back at once. -/
theorem Filling.returned (h : Filling s0 s j l) (hfree : s.live pfn = none) :
    Filling s0 ((s.take pfn order j.owner).drop pfn order) j l := by
  have hlive : ((s.take pfn order j.owner).drop pfn order).live = s.live := by
    show update (update s.live pfn (some order)) pfn none = s.live
    rw [update_idem, ← hfree, update_eq_self]
  have hcharge : ∀ f ≠ pfn, ((s.take pfn order j.owner).drop pfn order).charge f = s.charge f := by
    intro f hf
    show update (update s.charge pfn j.owner) pfn none f = _
    rw [update_idem, update_of_ne hf]
  have husage : ((s.take pfn order j.owner).drop pfn order).usage = s.usage := by
    show subUsage (addUsage s.usage j.owner (2 ^ order)) (update s.charge pfn j.owner pfn)
      (2 ^ order) = _
    rw [update_self, subUsage_addUsage]
  have hne : ∀ f, s.live f ≠ none → f ≠ pfn := fun f hf heq => hf (heq ▸ hfree)
  refine ⟨h.vmm, h.tables, h.outside, h.bare, h.tiled.congr fun _ _ _ => rfl, h.ends, h.apart,
    h.fresh, fun x hx => ?_, fun f hf => ?_, husage.trans h.usage, by rw [hlive]; exact h.backs⟩
  · obtain ⟨h1, h2⟩ := h.inUse x hx
    rw [hlive, hcharge _ (hne _ (by rw [h1]; simp))]
    exact ⟨h1, h2⟩
  · obtain ⟨h1, h2⟩ := h.others f hf
    refine ⟨by rw [hlive, h1], fun hf' => ?_⟩
    rw [hcharge f (hne f (by rw [h1]; exact hf')), h2 hf']

/-- What a job may rely on: a page that is present ends it with an error, or there is none. -/
def Job.Sound (j : Job) (s : State) : Prop := ∀ p, j.vpn ≤ p → p < j.vpn + j.count →
  s.pages (tablesOf j.domain) p ≠ none → checkSuccess j.taken = false

/-- **The loop while the PMM serves.** It ends with all pages, or fails with what it has done so far
on its list. -/
theorem fill_served (plat : Platform) (hj : j.Sound s0) :
    ∀ (fuel : Nat) {s : State} {l : List (Nat × Nat)} (pfn : Nat), Filling s0 s j l →
      ¬ j.Starves plat s (extent l) → extent l ≤ j.count → j.count ≤ extent l + fuel →
      ∃ p l', j.fill plat fuel s (extent l) pfn = some p ∧ Filling s0 p.state j l' ∧
        p.allocated = extent l' ∧ (p.error = none → extent l' = j.count) ∧
        ∀ e, p.error = some e → checkSuccess e = false := by
  intro fuel
  induction fuel with
  | zero =>
    intro s l pfn h _ hle hfuel
    exact ⟨_, l, rfl, h, rfl, fun _ => by omega, fun e he => nomatch he⟩
  | succ fuel ih =>
    intro s l pfn h hno hle hfuel
    rcases fill_cases plat j s (extent l) fuel pfn with
      ⟨hn, heq⟩ | ⟨e, heq, he⟩ | ⟨written, order, hr⟩
    · exact ⟨_, l, heq, h, rfl, fun _ => by omega, fun e he => nomatch he⟩
    · refine ⟨_, l, heq, h, rfl, (nomatch ·), fun e' he' => ?_⟩
      cases he'
      rcases he with he | ⟨rfl, p, h1, h2, hp⟩
      · exact he
      · exact hj p (by omega) h2 (by rw [← h.outside p (by omega)]; exact hp)
    · cases written with
      | none => exact absurd (.now hr) hno
      | some pfn' =>
        have hpos := Nat.two_pow_pos order
        rw [hr.fill_succ, Option.getD_some]
        split
        next hmap =>
          have hext : extent l + 2 ^ order = extent (l ++ [(pfn', order)]) := by simp
          have hfits := hr.fits.1
          rw [hext] at hfits ⊢
          exact ih pfn' (h.map hr hmap) (fun hs => hno (.later hr hmap (by rw [hext]; exact hs)))
            hfits (by omega)
        next hmap =>
          have htaken : (s.receive (some pfn') order j.owner).live pfn' = some order :=
            update_self ..
          rw [stPmmFreeContiguousFrame, htaken]
          refine ⟨_, l, rfl, h.returned hr.free, rfl, (nomatch ·), fun e he => ?_⟩
          rw [← Option.some.inj he]
          exact Bool.eq_false_of_not_eq_true hmap

/-- The loop of a call, and what the call does after it: `f` is what follows the rollback. -/
def Job.finish (plat : Platform) (j : Job) (s : State) (vpn : Nat) (f : State → State) :
    Option (StStatus × Nat × State) :=
  (j.fill plat j.count s 0 unsetFrame).bind fun p =>
    match p.error with
    | none => some (.success, j.vpn, p.state)
    | some e => (j.undo p.allocated p.state).map fun s => (e, vpn, f s)

theorem Job.commit_eq (plat : Platform) (j : Job) (s : State) :
    (j.commit plat s).map (fun r => (r.1, j.vpn, r.2)) = j.finish plat s j.vpn id := by
  rw [Job.commit, Job.finish, Option.map_bind]
  congr 1
  funext p
  obtain ⟨error, n, t⟩ := p
  cases error with
  | none => rfl
  | some e =>
    rcases Nat.eq_zero_or_pos n with rfl | hn
    · -- nothing to undo
      have hself : j.undo 0 t = some t := by
        exact unmapContiguousMemory_zero _ _ _
      rw [hself]
      rfl
    · simp only [comp_apply, if_pos hn, Option.map_map]
      rfl

end Loops

/-! ## The calls -/

inductive Call where
  | allocateGlobalSparse (g : GlobalDomain) (count : UInt64) (owner : Option Nat) (af : AllocFlags)
      (mf : MapFlags)
  | allocateGlobalSparseTo (g : GlobalDomain) (vpn count : UInt64) (owner : Option Nat)
      (af : AllocFlags) (mf : MapFlags)
  | allocateLocalSparse (asp : Nat) (count : UInt64) (af : AllocFlags) (mf : MapFlags)
  | allocateLocalSparseTo (asp : Nat) (vpn count : UInt64) (af : AllocFlags) (mf : MapFlags)
  | commitGlobal (g : GlobalDomain) (vpn count : UInt64)
  | commitLocal (asp : Nat) (vpn count : UInt64)

def Call.domain : Call → DomainId
  | .allocateGlobalSparse g .. | .allocateGlobalSparseTo g .. | .commitGlobal g .. => .global g
  | .allocateLocalSparse asp .. | .allocateLocalSparseTo asp .. | .commitLocal asp .. => .local asp

def Call.count : Call → Nat
  | .allocateGlobalSparse _ count .. | .allocateGlobalSparseTo _ _ count ..
  | .commitGlobal _ _ count
  | .allocateLocalSparse _ count .. | .allocateLocalSparseTo _ _ count ..
  | .commitLocal _ _ count => count.toNat

/-- Status, first page and state after the call; `none` when it panics. -/
def Call.run (plat : Platform) (s : State) : Call → Option (StStatus × Nat × State)
  | .allocateGlobalSparse g count owner af mf =>
    stMmAllocateGlobalSparse plat s g count.toNat owner af mf
  | .allocateGlobalSparseTo g vpn count owner af mf =>
    stMmAllocateGlobalSparseTo plat s g vpn.toNat count.toNat owner af mf
  | .allocateLocalSparse asp count af mf => stMmAllocateLocalSparse plat s asp count.toNat af mf
  | .allocateLocalSparseTo asp vpn count af mf =>
    stMmAllocateLocalSparseTo plat s asp vpn.toNat count.toNat af mf
  | .commitGlobal g vpn count =>
    (stMmCommitGlobal plat s g vpn.toNat count.toNat).map fun r => (r.1, vpn.toNat, r.2)
  | .commitLocal asp vpn count =>
    (stMmCommitLocal plat s asp vpn.toNat count.toNat).map fun r => (r.1, vpn.toNat, r.2)

/-- Allocations of local pages at once, and commits of sparse reservations. -/
def Call.Covered (s : State) : Call → Prop
  | .allocateGlobalSparse .. | .allocateGlobalSparseTo .. => True
  | .allocateLocalSparse _ _ _ mf | .allocateLocalSparseTo _ _ _ _ mf =>
      hasFlag mf mfImmediate = true
  | .commitGlobal g vpn _ =>
    ∀ info, stVmmGetGlobalPageInfo s.vmm g vpn.toNat = .ok info → info.sparse = true
  | .commitLocal asp vpn _ =>
    ∀ info, stVmmGetLocalPageInfo s.vmm asp vpn.toNat = .ok info → info.sparse = true

/-- The pages are reserved, and filling them the call asks for a batch of fewer than 32 frames for
which the PMM has no run. -/
def Call.Starved (plat : Platform) (s : State) : Call → Prop
  | .allocateGlobalSparse g count owner af mf => ∃ vpn vmm,
      stVmmReserveGlobalPage plat.nodes (s.unmapped (.global g)) s.vmm g count.toNat owner af mf =
        (.success, vpn, vmm) ∧
      (allocationJob (.global g) vpn count.toNat owner af mf).Starves plat { s with vmm } 0
  | .allocateGlobalSparseTo g vpn count owner af mf => isGlobalVpn vpn.toNat = true ∧ ∃ vmm,
      stVmmReserveGlobalPageTo plat.nodes (s.unmapped (.global g)) s.vmm g vpn.toNat count.toNat
        owner af mf = (.success, vmm) ∧
      (allocationJob (.global g) vpn.toNat count.toNat owner af mf).Starves plat { s with vmm } 0
  | .allocateLocalSparse asp count af mf => ∃ vpn vmm,
      stVmmReserveLocalPage plat.nodes (s.unmapped (.local asp)) s.vmm asp count.toNat
        (sparseFlags af mf)
        mf = (.success, vpn, vmm) ∧
      (allocationJob (.local asp) vpn count.toNat (vmm.doms (.local asp)).owner af mf).Starves plat
        { s with vmm } 0
  | .allocateLocalSparseTo asp vpn count af mf => isLocalVpn vpn.toNat = true ∧ ∃ vmm,
      stVmmReserveLocalPageTo plat.nodes (s.unmapped (.local asp)) s.vmm asp vpn.toNat count.toNat
        (sparseFlags af mf) mf = (.success, vmm) ∧
      (allocationJob (.local asp) vpn.toNat count.toNat (vmm.doms (.local asp)).owner af mf).Starves
        plat { s with vmm } 0
  | .commitGlobal g vpn count => ∃ info,
      validateCommitRange (stVmmGetGlobalReservedRange s.vmm g vpn.toNat)
        (stVmmGetGlobalPageInfo s.vmm g vpn.toNat) vpn.toNat count.toNat = .ok info ∧
      (commitJob (.global g) vpn.toNat count.toNat info).Starves plat s 0
  | .commitLocal asp vpn count => ∃ info,
      validateCommitRange (stVmmGetLocalReservedRange s.vmm asp vpn.toNat)
        (stVmmGetLocalPageInfo s.vmm asp vpn.toNat) vpn.toNat count.toNat = .ok info ∧
      (commitJob (.local asp) vpn.toNat count.toNat info).Starves plat s 0

/-- The call returns, with all that was asked for or with nothing changed. -/
def Atomic (s : State) (d : DomainId) (count : Nat) (r : Option (StStatus × Nat × State)) : Prop :=
  ∃ st vpn s', r = some (st, vpn, s') ∧ (checkSuccess st = true → Served s s' d vpn count) ∧
    (checkSuccess st = false → Restored s s')

section Calls

variable {plat : Platform} {s : State} {d : DomainId} {L : DomainId → List NodeRef}
  {vpn count : Nat}

theorem SameMemory.refl (s : State) : SameMemory s s :=
  ⟨rfl, rfl, fun _ _ => rfl, rfl⟩

/-- A call that is refused outright. -/
theorem atomic_refl (hst : checkSuccess st = false) : Atomic s d count (some (st, vpn, s)) := by
  refine ⟨st, vpn, s, rfl, fun hok => ?_, fun _ => ⟨.refl _, .refl s⟩⟩
  rw [hst] at hok
  cases hok

theorem fillLocal_eq {asp : Nat} {af : AllocFlags} {mf : MapFlags}
    (h : hasFlag mf mfImmediate = true) :
    fillLocal plat s asp vpn count af mf =
      (allocationJob (.local asp) vpn count (s.vmm.doms (.local asp)).owner af mf).allocate plat
        s := by
  rw [fillLocal, h]
  rfl

theorem atomic_failed (h0 : VmmOk s.vmm L) (h : Failed s.vmm vmm L st) :
    Atomic s d count (some (st, 0, { s with vmm })) := by
  refine ⟨st, 0, _, rfl, fun hst => ?_,
    fun _ => ⟨.of_kept h0 h.ok h.kept, ⟨rfl, rfl, fun _ _ => rfl, rfl⟩⟩⟩
  rw [h.status] at hst
  cases hst

/-- **All or nothing**, for a job that starts with domains of its own. -/
theorem Job.finish_atomic_iff {j : Job} {f : State → State} (hphys : s.Physical)
    (hj : j.Sound { s with vmm })
    (hf : ∀ s', s'.vmm = vmm → SameMemory s s' → Restored s (f s')) :
    Atomic s j.domain j.count (j.finish plat { s with vmm } vpn f) ↔
      ¬ j.Starves plat { s with vmm } 0 := by
  rw [Job.finish]
  constructor
  · rintro ⟨st, v, s', heq, hserved, -⟩ hstarves
    have hspoiled :=
      fill_starved hstarves (.start _ j) rfl hphys (.inl ⟨rfl, rfl⟩) (Nat.le_add_left ..)
    generalize j.fill plat j.count { s with vmm } 0 unsetFrame = r at heq hspoiled
    obtain _ | ⟨_ | e, n, t⟩ := r
    · cases heq
    · cases heq
      exact Tainted.not_served hspoiled (hserved rfl)
    · have hnone : j.undo n t = none := Doomed.undo hspoiled
      rw [Option.bind_some, hnone] at heq
      cases heq
  · intro hno
    obtain ⟨p, l, hfill, hl, hn, hdone, hfail⟩ := fill_served plat hj j.count unsetFrame
      (.start _ j) hno (Nat.zero_le _) (Nat.le_add_left ..)
    rw [extent_nil] at hfill
    rw [hfill, Option.bind_some]
    cases he : p.error with
    | none =>
      have hs := hl.served (hdone he)
      refine ⟨_, _, _, rfl, fun _ => ⟨hs.present, hs.distinct, hs.new, hs.others, hs.kept⟩,
        fun h => ?_⟩
      cases h
    | some e =>
      obtain ⟨s', hundo, hvmm, hsame⟩ := hl.undo
      rw [hn, hundo]
      refine ⟨e, vpn, f s', rfl, fun hok => ?_,
        fun _ => hf s' hvmm ⟨hsame.pages, hsame.runs, hsame.charges, hsame.usage⟩⟩
      rw [hfail e he] at hok
      cases hok

/-- An allocation whose pages have been reserved. -/
theorem allocation_atomic_iff (h0 : VmmOk s.vmm L) (hphys : s.Physical)
    (hres : Reserves (s.unmapped d) s.vmm L d vpn count req .success vmm) (owner : Option Nat)
    (af : AllocFlags) (mf : MapFlags) :
    Atomic s d count ((allocationJob d vpn count owner af mf).allocate plat { s with vmm }) ↔
      ¬ (allocationJob d vpn count owner af mf).Starves plat { s with vmm } 0 := by
  rcases hres with ⟨-, hcount, base, r, l1, l2, hvpn, hunmapped, hadd⟩ | hfail
  swap
  · exact absurd hfail.status (by decide)
  have hbare : ∀ p, vpn ≤ p → p < vpn + count → s.unmapped d p = true := by
    intro p h1 h2
    have := List.all_eq_true.mp hunmapped (p - base) (List.mem_range.mpr (by omega))
    rwa [Nat.add_sub_cancel' (by omega)] at this
  have hlt : vpn + count < wordLimit := by
    have := (unmapped_iff.mp (hbare (vpn + count - 1) (by omega) (by omega))).2.1
    simp only [virtPageMax] at this
    simp only [wordLimit]
    omega
  have hsound : (allocationJob d vpn count owner af mf).Sound { s with vmm } := fun p h1 h2 hp =>
    absurd (unmapped_iff.mp (hbare p h1 h2)).2.2 hp
  refine Job.finish_atomic_iff hphys hsound fun s' hvmm hsame =>
    ⟨?_, hsame.pages, hsame.runs, hsame.charges, hsame.usage⟩
  rw [hvmm]
  exact releasePages_added h0 hadd hvpn hcount hlt

/-- A call that reserves pages, and fills them if it could. -/
theorem iff_of_reserve {r : Option (StStatus × Nat × State)} {P : Prop} (plat : Platform)
    (owner : Option Nat) (af : AllocFlags) (mf : MapFlags) (h0 : VmmOk s.vmm L) (hphys : s.Physical)
    (hres : Reserves (s.unmapped d) s.vmm L d vpn count req st vmm)
    (hr : r = if st = .success then (allocationJob d vpn count owner af mf).allocate plat
      { s with vmm }
      else some (st, 0, { s with vmm }))
    (hP : P ↔ st = .success ∧
      (allocationJob d vpn count owner af mf).Starves plat { s with vmm } 0) :
    Atomic s d count r ↔ ¬ P := by
  rw [hP]
  rcases eq_or_ne st .success with rfl | hne
  · rw [if_pos rfl] at hr
    rw [hr, allocation_atomic_iff h0 hphys hres]
    exact not_congr ⟨fun h => ⟨rfl, h⟩, And.right⟩
  · rcases hres with ⟨hst, -⟩ | hfailed
    · exact absurd hst hne
    · rw [hr, if_neg hne]
      exact ⟨fun _ h => hne h.1, fun _ => atomic_failed h0 hfailed⟩

theorem findPageNode_error {s : Vmm.State} (e : StStatus) (h : findPageNode s d vpn = .error e) :
    checkSuccess e = false := by
  unfold findPageNode at h
  dsimp only at h
  split_ifs at h
  · exact Except.error.inj h ▸ rfl
  · exact Except.error.inj h ▸ rfl
  · split at h
    · exact Except.error.inj h ▸ rfl
    · cases h

/-- What the two queries of a commit find, they find in one node. -/
theorem query_error {α : Type} {init : Bool} {node : Except StStatus NodeRef} {e' : StStatus}
    {f : NodeRef → α} (hnode : ∀ e, node = .error e → checkSuccess e = false)
    (he' : checkSuccess e' = false) (e : StStatus)
    (h : (if init = false then .error e' else node.map f) = .error e) : checkSuccess e = false := by
  split at h
  · exact Except.error.inj h ▸ he'
  · cases node with
    | error e'' => exact Except.error.inj h ▸ hnode e'' rfl
    | ok r => cases h

theorem validateCommitRange_error (hrange : ∀ e, range = .error e → checkSuccess e = false)
    (hinfo : ∀ e, info = .error e → checkSuccess e = false) (e : StStatus)
    (h : validateCommitRange range info vpn count = .error e) : checkSuccess e = false := by
  unfold validateCommitRange at h
  split at h
  · exact Except.error.inj h ▸ rfl
  split at h
  next e' => exact Except.error.inj h ▸ hrange e' rfl
  next =>
    split at h
    · exact Except.error.inj h ▸ rfl
    split at h
    next e' => exact Except.error.inj h ▸ hinfo e' rfl
    next =>
      split_ifs at h
      · exact Except.error.inj h ▸ rfl
      · exact Except.error.inj h ▸ rfl

theorem validateCommitRange_ok {i : PageInfo}
    (h : validateCommitRange range info vpn count = .ok i) :
    info = .ok i := by
  unfold validateCommitRange at h
  split at h
  · cases h
  split at h
  · cases h
  split at h
  · cases h
  split at h
  · cases h
  split_ifs at h
  exact congrArg Except.ok (Except.ok.inj h)

theorem commit_atomic_iff (hphys : s.Physical)
    (herr : ∀ e, info = .error e → checkSuccess e = false)
    (hsparse : ∀ i, info = .ok i → i.sparse = true) :
    Atomic s d count ((commitPages plat s d vpn count info).map fun r => (r.1, vpn, r.2)) ↔
      ¬ ∃ i, info = .ok i ∧ (commitJob d vpn count i).Starves plat s 0 := by
  cases info with
  | error e =>
    exact ⟨fun _ ⟨i, hi, _⟩ => (nomatch hi), fun _ => atomic_refl (herr e rfl)⟩
  | ok i =>
    have hcommit :
        commitPages plat s d vpn count (.ok i) = (commitJob d vpn count i).commit plat s := by
      rw [commitPages, hsparse i rfl]
      rfl
    have hsound : (commitJob d vpn count i).Sound s := fun _ _ _ _ => rfl
    have hatomic : Atomic s d count ((commitJob d vpn count i).finish plat s vpn id) ↔ _ :=
      Job.finish_atomic_iff hphys hsound fun s' hvmm hsame => ⟨hvmm ▸ .refl _, hsame⟩
    rw [hcommit]
    refine ((iff_of_eq (congrArg _ (Job.commit_eq plat _ s))).trans hatomic).trans
      (not_congr ⟨fun h => ⟨i, rfl, h⟩, ?_⟩)
    rintro ⟨i', hi, h⟩
    exact Except.ok.inj hi ▸ h

end Calls

/-- **All or nothing.** A sparse allocation or commit gives every page a fresh frame of its own, or
fails and leaves reservations, pages, runs and usage as they were, exactly if the PMM has a run for
every batch of fewer than 32 frames that the call asks for. -/
theorem sparse_atomic_iff (plat : Platform) (s : State) (hs : Vmm.Reachable s.vmm)
    (hphys : s.Physical) (c : Call) (hc : c.Covered s) :
    Atomic s c.domain c.count (c.run plat s) ↔ ¬ c.Starved plat s := by
  obtain ⟨L, h0⟩ := reachable_ok hs
  cases c with
  | allocateGlobalSparse g count owner af mf =>
    obtain ⟨st, vpn, vmm, heq, hres⟩ :=
      stVmmReserveGlobalPage_ok h0 plat.nodes (s.unmapped (.global g)) g
      count.toNat owner af mf
    refine iff_of_reserve plat owner af mf h0 hphys hres ?_ ?_
    · rw [Call.run, stMmAllocateGlobalSparse, heq]
      cases st <;> rfl
    · exact ⟨fun ⟨_, _, h, hs⟩ => by cases heq.symm.trans h; exact ⟨rfl, hs⟩,
        fun ⟨h, hs⟩ => ⟨_, _, h ▸ heq, hs⟩⟩
  | allocateGlobalSparseTo g vpn count owner af mf =>
    obtain ⟨st, vmm, heq, hres⟩ :=
      stVmmReserveGlobalPageTo_ok h0 plat.nodes (s.unmapped (.global g)) g
      vpn.toNat_lt count.toNat_lt owner af mf
    rw [Call.run, stMmAllocateGlobalSparseTo]
    cases hside : isGlobalVpn vpn.toNat with
    | false => exact ⟨fun _ h => absurd h.1 (by rw [hside]; simp), fun _ => atomic_refl rfl⟩
    | true =>
      refine iff_of_reserve plat owner af mf h0 hphys hres ?_ ?_
      · rw [heq]
        cases st <;> rfl
      · exact ⟨fun ⟨_, _, h, hs⟩ => by cases heq.symm.trans h; exact ⟨rfl, hs⟩,
          fun ⟨h, hs⟩ => ⟨hside, _, h ▸ heq, hs⟩⟩
  | allocateLocalSparse asp count af mf =>
    obtain ⟨st, vpn, vmm, heq, hres⟩ :=
      stVmmReserveLocalPage_ok h0 plat.nodes (s.unmapped (.local asp)) asp
      count.toNat (sparseFlags af mf) mf
    refine iff_of_reserve plat (vmm.doms (.local asp)).owner af mf h0 hphys hres ?_ ?_
    · rw [Call.run, stMmAllocateLocalSparse, heq]
      cases st <;> first | rfl | exact fillLocal_eq hc
    · exact ⟨fun ⟨_, _, h, hs⟩ => by cases heq.symm.trans h; exact ⟨rfl, hs⟩,
        fun ⟨h, hs⟩ => ⟨_, _, h ▸ heq, hs⟩⟩
  | allocateLocalSparseTo asp vpn count af mf =>
    obtain ⟨st, vmm, heq, hres⟩ :=
      reserveLocalPageToWithPolicy_ok h0 plat.nodes (s.unmapped (.local asp)) asp
      vpn.toNat_lt count.toNat_lt (sparseFlags af mf) mf
      (localPageMappingPolicyFromFlags (sparseFlags af mf) mf)
    have heq' :
        stVmmReserveLocalPageTo plat.nodes (s.unmapped (.local asp)) s.vmm asp vpn.toNat count.toNat
      (sparseFlags af mf) mf = (st, vmm) := heq
    rw [Call.run, stMmAllocateLocalSparseTo]
    cases hside : isLocalVpn vpn.toNat with
    | false => exact ⟨fun _ h => absurd h.1 (by rw [hside]; simp), fun _ => atomic_refl rfl⟩
    | true =>
      refine iff_of_reserve plat (vmm.doms (.local asp)).owner af mf h0 hphys hres ?_ ?_
      · rw [heq']
        cases st <;> first | rfl | exact fillLocal_eq hc
      · exact ⟨fun ⟨_, _, h, hs⟩ => by cases heq'.symm.trans h; exact ⟨rfl, hs⟩,
          fun ⟨h, hs⟩ => ⟨hside, _, h ▸ heq', hs⟩⟩
  | commitGlobal g vpn count | commitLocal asp vpn count =>
    exact commit_atomic_iff hphys (validateCommitRange_error (query_error findPageNode_error rfl)
      (query_error findPageNode_error rfl)) fun i hi => hc i (validateCommitRange_ok hi)

/-- A PMM that says so when it has no run starves nobody. -/
theorem not_starves {plat : Platform} {j : Job}
    (h : ∀ live order owner af, plat.frames.allocate live order owner af ≠ .ok none) :
    ¬ j.Starves plat s n := by
  intro hs
  induction hs with
  | now hr => exact h _ _ _ _ hr.fits.2.2
  | later _ _ _ ih => exact ih

/-- A run of `2 ^ o` frames from `f` on, to be had as a whole; then the error, or the success that
writes nothing. -/
def runSupply (f o : Nat) (hf : f + 2 ^ o ≤ frameLimit) (honest : Bool) : FrameSupply where
  allocate live order _ _ :=
    if order = o ∧ ((List.range (f + 2 ^ o)).all fun base =>
        (live base).all fun k => decide (base + 2 ^ k ≤ f)) = true then .ok (some f)
    else if order < 5 ∧ honest = false then .ok none
    else .error .insufficientMemory
  fresh live order owner af pfn h := by
    split at h
    swap
    · split at h <;> cases h
    next hc =>
    cases Except.ok.inj h
    obtain ⟨rfl, hall⟩ := hc
    refine ⟨hf, fun base k hlive => ?_⟩
    by_cases hbase : base < f + 2 ^ order
    · have := List.all_eq_true.mp hall base (List.mem_range.mpr hbase)
      rw [hlive] at this
      exact .inl (of_decide_eq_true this)
    · exact .inr (by omega)
  small live order owner af h := by
    split at h
    · cases h
    · split at h
      next hd => exact hd.1
      next => cases h
  failure live order owner af e h := by
    split_ifs at h
    exact Except.error.inj h ▸ rfl

/-- Frames 8 and 9; mapping fails for the reasons of the arguments only. -/
def pairPlatform (honest : Bool) : Platform where
  nodes := noFrames
  frames := runSupply 8 1 (by decide) honest
  map _ d _ vpn count _ :=
    if onSide d vpn = true ∧ vpn + count ≤ virtPageMax ∧ clearOfHole vpn count = true then .success
    else .invalidValue
  manage := .success
  remap := .success
  fill := .success
  accepted _ d _ vpn count _ h := by
    split_ifs at h with hc
    · exact hc
    · cases h

/-- Pages 16 to 99 of an address space, and nothing in them. -/
def bareState : State where
  vmm := (stVmmInitLocalDomain initial 0 (16 : UInt64).toNat (99 : UInt64).toNat none).2
  pages _ _ := none
  live _ := none
  charge _ := none
  usage _ := 0

theorem bareState_reachable : Vmm.Reachable bareState.vmm :=
  .single (.initLocal initial 0 16 99 none)

/-- Three pages, and two frames for them. -/
def threePages : Call := .allocateLocalSparse 0 3 0 mfImmediate

theorem bareState_physical : bareState.Physical := fun _ _ h => nomatch h

theorem threePages_covered : threePages.Covered bareState :=
  show hasFlag mfImmediate mfImmediate = true by decide

/-- The third page fails the call, and the two frames go back. -/
theorem three_pages_restored :
    Atomic bareState threePages.domain threePages.count
      (threePages.run (pairPlatform true) bareState) := by
  refine (sparse_atomic_iff (pairPlatform true) bareState bareState_reachable bareState_physical
    threePages
    threePages_covered).mpr ?_
  rintro ⟨vpn, vmm, -, hs⟩
  refine not_starves (fun live order owner af h => ?_) hs
  have hall : (runSupply 8 1 (by decide) true).allocate live order owner af = .ok none := h
  unfold runSupply at hall
  dsimp only at hall
  split at hall
  · cases hall
  · split at hall
    next hd => exact absurd hd.2 (by decide)
    next => cases hall

/-- **Two pages share a frame.** Asked for the last page's frame the PMM reports success and writes
none; the page gets the first frame of the batch before. -/
theorem three_pages_share_frame : Vmm.Reachable bareState.vmm ∧ bareState.Physical ∧
    threePages.Covered bareState ∧
    (threePages.run (pairPlatform false) bareState).map (fun r =>
      (r.1, r.2.1, (List.range 3).map fun i => r.2.2.pages (some 0) (r.2.1 + i))) =
        some (.success, 16, [some 8, some 9, some 8]) ∧
    ¬ Atomic bareState threePages.domain threePages.count
      (threePages.run (pairPlatform false) bareState) := by
  have hrun : (threePages.run (pairPlatform false) bareState).map (fun r =>
      (r.1, r.2.1, (List.range 3).map fun i => r.2.2.pages (some 0) (r.2.1 + i))) =
        some (.success, 16, [some 8, some 9, some 8]) := by decide +kernel
  refine ⟨bareState_reachable, bareState_physical, threePages_covered, hrun, ?_⟩
  rintro ⟨st, vpn, s', heq, hserved, -⟩
  rw [heq, Option.map_some, Option.some.injEq, Prod.mk.injEq, Prod.mk.injEq] at hrun
  obtain ⟨rfl, rfl, hpages⟩ := hrun
  simp only [List.range_succ, List.range_zero, List.nil_append, List.cons_append, List.map_cons,
    List.map_nil, List.cons.injEq] at hpages
  obtain ⟨h0, -, h2, -⟩ := hpages
  exact (hserved rfl).distinct 16 18 le_rfl (by decide) (by decide) (h0.trans h2.symm)

end FoliOS.Strata.Mm.Sparse
