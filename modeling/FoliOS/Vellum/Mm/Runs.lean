import FoliOS.Vellum.Mm.Effects

/-!
# Vellum — runs of the memory calls

Heap, modules and the ramdisk image live on pages of `mm_allocate_pages`; the kernel is
placed at its load address by `mm_allocate_pages_to`, and the boot information table at the
page that has the number of its first frame. Nothing keeps the three apart: a page that is
already mapped is taken as it is, and the identity mapping of the table replaces what was
there.

`reachable_sound`: as long as no call runs into a page that is in use, every page keeps its
frame and no frame is in two allocations. `bootInfo_diverges`: after 14 pages, the table lands
on the first of them.
-/

namespace FoliOS.Vellum.Mm

variable {P : Nat → Prop} {st : VlStatus} {vpn count : Nat}

/-! ## Runs -/

inductive Kind where
  /-- `mm_allocate_pages` -/
  | pages
  /-- `mm_allocate_pages_to` of `Lf_LoadKernel` -/
  | kernel
  /-- The table of `Lf_MakeBootInfoTable` -/
  | bootInfo
  deriving DecidableEq, Repr

/-- A live allocation, with the frames its pages got. -/
structure Alloc where
  kind : Kind
  vpn : Nat
  count : Nat
  got : Nat → Option Nat

structure Run where
  mm : State
  live : List Alloc

/-- The memory calls the loader makes. `VlElf_LoadProgram` loads into an allocation made just
before; allocations are named by their place in the list. -/
inductive Call where
  | allocatePages (count : Nat)
  | loadKernel (vpn count : Nat)
  | loadProgram (owner vpn count : Nat)
  | freePages (owner : Nat)
  | bootInfo (count : Nat)

/-- A successful call adds an allocation. -/
def Run.add (r : Run) (kind : Kind) (st : VlStatus) (s : State) (vpn count : Nat) : Run :=
  ⟨s, if st.ok then r.live ++ [⟨kind, vpn, count, fun i => translate s (vpn + i)⟩] else r.live⟩

/-- The frames and the mapping of the boot information table. -/
def allocateIdentity (s : State) (count : Nat) : VlStatus × State × Nat :=
  match pmaAllocateFrame s count with
  | (st, s, pfn) =>
    if !st.ok then (st, s, 0)
    else
      match mapPages s pfn pfn pfDefault count with
      | (st, s) => (st, s, pfn)

def step (r : Run) : Call → Option Run
  | .allocatePages count =>
    match allocatePages r.mm count with
    | (st, s, vpn) => some (r.add .pages st s vpn count)
  | .loadKernel vpn count =>
    match allocatePagesTo r.mm vpn count with
    | (st, s) => some (r.add .kernel st s vpn count)
  | .loadProgram owner vpn count =>
    (r.live[owner]?).map fun _ => { r with mm := (allocatePagesTo r.mm vpn count).2 }
  | .freePages owner =>
    (r.live[owner]?).bind fun a =>
      if a.kind = .pages then some ⟨freePages r.mm a.vpn a.count, r.live.eraseIdx owner⟩ else none
  | .bootInfo count =>
    if count = 0 then none
    else
      match allocateIdentity r.mm count with
      | (st, s, vpn) => some (r.add .bootInfo st s vpn count)

/-- The state after `mm_init`: no frame above 4 GiB, and the directory is not in a free one. -/
structure Started (s : State) : Prop where
  before : ∃ s₀ : State, s₀.basePfn + s₀.frameDescCount ≤ 2 ^ 20 ∧ s₀.cr3 < 2 ^ 20 ∧
    ¬ s₀.Free s₀.cr3 ∧ initPageDirectory s₀ = (.success, s)
  vpn : s.allocVpn = 0x400

/-- The call stays below the page tables and off the pages in use. -/
def Clean (r : Run) : Call → Prop
  | .allocatePages count => r.mm.allocVpn + count ≤ windowVpn ∧
      ∀ i < count, translate r.mm (r.mm.allocVpn + i) = none
  | .loadKernel vpn count => vpn + count ≤ windowVpn ∧ ∀ i < count, translate r.mm (vpn + i) = none
  | .loadProgram owner vpn count =>
      ∀ a, r.live[owner]? = some a → a.vpn ≤ vpn ∧ vpn + count ≤ a.vpn + a.count
  | .freePages _ => True
  | .bootInfo count => ∀ pfn, LowestRun r.mm count pfn → pfn + count ≤ windowVpn ∧
      ∀ a ∈ r.live, ∀ v, InRange a.vpn a.count v → ¬ InRange pfn count v

/-- The states of the runs that make clean calls only. -/
inductive Reachable : Run → Prop where
  | start {s : State} (h : Started s) : Reachable ⟨s, []⟩
  | call {r r' : Run} {c : Call} (h : Reachable r) (hc : Clean r c) (hs : step r c = some r') :
      Reachable r'

/-- The pages of `mm_allocate_pages` keep their frames, and no frame is behind pages of two
allocations. -/
structure Sound (r : Run) : Prop where
  keeps : ∀ a ∈ r.live, a.kind = .pages → ∀ i < a.count, translate r.mm (a.vpn + i) = a.got i
  apart : r.live.Pairwise fun a b => ∀ i < a.count, ∀ j < b.count, ∀ f,
    translate r.mm (a.vpn + i) = some f → translate r.mm (b.vpn + j) ≠ some f

/-! ## The invariant -/

/-- The page still has the frame it got, which is neither free nor a page table. -/
def Holds (s : State) (a : Alloc) (i : Nat) : Prop :=
  ∃ f, translate s (a.vpn + i) = some f ∧ a.got i = some f ∧ ¬ s.Free f ∧ ¬ s.IsTable f

structure Inv (r : Run) : Prop where
  wf    : Wf r.mm
  below : ∀ a ∈ r.live, a.vpn + a.count ≤ windowVpn
  holds : ∀ a ∈ r.live, ∀ i < a.count, Holds r.mm a i
  apart : r.live.Pairwise fun a b => ∀ i < a.count, ∀ j < b.count, a.got i ≠ b.got j

theorem Inv.sound {r : Run} (h : Inv r) : Sound r := by
  refine ⟨fun a ha _ i hi => ?_, ?_⟩
  · obtain ⟨f, htr, hgot, -⟩ := h.holds a ha i hi
    rw [htr, hgot]
  · refine h.apart.imp_of_mem fun {a b} ha hb hab i hi j hj f hf hf' => ?_
    obtain ⟨f1, htr1, hgot1, -⟩ := h.holds a ha i hi
    obtain ⟨f2, htr2, hgot2, -⟩ := h.holds b hb j hj
    refine hab i hi j hj ?_
    rw [hgot1, hgot2, ← htr1, ← htr2, hf, hf']

variable {kind : Kind} {a : Alloc}

section Steps

variable {r r' : Run} {s' : State}

section

variable (h : Inv r) (hg : Grows r.mm s') (ho : ChangesOnly r.mm s' P)
  (hP : ∀ a ∈ r.live, ∀ i < a.count, ¬ P (a.vpn + i))
include h hg ho hP

/-- A call that changes no page of a live allocation. -/
theorem Inv.grow : Inv ⟨s', r.live⟩ := by
  refine ⟨hg.wf, h.below, fun a ha i hi => ?_, h.apart⟩
  obtain ⟨f, htr, hgot, hfree, htable⟩ := h.holds a ha i hi
  have hwin : a.vpn + i < windowVpn := lt_of_lt_of_le (by omega) (h.below a ha)
  refine ⟨f, (ho _ hwin (hP a ha i hi)).trans htr, hgot, fun hf => hfree (hg.free f hf),
    fun ht => ?_⟩
  rcases hg.tables f ht with ht | hf
  · exact htable ht
  · exact hfree hf

/-- A call that gives frames taken since to the pages of a new allocation. -/
theorem Inv.add (hbelow : vpn + count ≤ windowVpn)
    (hgot : st.ok = true → ∀ i < count, GotFrame r.mm s' (vpn + i)) :
    Inv (r.add kind st s' vpn count) := by
  have hold := h.grow hg ho hP
  unfold Run.add
  cases hok : st.ok with
  | false => exact hold
  | true =>
    rw [if_pos rfl]
    refine ⟨hold.wf, fun a ha => ?_, fun a ha => ?_, ?_⟩
    · rcases List.mem_append.mp ha with ha | ha
      · exact h.below a ha
      · rw [List.mem_singleton.mp ha]; exact hbelow
    · rcases List.mem_append.mp ha with ha | ha
      · exact hold.holds a ha
      · rw [List.mem_singleton.mp ha]
        intro i hi
        obtain ⟨f, hf, htr⟩ := hgot hok i hi
        exact ⟨f, htr, htr, hf.2⟩
    · -- the new frames were free, those of the other allocations were not
      rw [List.pairwise_append]
      refine ⟨h.apart, List.pairwise_singleton _ _, fun a ha b hb i hi j hj heq => ?_⟩
      rw [List.mem_singleton.mp hb] at hj heq
      obtain ⟨f, -, hgotf, hfree, -⟩ := h.holds a ha i hi
      obtain ⟨g, hg, htr⟩ := hgot hok j hj
      have hfg : f = g := Option.some.inj (hgotf.symm.trans (heq.trans htr))
      exact hfree (hfg ▸ hg.1)

end

/-- Pages that are not mapped belong to no live allocation. -/
theorem Inv.unmapped (h : Inv r) (hnone : ∀ i < count, translate r.mm (vpn + i) = none) :
    ∀ a ∈ r.live, ∀ i < a.count, ¬ InRange vpn count (a.vpn + i) := by
  intro a ha i hi hr
  obtain ⟨f, htr, -⟩ := h.holds a ha i hi
  have := hnone (a.vpn + i - vpn) (by have := hr.1; have := hr.2; omega)
  rw [show vpn + (a.vpn + i - vpn) = a.vpn + i by have := hr.1; omega, htr] at this
  cases this

theorem Inv.allocatePagesTo (h : Inv r) (hbelow : vpn + count ≤ windowVpn)
    (hnone : ∀ i < count, translate r.mm (vpn + i) = none)
    (hs : allocatePagesTo r.mm vpn count = (st, s')) : Inv (r.add kind st s' vpn count) := by
  obtain ⟨hg, ho, hgot⟩ := allocatePagesTo_spec count h.wf hbelow hnone hs
  exact h.add hg ho (h.unmapped hnone) hbelow hgot

theorem Inv.allocatePages (h : Inv r) (hbelow : r.mm.allocVpn + count ≤ windowVpn)
    (hnone : ∀ i < count, translate r.mm (r.mm.allocVpn + i) = none)
    (hs : allocatePages r.mm count = (st, s', vpn)) : Inv (r.add .pages st s' vpn count) := by
  obtain ⟨st1, s1, hto⟩ : ∃ st1 s1, Mm.allocatePagesTo
      { r.mm with allocVpn := (r.mm.allocVpn + count) % 2 ^ 32 } r.mm.allocVpn count = (st1, s1) :=
    ⟨_, _, rfl⟩
  rw [Mm.allocatePages, allocVirtPage] at hs
  dsimp only at hs
  rw [hto] at hs
  simp only [Prod.mk.injEq] at hs
  obtain ⟨rfl, rfl, rfl⟩ := hs
  have h' : Inv ⟨{ r.mm with allocVpn := (r.mm.allocVpn + count) % 2 ^ 32 }, r.live⟩ :=
    ⟨⟨h.wf.range, h.wf.self, h.wf.cr3, h.wf.taken, h.wf.dir, h.wf.inj⟩, h.below, h.holds, h.apart⟩
  exact h'.allocatePagesTo hbelow hnone hto

theorem Inv.loadProgram (h : Inv r) (ha : a ∈ r.live) (hlo : a.vpn ≤ vpn)
    (hhi : vpn + count ≤ a.vpn + a.count) :
    Inv { r with mm := (Mm.allocatePagesTo r.mm vpn count).2 } := by
  have hwin := h.below a ha
  have hmapped : ∀ i < count, ∃ f, translate r.mm (vpn + i) = some f := by
    intro i hi
    obtain ⟨f, htr, -⟩ := h.holds a ha (vpn + i - a.vpn) (by omega)
    exact ⟨f, by rwa [show a.vpn + (vpn + i - a.vpn) = vpn + i by omega] at htr⟩
  rw [allocatePagesTo_mapped count (by omega) hmapped]
  exact h

/-- The list around one of its places. -/
theorem eraseIdx_split {α : Type*} {l : List α} {n : Nat} {a : α} (h : l[n]? = some a) :
    ∃ l1 l2, l = l1 ++ a :: l2 ∧ l.eraseIdx n = l1 ++ l2 := by
  obtain ⟨hn, rfl⟩ := List.getElem?_eq_some_iff.mp h
  refine ⟨l.take n, l.drop (n + 1), ?_, List.eraseIdx_eq_take_drop_succ l n⟩
  rw [List.getElem_cons_drop, List.take_append_drop]

theorem Inv.freePages {owner : Nat} (h : Inv r) (ha : r.live[owner]? = some a) :
    Inv ⟨Mm.freePages r.mm a.vpn a.count, r.live.eraseIdx owner⟩ := by
  obtain ⟨l1, l2, hl, herase⟩ := eraseIdx_split ha
  have hamem : a ∈ r.live := by rw [hl]; exact List.mem_append_right _ List.mem_cons_self
  have hapart : ∀ b ∈ l1 ++ l2, ∀ i < b.count, ∀ j < a.count, b.got i ≠ a.got j := by
    have hp := h.apart
    rw [hl, List.pairwise_append, List.pairwise_cons] at hp
    intro b hb i hi j hj
    rcases List.mem_append.mp hb with hb | hb
    · exact hp.2.2 b hb a List.mem_cons_self i hi j hj
    · exact (hp.2.1.1 b hb j hj i hi).symm
  have hsub : ∀ b ∈ l1 ++ l2, b ∈ r.live := by
    intro b hb
    rw [hl]
    rcases List.mem_append.mp hb with hb | hb
    · exact List.mem_append_left _ hb
    · exact List.mem_append_right _ (List.mem_cons_of_mem _ hb)
  obtain ⟨hw, ho, htable, hfree⟩ := freePages_spec a.count h.wf (h.below a hamem) fun i hi => by
    obtain ⟨f, htr, -, -, hnot⟩ := h.holds a hamem i hi
    exact ⟨f, htr, hnot⟩
  rw [herase]
  refine ⟨hw, fun b hb => h.below b (hsub b hb), fun b hb i hi => ?_, ?_⟩
  · obtain ⟨f, htr, hgot, hnf, hnt⟩ := h.holds b (hsub b hb) i hi
    have hother : ∀ j < a.count, translate r.mm (a.vpn + j) ≠ some f := by
      intro j hj hf
      obtain ⟨g, htr', hgot', -⟩ := h.holds a hamem j hj
      exact hapart b hb i hi j hj (hgot.trans (hf.symm.trans (htr'.trans hgot'.symm)))
    have hpage : ¬ InRange a.vpn a.count (b.vpn + i) := by
      intro hr
      refine hother (b.vpn + i - a.vpn) (by have := hr.1; have := hr.2; omega) ?_
      rwa [show a.vpn + (b.vpn + i - a.vpn) = b.vpn + i by have := hr.1; omega]
    have hwin : b.vpn + i < windowVpn := lt_of_lt_of_le (by omega) (h.below b (hsub b hb))
    refine ⟨f, (ho _ hwin hpage).trans htr, hgot, fun hf => ?_, fun ht => hnt ((htable f).mp ht)⟩
    rcases hfree f hf with hf | ⟨j, hj, hf⟩
    · exact hnf hf
    · exact hother j hj hf
  · have hp := h.apart
    rw [hl] at hp
    exact hp.sublist (List.Sublist.append_left (List.sublist_cons_self a l2) l1)

theorem Inv.bootInfo (h : Inv r) (hc : 0 < count) (hclean : Clean r (.bootInfo count))
    (hs : allocateIdentity r.mm count = (st, s', vpn)) : Inv (r.add .bootInfo st s' vpn count) := by
  obtain ⟨st1, s1, pfn, halloc⟩ : ∃ st1 s1 pfn, pmaAllocateFrame r.mm count = (st1, s1, pfn) :=
    ⟨_, _, _, rfl⟩
  rw [allocateIdentity, halloc] at hs
  dsimp only at hs
  cases hok : st1.ok with
  | false =>
    rw [hok, if_pos (by decide)] at hs
    obtain ⟨rfl, rfl, rfl⟩ := hs
    rw [Run.add, hok, pmaAllocateFrame_error halloc hok]
    exact h
  | true =>
    rw [hok, if_neg (by decide)] at hs
    obtain ⟨st2, s2, hmap⟩ : ∃ st2 s2, mapPages s1 pfn pfn pfDefault count = (st2, s2) :=
      ⟨_, _, rfl⟩
    rw [hmap] at hs
    simp only [Prod.mk.injEq] at hs
    obtain ⟨rfl, rfl, rfl⟩ := hs
    obtain ⟨hbelow, hoff⟩ := hclean pfn (pmaAllocateFrame_spec hc halloc hok).1
    obtain ⟨hg, htr⟩ := pmaAllocateFrame_grows h.wf hc halloc
    obtain ⟨hg', ho, -, hmapped⟩ := mapPages_spec count hg.wf hbelow hmap
    refine h.add (hg.trans hg') (ChangesOnly.trans (fun w _ _ => htr w) ho)
      (fun a ha i hi => hoff a ha _ ⟨by omega, by omega⟩) hbelow fun hst i hi => ?_
    have htaken := pmaAllocateFrame_taken h.wf hc halloc hok i hi
    have := (hmapped hst i hi).1
    rw [Nat.mod_eq_of_lt (htaken.lt h.wf)] at this
    exact ⟨pfn + i, htaken.grows hg', this⟩

theorem Inv.step {c : Call} (h : Inv r) (hc : Clean r c) (hs : step r c = some r') : Inv r' := by
  cases c with
  | allocatePages count =>
    cases hs
    exact h.allocatePages hc.1 hc.2 rfl
  | loadKernel vpn count =>
    cases hs
    exact h.allocatePagesTo hc.1 hc.2 rfl
  | loadProgram owner vpn count =>
    obtain ⟨a, ha, rfl⟩ := Option.map_eq_some_iff.mp hs
    obtain ⟨hlo, hhi⟩ := hc a ha
    exact h.loadProgram (List.mem_of_getElem? ha) hlo hhi
  | freePages owner =>
    obtain ⟨a, ha, hs⟩ := Option.bind_eq_some_iff.mp hs
    split_ifs at hs with hk
    cases hs
    exact h.freePages ha
  | bootInfo count =>
    rw [Mm.step] at hs
    split_ifs at hs with hz
    cases hs
    exact h.bootInfo (Nat.pos_of_ne_zero hz) hc rfl

end Steps

/-- Below itself the first directory names one table. -/
theorem bootDirectory_present {cr3 t i : Nat} (hi : i < 1023)
    (hp : (bootDirectory cr3 t i).p = true) : i = 0 := by
  unfold bootDirectory at hp
  split_ifs at hp with h0 h1
  · exact h0
  · omega
  · cases hp

theorem Started.wf {s : State} (h : Started s) : Wf s := by
  obtain ⟨s0, hrange, hcr3, hfree, hinit⟩ := h.before
  obtain ⟨st1, s1, t, halloc⟩ : ∃ st1 s1 t, pmaAllocateFrame s0 1 = (st1, s1, t) := ⟨_, _, _, rfl⟩
  rw [initPageDirectory, halloc] at hinit
  dsimp only at hinit
  cases hok : st1.ok with
  | false =>
    rw [hok] at hinit
    cases hinit
    cases hok
  | true =>
    rw [hok] at hinit
    cases hinit
    obtain ⟨hrun, hfree', hbase, hcount, hcr3', -⟩ := pmaAllocateFrame_spec Nat.one_pos halloc hok
    have hfr : s0.Free t := hrun.free 0 Nat.one_pos
    have ht : t < 2 ^ 20 := by have := hfr.2.1; omega
    have hnf : ¬ s1.Free t := fun hf => ((hfree' t).mp hf).2 ⟨le_rfl, by omega⟩
    have hne : t ≠ s1.cr3 := fun h => hfree (hcr3' ▸ h ▸ hfr)
    have hbase0 : (bootDirectory s1.cr3 t 0).base = t := Nat.mod_eq_of_lt ht
    refine ⟨by dsimp only; omega, by simp [bootDirectory], by dsimp only; omega, ?_, ?_, ?_⟩
    · rintro f (rfl | ⟨i, hi, hp, hb⟩)
      · exact fun hf => hfree (hcr3' ▸ ((hfree' _).mp hf).1)
      · simp only [Function.update_self] at hp hb
        obtain rfl := bootDirectory_present hi hp
        rw [hbase0] at hb
        exact hb ▸ hnf
    · intro i hi hp
      simp only [Function.update_self] at hp ⊢
      obtain rfl := bootDirectory_present hi hp
      rwa [hbase0]
    · intro i hi j hj hpi hpj _
      simp only [Function.update_self] at hpi hpj
      rw [bootDirectory_present hi hpi, bootDirectory_present hj hpj]

/-- **As long as every call stays off the pages in use, every page of `mm_allocate_pages` keeps
its frame and no frame is behind pages of two live allocations.** -/
theorem reachable_sound {r : Run} (h : Reachable r) : Sound r := by
  suffices hinv : Inv r from hinv.sound
  induction h with
  | start h =>
    exact ⟨h.wf, fun a ha => absurd ha List.not_mem_nil, fun a ha => absurd ha List.not_mem_nil,
      List.Pairwise.nil⟩
  | call _ hc hs ih => exact ih.step hc hs

/-! ## A small machine -/

/-- Frames `0x3F0` to `0x40F` are free; the directory lies below them. -/
def smallMachine : State where
  basePfn := 0x3F0
  frameDescCount := 0x20
  bitmap := fun _ => .free
  freeFrames := 0x20
  allocVpn := 0x400
  cr3 := 0x100
  tables := fun _ _ => .zero

def smallStart : State := (initPageDirectory smallMachine).2

theorem smallStart_started : Started smallStart := by
  refine ⟨⟨smallMachine, by decide, by decide, fun h => ?_, ?_⟩, by decide +kernel⟩
  · exact absurd h.1 (by decide)
  · have hok : (initPageDirectory smallMachine).1 = .success := by decide +kernel
    exact Prod.ext hok rfl

/-- Two pages, of which the first translates to frame `0x3F1` for good. -/
theorem reachable_sound_two :
    ∃ r, step ⟨smallStart, []⟩ (.allocatePages 2) = some r ∧ Sound r ∧
      translate r.mm 0x400 = some 0x3F1 := by
  refine ⟨_, rfl,
    reachable_sound (.call (c := .allocatePages 2) (.start smallStart_started) ?_ rfl),
      by decide +kernel⟩
  have hv : smallStart.allocVpn = 0x400 := by decide +kernel
  refine ⟨by rw [hv]; decide, fun i hi => ?_⟩
  revert i
  decide +kernel

/-- What an allocation is and where its first page went. -/
def Alloc.summary (a : Alloc) : Kind × Nat × Nat × Option Nat := (a.kind, a.vpn, a.count, a.got 0)

/-- 14 pages use up the frames below 4 MiB. The table then gets frame `0x400`, and mapping it to
its own number takes page `0x400` from the allocation. -/
theorem bootInfo_diverges :
    ∃ r r', step ⟨smallStart, []⟩ (.allocatePages 14) = some r ∧
      step r (.bootInfo 1) = some r' ∧ translate r.mm 0x400 = some 0x3F1 ∧
      translate r'.mm 0x400 = some 0x400 ∧ ¬ Sound r' := by
  obtain ⟨r, hr⟩ : ∃ r, step ⟨smallStart, []⟩ (.allocatePages 14) = some r := ⟨_, rfl⟩
  obtain ⟨r', hr'⟩ : ∃ r', (step ⟨smallStart, []⟩ (.allocatePages 14)).bind
    (step · (.bootInfo 1)) = some r' := ⟨_, rfl⟩
  have hbefore : (step ⟨smallStart, []⟩ (.allocatePages 14)).map (translate ·.mm 0x400) =
      some (some 0x3F1) := by decide +kernel
  have hafter : ((step ⟨smallStart, []⟩ (.allocatePages 14)).bind (step · (.bootInfo 1))).map
      (fun r => (translate r.mm 0x400, r.live.map Alloc.summary)) =
      some (some 0x400, [(.pages, 0x400, 14, some 0x3F1), (.bootInfo, 0x400, 1, some 0x400)]) := by
    decide +kernel
  rw [hr] at hbefore
  rw [hr'] at hafter
  rw [hr] at hr'
  obtain ⟨htr, hlive⟩ := Prod.mk.inj (Option.some.inj hafter)
  refine ⟨r, r', hr, hr', Option.some.inj hbefore, htr, fun h => ?_⟩
  obtain ⟨a, ha, hsum⟩ := List.exists_of_mem_map (hlive ▸ List.mem_cons_self)
  obtain ⟨hkind, hvpn, hcount, hgot⟩ : a.kind = .pages ∧ a.vpn = 0x400 ∧ a.count = 14 ∧
      a.got 0 = some 0x3F1 := by simpa [Alloc.summary] using hsum
  have hkeeps := h.keeps a ha hkind 0 (by omega)
  rw [hvpn, htr, hgot] at hkeeps
  cases hkeeps

end FoliOS.Vellum.Mm
