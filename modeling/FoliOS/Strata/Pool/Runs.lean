import FoliOS.Strata.Pool.Release

/-!
# Strata — the pool over whole runs

A configuration is a pool state together with the blocks handed out and not yet
freed. `Step` is one call of the public interface on live pointers, with any
answer of the page source; `Reachable` is any finite sequence of such calls from
the zero-initialised pool.

Main results:

* `allocateInternal_spec`, `stPoolFree_spec` — each call keeps the invariant and
  takes or gives back exactly one place (or none).
* `step_ok` — a call on live pointers keeps `ConfigOk`.
* `reachable_poolSafe` — live blocks are disjoint, big enough and inside
  their object area; counters, bitmaps and free lists agree.
-/

namespace FoliOS.Strata.Pool

open Lib

variable {l : Place} {s' s'' : State} {size t h n : Nat} {r : StStatus × Nat × State}

section Calls

variable {s : State} {subs frees : Nat → List Nat}

/-! ## StPool_Free -/

/-- Freeing a taken place gives back exactly that place. -/
theorem stPoolFree_spec (hI : PoolInv s subs frees) (hbusy : BusyExcept s none) (hl : l.Taken s) :
    (∃ subs' frees', PoolInv (stPoolFree s (l.start s)) subs' frees') ∧
      Shrinks s (stPoolFree s (l.start s)) l ∧ BusyExcept (stPoolFree s (l.start s)) none := by
  have hne := (getReservedRange_place hI.toCore hl).2
  cases l with
  | large r =>
    have hfree : stPoolFree s ((Place.large r).start s) = s.freeRange r.beginVpn := by
      unfold stPoolFree
      rw [if_neg hne, show (Place.large r).start s = r.beginVpn * pageSize from rfl,
        find_large hI.toCore hl]
    obtain ⟨hinv, hshr⟩ := freeLarge_spec hI hl
    rw [hfree]
    refine ⟨⟨subs, frees, hinv⟩, hshr, fun a ha hane => ?_⟩
    exact hbusy a ((mem_freeRange hI.spans hl.1).mp ha).1 hane
  | object h k =>
    obtain ⟨hno, hfind⟩ := find_object hI.toCore hl
    obtain ⟨hr, hk, hbit⟩ := hl
    obtain ⟨t, ht⟩ := (hI.spans.linked h).mpr hr
    obtain ⟨hok, hcls⟩ := hI.shapes.header ht
    have hfree : stPoolFree s ((Place.object h k).start s) = releaseObject s t h k := by
      unfold stPoolFree
      rw [if_neg hne, hno, hfind]
      dsimp only
      rw [getObjectEntry_existing hI.shapes hok.cls.pos.ne' hcls.symm]
    have hused : 1 ≤ (s.headers h).usedCount := hbusy h hr (by simp)
    rw [hfree]
    by_cases hlast : (s.headers h).usedCount = 1
    · rw [releaseObject_last hI ht hk hbit hlast]
      obtain ⟨hinv, hshr, huse⟩ := release_last hI ht hk hbit hlast
      refine ⟨hinv, hshr, fun a ha hane => ?_⟩
      have hah : a ≠ h := by
        rintro rfl
        -- the range of the emptied subpool is gone
        have hgone := (List.mem_filter.mp ha).2
        simp at hgone
      rw [huse a hah]
      have hmem := (List.mem_filter.mp ha).1
      have hcore := (clearedBits_core hI.toCore ht hk hbit).removeFree ht
      rw [(clear_detach_eq (hcore.rings.all t) (hcore.rings.last t) ht).2.2,
        removeFromFreeList_ranges] at hmem
      exact hbusy a hmem hane
    · obtain ⟨⟨frees', hinv⟩, hrg, hsh, hbm, huse⟩ :=
        release_busy hI ht hk hbit (by omega)
      refine ⟨⟨subs, frees', hinv⟩, release_shrinks hrg hsh hbm, fun a ha hane => ?_⟩
      rw [hrg] at ha
      have := hbusy a ha hane
      rw [huse, clearedBits_headers]
      split
      · rename_i hah
        subst hah
        show 1 ≤ (s.headers a).usedCount - 1
        omega
      · exact this

/-! ## StPool_Allocate, StPool_AllocateAligned -/

/-- What an allocation call did to the pool. -/
structure Allocated (s : State) (size : Nat) (r : StStatus × Nat × State) : Prop where
  inv     : ∃ subs frees, PoolInv r.2.2 subs frees
  busy    : BusyExcept r.2.2 none
  outcome : (checkSuccess r.1 = false ∧ Keeps s r.2.2) ∨
    (checkSuccess r.1 = true ∧
      ∃ l, Grows s r.2.2 l ∧ r.2.1 = l.start r.2.2 ∧ size ≤ l.len r.2.2)

theorem Keeps.of_eq (hhd : s'.headers = s.headers) (hrg : s'.ranges = s.ranges) : Keeps s s' := by
  refine ⟨fun l => ?_, fun l _ => Place.extent_congr fun a k _ => by
    simp only [State.shape, hhd]⟩
  cases l <;> simp only [Place.Taken, hhd, hrg]

theorem Keeps.trans (hK : Keeps s s') (hK' : Keeps s' s'') : Keeps s s'' :=
  ⟨fun l => (hK'.taken l).trans (hK.taken l), fun l hl => by
    have h1 := hK'.same l ((hK.taken l).mpr hl)
    have h2 := hK.same l hl
    exact ⟨h1.1.trans h2.1, h1.2.trans h2.2⟩⟩

theorem Keeps.trans_grows (hK : Keeps s s') (hG : Grows s' s'' l) : Grows s s'' l :=
  ⟨fun hl => hG.fresh ((hK.taken l).mpr hl), fun l' => by rw [hG.taken, hK.taken],
    fun l' hl' => by
      have h1 := hG.same l' ((hK.taken l').mpr hl')
      have h2 := hK.same l' hl'
      exact ⟨h1.1.trans h2.1, h1.2.trans h2.2⟩⟩

/-- Preparing a call without touching any taken place. -/
theorem Allocated.of_keeps (hK : Keeps s s') (hA : Allocated s' size r) : Allocated s size r :=
  ⟨hA.inv, hA.busy, hA.outcome.imp (fun h => ⟨h.1, hK.trans h.2⟩)
    (fun ⟨hsucc, l, hg, hrest⟩ => ⟨hsucc, l, hK.trans_grows hg, hrest⟩)⟩

theorem BusyExcept.of_eq {o : Option Nat} (hB : BusyExcept s o) (hhd : s'.headers = s.headers)
    (hrg : s'.ranges = s.ranges) : BusyExcept s' o := by
  intro h hh hne
  rw [hhd]
  exact hB h (hrg ▸ hh) hne

/-- `allocate_large` on a request the page source can satisfy or not. -/
theorem allocateLarge_spec (mm : PageSource) (hI : PoolInv s subs frees) (hbusy : BusyExcept s none)
    (hsz : size < 2 ^ 64) (al : Nat) : Allocated s size (allocateLarge mm s size al) := by
  unfold allocateLarge
  dsimp only
  cases hmm : mm.allocate s.ranges (alignDiv 64 size pageSize)
      (if al > pageSizeAlignmentBits then afAlign al else 0) with
  | error e =>
    exact ⟨⟨subs, frees, hI⟩, hbusy, .inl ⟨mm.failure _ _ _ _ hmm, Keeps.of_eq rfl rfl⟩⟩
  | ok v =>
    obtain ⟨hn, hv, hlim, hfresh⟩ := mm.fresh _ _ _ _ hmm
    set n := alignDiv 64 size pageSize with hndef
    have hnot : (⟨v, n, .largeAlloc⟩ : PoolRange) ∉ s.ranges := by
      intro hc
      have := hfresh _ hc
      simp only at this
      omega
    have hmem : ∀ a, (⟨a, subpoolPages, .subpool⟩ : PoolRange) ∈
        (⟨v, n, .largeAlloc⟩ : PoolRange) :: s.ranges ↔
        (⟨a, subpoolPages, .subpool⟩ : PoolRange) ∈ s.ranges := by
      simp
    refine ⟨⟨subs, frees, ⟨⟨hI.rings.congr (fun u a _ => ⟨rfl, rfl, rfl, rfl⟩)
        (fun u => ⟨rfl, rfl, rfl⟩), hI.shapes.congr rfl (fun u a _ => rfl),
        ⟨fun a => (hI.spans.linked a).trans (hmem a).symm, fun r hr hk => ?_, fun r hr => ?_,
          ranges_cons_apart hI.spans hfresh⟩, hI.bits⟩, hI.free_iff⟩⟩,
      fun a ha hane => hbusy a ((hmem a).mp ha) hane,
      .inr ⟨rfl, .large ⟨v, n, .largeAlloc⟩, ⟨fun hl => hnot hl.1, fun l => ?_,
        fun l _ => Place.extent_congr fun a k _ => rfl⟩, rfl, ?_⟩⟩
    · rcases List.mem_cons.mp hr with rfl | hr
      · simp at hk
      · exact hI.spans.pages r hr hk
    · rcases List.mem_cons.mp hr with rfl | hr
      · exact ⟨hv, hn, hlim⟩
      · exact hI.spans.bounds r hr
    · cases l with
      | large r =>
        simp only [Place.Taken, List.mem_cons, Place.large.injEq]
        constructor
        · rintro ⟨rfl | hr, hk⟩
          · exact .inr rfl
          · exact .inl ⟨hr, hk⟩
        · rintro (⟨hr, hk⟩ | rfl)
          · exact ⟨.inr hr, hk⟩
          · exact ⟨.inl rfl, rfl⟩
      | object a k => simp only [Place.Taken, hmem, reduceCtorEq, or_false]
    · -- a wrapped page count would be zero, which the page source refuses
      simp only [Place.len]
      unfold alignDiv at hndef
      simp only [pageSize] at hndef ⊢
      by_cases hwrap : size + 4096 - 1 < 2 ^ 64
      · omega
      · have : (size + 4096 - 1) % 2 ^ 64 = size + 4096 - 1 - 2 ^ 64 := by omega
        omega

/-- Taking an object of a subpool on the free list always succeeds. -/
theorem allocateFromSubpool_spec (hI : PoolInv s subs frees) (hh : h ∈ frees t)
    (hbusy : BusyExcept s (some h)) (hn : (s.cls t).1 = n) (hsize : size ≤ n) :
    Allocated s size (allocateFromSubpool s t h n) := by
  have hsub := hI.rings.sub t hh
  obtain ⟨hok, hcls⟩ := hI.shapes.header hsub
  have hlt := (hI.free_iff t h hsub).mp hh
  obtain ⟨i, b, hfind, hb, hk, hclear⟩ := findFreeObject_spec hok (hI.bits t h hsub) hlt
  have hr := (hI.spans.linked h).mp ⟨t, hsub⟩
  have hcnt := hok.count_lt
  have hobj : (s.headers h).objectSize = n := by rw [← hn, ← hcls]
  have halloc : allocateFromSubpool s t h n = (.success,
      h * pageSize + (s.headers h).headerSize + (i * 64 + b) * n, takeObject s t h i b) := by
    unfold allocateFromSubpool
    rw [hfind]
    dsimp only
    rw [Nat.mod_eq_of_lt (by omega)]
  rw [halloc]
  obtain ⟨frees', hinv⟩ := takeObject_inv hI hh hb hk hclear
  have hsh := (takeObject_header s t h i b h).1
  simp only [State.shape, Prod.mk.injEq] at hsh
  refine ⟨⟨subs, frees', hinv⟩, fun a ha hane => ?_,
    .inr ⟨rfl, .object h (i * 64 + b), takeObject_grows hr hb hk hclear, ?_, ?_⟩⟩
  · simp only [takeObject_ranges] at ha
    obtain ⟨-, hu, -⟩ := takeObject_header s t h i b a
    simp only [hu]
    by_cases hah : a = h
    · subst hah
      rw [if_pos rfl, Nat.mod_eq_of_lt (by omega)]
      omega
    · rw [if_neg hah]
      exact hbusy a ha (by simpa using hah)
  · simp only [Place.start, hsh, hobj]
  · simp only [Place.len, hsh, hobj]
    exact hsize

/-- The subpool path of `allocate_internal`, from the class slot on. -/
theorem allocateSmall_spec (mm : PageSource) (hI : PoolInv s subs frees) (hbusy : BusyExcept s none)
    {al : Nat} (hc : SizeClass n al) (hcls : s.cls t = (n, al)) (hsize : size ≤ n) :
    Allocated s size (match (s.table t).nextFree with
      | some h => allocateFromSubpool s t h n
      | none =>
        match allocateSubpool mm s n al with
        | (.error e, s) => (e, 0, s)
        | (.ok h, s) => allocateFromSubpool s t h n) := by
  have hn : (s.cls t).1 = n := by rw [hcls]
  cases hnf : (s.table t).nextFree with
  | some h =>
    have hh : h ∈ frees t := List.mem_of_head? ((hI.rings.free t).head_eq ▸ hnf)
    exact allocateFromSubpool_spec hI hh (fun a ha _ => hbusy a ha (by simp)) hn hsize
  | none =>
    rcases allocateSubpool_eq mm hI.shapes hc hcls with ⟨e, heq, he⟩ | ⟨v, oc, hs, hmm, hlay, heq⟩
    · rw [heq]
      exact ⟨⟨subs, frees, hI⟩, hbusy, .inl ⟨he, Keeps.of_eq rfl rfl⟩⟩
    · rw [heq]
      obtain ⟨-, hv, hlim, hfresh⟩ := mm.fresh _ _ _ _ hmm
      obtain ⟨⟨subs', frees', hinv, hmem⟩, hext⟩ :=
        withSubpool_inv hI hc hcls hlay hv hlim hfresh
      have hnot : (⟨v, subpoolPages, .subpool⟩ : PoolRange) ∉ s.ranges := fun hr => by
        obtain ⟨u, hu⟩ := (hI.spans.linked v).mpr hr
        exact hI.spans.fresh_notMem (by decide) hfresh u hu
      have hK := withSubpool_keeps hc hlay hnot hext
      obtain ⟨hrg, hcls', hhd⟩ := hext
      have hbusy' : BusyExcept (withSubpool s t v n al oc hs) (some v) := by
        intro a ha hane
        have hav : a ≠ v := by simpa using hane
        rw [hrg, List.mem_cons, PoolRange.mk.injEq] at ha
        obtain ⟨nx, pv, nf, pf, heq'⟩ := hhd a
        rw [heq', if_neg hav]
        exact hbusy a (ha.resolve_left (fun hc => hav hc.1)) (by simp)
      exact (allocateFromSubpool_spec hinv hmem hbusy' (by rw [hcls', hn]) hsize).of_keeps hK

/-- **One allocation call**: it fails and keeps every taken place, or takes one
place at the returned address that holds the requested bytes. -/
theorem allocateInternal_spec (mm : PageSource) (hI : PoolInv s subs frees)
    (hbusy : BusyExcept s none) (hsz : size < 2 ^ 64) (al : Int) :
    Allocated s size (allocateInternal mm s size al) := by
  have hrefl : Keeps s s := Keeps.of_eq rfl rfl
  -- a zero-byte request is served as a one-byte request
  have hweak : ∀ r, Allocated s (if size = 0 then 1 else size) r → Allocated s size r := by
    rintro r ⟨h1, h2, h3⟩
    refine ⟨h1, h2, h3.imp_right ?_⟩
    rintro ⟨hsucc, l, hg, hst, hlen⟩
    refine ⟨hsucc, l, hg, hst, le_trans ?_ hlen⟩
    split <;> omega
  apply hweak
  have hsz' : (if size = 0 then 1 else size) < 2 ^ 64 := by split <;> omega
  have hpos : 0 < (if size = 0 then 1 else size) := by split <;> omega
  unfold allocateInternal
  generalize hm : (if size = 0 then 1 else size) = m at hsz' hpos ⊢
  by_cases hbad : al < 0 ∨ al ≥ 64
  · rw [if_pos hbad]
    exact ⟨⟨subs, frees, hI⟩, hbusy, .inl ⟨rfl, hrefl⟩⟩
  · rw [if_neg hbad]
    by_cases hbig : m > pageSize ∨ normalizeAlignmentBits al > pageSizeAlignmentBits
    · rw [if_pos hbig]
      exact allocateLarge_spec mm hI hbusy hsz' _
    · rw [if_neg hbig]
      by_cases hnorm : normalizeObjectSize (m % 65536) (normalizeAlignmentBits al) > pageSize
      · rw [if_pos hnorm]
        exact allocateLarge_spec mm hI hbusy hsz' _
      · rw [if_neg hnorm]
        have hmle : m ≤ pageSize := by omega
        have hmod : m % 65536 = m := Nat.mod_eq_of_lt (by simp only [pageSize] at hmle; omega)
        have hge := normalizeAlignmentBits_ge (a := al) (by omega)
        have hle : normalizeAlignmentBits al ≤ pageSizeAlignmentBits := by omega
        obtain ⟨hhold, hdvd⟩ := normalizeObjectSize_spec hpos hmle hge hle
        rw [hmod] at hnorm ⊢
        have hc : SizeClass (normalizeObjectSize m (normalizeAlignmentBits al))
            (normalizeAlignmentBits al) := ⟨hge, hle, by omega, by omega, hdvd⟩
        rcases getObjectEntry_spec hI hc with hnone | ⟨t, s', hsome, hI', hcls, hhd, hrg⟩
        · rw [hnone]
          exact ⟨⟨subs, frees, hI⟩, hbusy, .inl ⟨rfl, hrefl⟩⟩
        · rw [hsome]
          exact (allocateSmall_spec mm hI' (hbusy.of_eq hhd hrg) hc hcls hhold).of_keeps
            (Keeps.of_eq hhd hrg)

end Calls

/-! ## Configurations -/

/-- A block handed out: its address and the size asked for. -/
structure Block where
  addr : Nat
  size : Nat
  deriving DecidableEq, Repr

structure Config where
  state : State
  live : List Block

/-- Every live block sits at a taken place that is big enough, and no two live
blocks have the same address. -/
structure LiveOk (s : State) (live : List Block) : Prop where
  placed   : ∀ b ∈ live, ∃ l : Place, l.Taken s ∧ l.start s = b.addr ∧ b.size ≤ l.len s
  distinct : live.Pairwise fun b b' => b.addr ≠ b'.addr

structure ConfigOk (c : Config) : Prop where
  inv  : ∃ subs frees, PoolInv c.state subs frees
  busy : BusyExcept c.state none
  live : LiveOk c.state c.live

variable {b : Block}

section Live

variable {s s' : State} {live : List Block}

theorem LiveOk.keeps (hL : LiveOk s live) (hK : Keeps s s') : LiveOk s' live := by
  refine ⟨fun b hb => ?_, hL.distinct⟩
  obtain ⟨l, hl, hst, hlen⟩ := hL.placed b hb
  obtain ⟨h1, h2⟩ := hK.same l hl
  exact ⟨l, (hK.taken l).mpr hl, h1.trans hst, h2 ▸ hlen⟩

theorem LiveOk.grows {subs frees : Nat → List Nat} (hI : PoolInv s' subs frees) (hL : LiveOk s live)
    (hG : Grows s s' l) (hlen : size ≤ l.len s') : LiveOk s' (⟨l.start s', size⟩ :: live) := by
  have hold : ∀ b ∈ live, ∃ l' : Place, l'.Taken s ∧ l'.start s' = b.addr ∧ b.size ≤ l'.len s' := by
    intro b hb
    obtain ⟨l', hl', hst, hlen'⟩ := hL.placed b hb
    obtain ⟨h1, h2⟩ := hG.same l' hl'
    exact ⟨l', hl', h1.trans hst, h2 ▸ hlen'⟩
  refine ⟨fun b hb => ?_, List.pairwise_cons.mpr ⟨fun b hb => ?_, hL.distinct⟩⟩
  · rcases List.mem_cons.mp hb with rfl | hb
    · exact ⟨l, (hG.taken l).mpr (.inr rfl), rfl, hlen⟩
    · obtain ⟨l', hl', hrest⟩ := hold b hb
      exact ⟨l', (hG.taken l').mpr (.inl hl'), hrest⟩
  · -- an equal address would make the new place one that was taken before
    obtain ⟨l', hl', hst, -⟩ := hold b hb
    intro heq
    have := Place.start_inj hI.toCore ((hG.taken l).mpr (.inr rfl))
      ((hG.taken l').mpr (.inl hl')) (heq.trans hst.symm)
    exact hG.fresh (this ▸ hl')

theorem LiveOk.shrinks (hL : LiveOk s live) (hb : b ∈ live) (hst : l.start s = b.addr)
    (hS : Shrinks s s' l) : LiveOk s' (live.erase b) := by
  refine ⟨fun b' hb' => ?_, hL.distinct.sublist List.erase_sublist⟩
  obtain ⟨l', hl', hst', hlen'⟩ := hL.placed b' (List.mem_of_mem_erase hb')
  have hne : b'.addr ≠ b.addr := by
    have hsymm : Std.Symm fun x y : Block => x.addr ≠ y.addr := ⟨fun _ _ h => h.symm⟩
    refine hL.distinct.forall (List.mem_of_mem_erase hb') hb ?_
    rintro rfl
    have hnd : live.Nodup := hL.distinct.imp (fun h hc => h (by rw [hc]))
    exact (hnd.mem_erase_iff.mp hb').1 rfl
  have hll : l' ≠ l := by
    rintro rfl
    exact hne (hst'.symm.trans hst)
  have htaken := (hS.taken l').mpr ⟨hl', hll⟩
  obtain ⟨h1, h2⟩ := hS.same l' htaken
  exact ⟨l', htaken, h1.trans hst', h2 ▸ hlen'⟩

end Live

/-- The configuration after an allocation call. -/
def Config.allocated (c : Config) (size : Nat) (r : StStatus × Nat × State) : Config :=
  ⟨r.2.2, if checkSuccess r.1 then ⟨r.2.1, size⟩ :: c.live else c.live⟩

/-- The configuration after a reallocation of block `b`. -/
def Config.reallocated (c : Config) (b : Block) (size : Nat) (r : StStatus × Nat × State) :
    Config :=
  ⟨r.2.2, if checkSuccess r.1 then
      if size = 0 then c.live.erase b else ⟨r.2.1, size⟩ :: c.live.erase b
    else c.live⟩

/-- One call on live pointers, with any answer of the page source. -/
inductive Step : Config → Config → Prop where
  | allocate (c : Config) (mm : PageSource) (size : UInt64) :
      Step c (c.allocated size.toNat (stPoolAllocate mm c.state size.toNat))
  | allocateAligned (c : Config) (mm : PageSource) (size : UInt64) (alignment : Int) :
      Step c (c.allocated size.toNat (stPoolAllocateAligned mm c.state size.toNat alignment))
  | reallocate (c : Config) (mm : PageSource) (b : Block) (hb : b ∈ c.live) (size : UInt64) :
      Step c (c.reallocated b size.toNat (stPoolReallocate mm c.state b.addr size.toNat))
  | free (c : Config) (b : Block) (hb : b ∈ c.live) :
      Step c ⟨stPoolFree c.state b.addr, c.live.erase b⟩

/-- The configurations reached by any finite sequence of calls from boot. -/
def Reachable (c : Config) : Prop := Relation.ReflTransGen Step ⟨initial, []⟩ c

variable {c : Config}

theorem Allocated.configOk (hL : LiveOk c.state c.live) (hA : Allocated c.state size r) :
    ConfigOk (c.allocated size r) := by
  obtain ⟨⟨subs, frees, hinv⟩, hbusy, hout⟩ := hA
  refine ⟨⟨subs, frees, hinv⟩, hbusy, ?_⟩
  rcases hout with ⟨hf, hK⟩ | ⟨hsucc, l, hG, hptr, hlen⟩
  · simp only [Config.allocated, hf]
    exact hL.keeps hK
  · simp only [Config.allocated, hsucc, if_true, hptr]
    exact hL.grows hinv hG hlen

theorem free_ok (hc : ConfigOk c) (hb : b ∈ c.live) :
    ConfigOk ⟨stPoolFree c.state b.addr, c.live.erase b⟩ := by
  obtain ⟨⟨subs, frees, hI⟩, hbusy, hL⟩ := hc
  obtain ⟨l, hl, hst, -⟩ := hL.placed b hb
  obtain ⟨hinv, hS, hbusy'⟩ := stPoolFree_spec hI hbusy hl
  rw [hst] at hinv hS hbusy'
  exact ⟨hinv, hbusy', hL.shrinks hb hst hS⟩

/-- Moving a live block: the new block is live, the old one is not. -/
theorem moveBlock_ok (hc : ConfigOk c) (mm : PageSource) (hb : b ∈ c.live) (hsz : size < 2 ^ 64)
    (hpos : size ≠ 0) (al : Nat) :
    ConfigOk (c.reallocated b size (moveBlock mm c.state b.addr size al)) := by
  obtain ⟨⟨subs, frees, hI⟩, hbusy, hL⟩ := hc
  have hA := allocateInternal_spec mm hI hbusy hsz al
  have hmove : moveBlock mm c.state b.addr size al =
      if checkSuccess (allocateInternal mm c.state size al).1 then
        (.success, (allocateInternal mm c.state size al).2.1,
          stPoolFree (allocateInternal mm c.state size al).2.2 b.addr)
      else ((allocateInternal mm c.state size al).1, 0,
        (allocateInternal mm c.state size al).2.2) := rfl
  rw [hmove]
  generalize allocateInternal mm c.state size al = r at hA ⊢
  have hok := hA.configOk hL
  by_cases hsucc : checkSuccess r.1 = true
  · simp only [Config.allocated, hsucc, if_true] at hok
    have hdist := (List.pairwise_cons.mp hok.live.distinct).1 b hb
    have hfree := free_ok hok (List.mem_cons_of_mem _ hb)
    have hne : (⟨r.2.1, size⟩ : Block) ≠ b := fun heq => hdist (by rw [← heq])
    have herase : (⟨r.2.1, size⟩ :: c.live).erase b = ⟨r.2.1, size⟩ :: c.live.erase b :=
      List.erase_cons_tail (by simpa using hne)
    rw [herase] at hfree
    rw [if_pos hsucc]
    simpa [Config.reallocated, checkSuccess, hpos] using hfree
  · simp only [Config.allocated, hsucc] at hok
    simpa [Config.reallocated, hsucc] using hok

/-- Keeping a live block in place under a new requested size. -/
theorem resize_ok (hc : ConfigOk c) (hb : b ∈ c.live) (hpos : size ≠ 0) (hl : l.Taken c.state)
    (hst : l.start c.state = b.addr) (hlen : size ≤ l.len c.state) :
    ConfigOk (c.reallocated b size (.success, b.addr, c.state)) := by
  obtain ⟨hinv, hbusy, hL⟩ := hc
  refine ⟨hinv, hbusy, ?_⟩
  simp only [Config.reallocated, checkSuccess, if_true, if_neg hpos]
  have hsymm : Std.Symm fun x y : Block => x.addr ≠ y.addr := ⟨fun _ _ h => h.symm⟩
  have hnd : c.live.Nodup := hL.distinct.imp (fun h hc => h (by rw [hc]))
  refine ⟨fun b' hb' => ?_, List.pairwise_cons.mpr ⟨fun b' hb' => ?_,
    hL.distinct.sublist List.erase_sublist⟩⟩
  · rcases List.mem_cons.mp hb' with rfl | hb'
    · exact ⟨l, hl, hst, hlen⟩
    · exact hL.placed b' (List.mem_of_mem_erase hb')
  · obtain ⟨hne, hmem⟩ := hnd.mem_erase_iff.mp hb'
    exact hL.distinct.forall hb hmem (Ne.symm hne)

theorem reallocate_ok (hc : ConfigOk c) (mm : PageSource) (hb : b ∈ c.live) (hsz : size < 2 ^ 64) :
    ConfigOk (c.reallocated b size (stPoolReallocate mm c.state b.addr size)) := by
  obtain ⟨subs, frees, hI⟩ := hc.inv
  obtain ⟨l, hl, hst, -⟩ := hc.live.placed b hb
  have hne := (getReservedRange_place hI.toCore hl).2
  rw [hst] at hne
  unfold stPoolReallocate
  rw [if_neg hne]
  by_cases h0 : size = 0
  · simpa [Config.reallocated, checkSuccess, h0] using free_ok hc hb
  · rw [if_neg h0]
    cases l with
    | large r =>
      have hfind := find_large hI.toCore hl
      rw [show r.beginVpn * pageSize = b.addr from hst] at hfind
      rw [hfind]
      dsimp only
      split
      · rename_i hle
        exact resize_ok hc hb h0 hl hst hle
      · exact moveBlock_ok hc mm hb hsz h0 _
    | object h k =>
      obtain ⟨hno, hfind⟩ := find_object hI.toCore hl
      rw [hst] at hno hfind
      rw [hno, hfind]
      dsimp only
      split
      · rename_i hle
        exact resize_ok hc hb h0 hl hst hle
      · exact moveBlock_ok hc mm hb hsz h0 _

/-- **One step**: a call on live pointers keeps a configuration in order. -/
theorem step_ok {c' : Config} (hc : ConfigOk c) (hstep : Step c c') : ConfigOk c' := by
  obtain ⟨subs, frees, hI⟩ := hc.inv
  cases hstep with
  | allocate mm size | allocateAligned mm size alignment =>
    exact (allocateInternal_spec mm hI hc.busy size.toNat_lt _).configOk hc.live
  | reallocate mm b hb size => exact reallocate_ok hc mm hb size.toNat_lt
  | free b hb => exact free_ok hc hb

theorem initial_ok : ConfigOk ⟨initial, []⟩ := by
  have hnil : ∀ nx pv : Nat → Option Nat, IsDList nx pv none [] :=
    fun nx pv => ⟨rfl, List.nodup_nil, trivial⟩
  refine ⟨⟨fun _ => [], fun _ => [], ⟨⟨⟨fun t => hnil _ _, fun t => rfl, fun t => hnil _ _,
    fun t => List.Subset.refl _, by simp⟩, ⟨?_, ?_, fun t _ => rfl, ?_, by simp⟩,
    ⟨by simp [initial], by simp [initial], by simp [initial], List.Pairwise.nil⟩, by simp⟩,
    by simp⟩⟩, ?_, ⟨by simp, List.Pairwise.nil⟩⟩
  · intro t h; simp [State.cls, initial] at h
  · intro t t' h; simp [State.cls, initial] at h
  · intro t h; simp [State.cls, initial] at h
  · intro h hh; simp [initial] at hh

theorem reachable_ok (hc : Reachable c) : ConfigOk c := by
  induction hc with
  | refl => exact initial_ok
  | tail _ hstep ih => exact step_ok ih hstep

/-! ## What holds in every reachable configuration -/

/-- The bytes available at a pool pointer, as `StPool_Reallocate` finds them. -/
def capacity (s : State) (ptr : Nat) : Nat :=
  match findLargeAllocationRangeFromPtr s ptr with
  | some r => r.pageCount * pageSize
  | none =>
    match findSubpoolHeaderFromPtr s ptr with
    | some (h, _) => (s.headers h).objectSize
    | none => 0

/-- The block fills a held large range from its first byte. -/
def FillsLargeRange (s : State) (b : Block) : Prop :=
  ∃ r ∈ s.ranges, r.kind = .largeAlloc ∧ b.addr = r.beginVpn * pageSize ∧
    capacity s b.addr = r.pageCount * pageSize

/-- The block lies in the object area of a held subpool, behind its header
structure and its bitmap. -/
def InObjectArea (s : State) (b : Block) : Prop :=
  ∃ r ∈ s.ranges, r.kind = .subpool ∧
    let x := s.headers r.beginVpn
    headerStructSize + getSubpoolBitmapWordCount x.objectCount * 8 ≤ x.headerSize ∧
    r.beginVpn * pageSize + x.headerSize ≤ b.addr ∧
    b.addr + capacity s b.addr ≤
      r.beginVpn * pageSize + x.headerSize + x.objectSize * x.objectCount ∧
    r.beginVpn * pageSize + x.headerSize + x.objectSize * x.objectCount ≤
      (r.beginVpn + r.pageCount) * pageSize

/-- The subpool at page `h` is found by walking the free list of its class. -/
def OnFreeList (s : State) (h : Nat) : Prop :=
  ∃ t < subpoolTableSize, (s.table t).objectSize = (s.headers h).objectSize ∧
    (s.table t).alignmentBits = (s.headers h).alignmentBits ∧
    Walk (fun a => (s.headers a).nextFree) (s.table t).nextFree h

/-- Live blocks are disjoint, big enough and off the metadata; counters, bitmaps
and free lists agree. -/
structure PoolSafe (c : Config) : Prop where
  disjoint : c.live.Pairwise fun b b' =>
    b.addr + capacity c.state b.addr ≤ b'.addr ∨ b'.addr + capacity c.state b'.addr ≤ b.addr
  holds    : ∀ b ∈ c.live, b.size ≤ capacity c.state b.addr
  inside   : ∀ b ∈ c.live, FillsLargeRange c.state b ∨ InObjectArea c.state b
  used     : ∀ r ∈ c.state.ranges, r.kind = .subpool →
    (c.state.headers r.beginVpn).usedCount =
      countBits (c.state.headers r.beginVpn).bitmap (c.state.headers r.beginVpn).objectCount ∧
    1 ≤ (c.state.headers r.beginVpn).usedCount
  free     : ∀ r ∈ c.state.ranges, r.kind = .subpool →
    (OnFreeList c.state r.beginVpn ↔
      (c.state.headers r.beginVpn).usedCount < (c.state.headers r.beginVpn).objectCount)

section Safe

variable {s : State} {subs frees : Nat → List Nat}

section

variable (hI : PoolInv s subs frees)
include hI

theorem capacity_place (hl : l.Taken s) : capacity s (l.start s) = l.len s := by
  unfold capacity
  cases l with
  | large r => rw [show (Place.large r).start s = r.beginVpn * pageSize from rfl,
      find_large hI.toCore hl]; rfl
  | object h k => rw [(find_object hI.toCore hl).1, (find_object hI.toCore hl).2]; rfl

theorem subpool_range_eq {r : PoolRange} (hr : r ∈ s.ranges) (hk : r.kind = .subpool) :
    r = ⟨r.beginVpn, subpoolPages, .subpool⟩ := by
  have := hI.spans.pages r hr hk
  cases r
  simp_all

theorem onFreeList_iff (ht : h ∈ subs t) : OnFreeList s h ↔ h ∈ frees t := by
  obtain ⟨hok, hcls⟩ := hI.shapes.header ht
  have hne : (s.cls t).1 ≠ 0 := by
    rw [← hcls]
    exact hok.cls.pos.ne'
  simp only [State.cls, Prod.mk.injEq] at hcls
  constructor
  · rintro ⟨u, -, h1, h2, hw⟩
    have hut : t = u := hI.shapes.uniq t u hne (by
      simp only [State.cls, Prod.mk.injEq]
      exact ⟨hcls.1.symm.trans h1.symm, hcls.2.symm.trans h2.symm⟩)
    subst hut
    exact (hI.rings.free t).walk_iff.mp hw
  · intro hf
    exact ⟨t, hI.shapes.slot t hne, hcls.1.symm, hcls.2.symm, (hI.rings.free t).walk_iff.mpr hf⟩

theorem inside_of_taken (hl : l.Taken s) (hst : l.start s = b.addr) :
    FillsLargeRange s b ∨ InObjectArea s b := by
  have hcap := capacity_place hI hl
  rw [hst] at hcap
  cases l with
  | large r => exact .inl ⟨r, hl.1, hl.2, hst.symm, hcap⟩
  | object h k =>
    obtain ⟨hr, hk, -⟩ := hl
    have hok := (hI.toCore.header hr).1
    have harea := hok.area hk
    right
    refine ⟨_, hr, rfl, hok.layout.header_ge, ?_, ?_, ?_⟩
    · simp only [Place.start] at hst
      simp only
      omega
    · rw [hcap]
      simp only [Place.start, Place.len] at hst ⊢
      omega
    · simp only [Nat.add_mul]
      omega

end

end Safe

/-- **Pool safety.** After any finite sequence of calls on live pointers, with
any behaviour of the page source, live blocks are pairwise disjoint, hold the
requested bytes and stay clear of headers and bitmaps; every counter equals its
number of set bits and is at least 1; and the free list of a class holds exactly
its subpools with a free object. -/
theorem reachable_poolSafe (c : Config) (hc : Reachable c) : PoolSafe c := by
  obtain ⟨⟨subs, frees, hI⟩, hbusy, hL⟩ := reachable_ok hc
  refine ⟨?_, fun b hb => ?_, fun b hb => ?_, fun r hr hk => ?_, fun r hr hk => ?_⟩
  · refine hL.distinct.imp_of_mem fun {b b'} hb hb' hne => ?_
    obtain ⟨l, hl, hst, -⟩ := hL.placed b hb
    obtain ⟨l', hl', hst', -⟩ := hL.placed b' hb'
    have hll : l ≠ l' := by
      rintro rfl
      exact hne (hst.symm.trans hst')
    rw [← hst, ← hst', capacity_place hI hl, capacity_place hI hl']
    exact Place.disjoint hI.toCore hl hl' hll
  · obtain ⟨l, hl, hst, hlen⟩ := hL.placed b hb
    rw [← hst, capacity_place hI hl]
    exact hlen
  · obtain ⟨l, hl, hst, -⟩ := hL.placed b hb
    exact inside_of_taken hI hl hst
  · have heq := subpool_range_eq hI hr hk
    rw [heq] at hr
    obtain ⟨t, ht⟩ := (hI.spans.linked _).mpr hr
    exact ⟨(hI.bits t _ ht).used, hbusy _ hr (by simp)⟩
  · have heq := subpool_range_eq hI hr hk
    rw [heq] at hr
    obtain ⟨t, ht⟩ := (hI.spans.linked _).mpr hr
    rw [onFreeList_iff hI ht]
    exact hI.free_iff t _ ht

/-- A page source that hands out pages above every range held. -/
def bumpSource : PageSource where
  allocate rs n _ :=
    let v := rs.foldr (fun r m => max (r.beginVpn + r.pageCount) m) 1
    if n = 0 then .error .invalidValue
    else if v + n ≤ pageLimit then .ok v else .error .insufficientMemory
  fresh := by
    intro rs n fl v h
    dsimp only at h
    split at h
    · simp at h
    · rename_i hn
      split at h
      · rename_i hlim
        rw [Except.ok.injEq] at h
        have hge : 1 ≤ v ∧ ∀ r ∈ rs, r.beginVpn + r.pageCount ≤ v := by
          rw [← h]
          clear h hlim
          induction rs with
          | nil => simp
          | cons r rs ih =>
            refine ⟨le_trans ih.1 (le_max_right _ _), fun r' hr' => ?_⟩
            rcases List.mem_cons.mp hr' with rfl | hr'
            · exact le_max_left _ _
            · exact le_trans (ih.2 r' hr') (le_max_right _ _)
        exact ⟨by omega, hge.1, h ▸ hlim, fun r hr => .inr (hge.2 r hr)⟩
      · simp at h
  failure := by
    intro rs n fl e h
    dsimp only at h
    split at h
    · cases h
      rfl
    · split at h
      · simp at h
      · cases h
        rfl

/-- Two small blocks. -/
def twoBlocks : Config :=
  let c := (⟨initial, []⟩ : Config).allocated 100 (stPoolAllocate bumpSource initial 100)
  c.allocated 24 (stPoolAllocate bumpSource c.state 24)

/-- Two small blocks and a large one. -/
def threeBlocks : Config :=
  twoBlocks.allocated 5000 (stPoolAllocateAligned bumpSource twoBlocks.state 5000 12)

theorem threeBlocks_reachable : Reachable threeBlocks :=
  ((Relation.ReflTransGen.single (Step.allocate ⟨initial, []⟩ bumpSource 100)).tail
    (Step.allocate _ bumpSource 24)).tail (Step.allocateAligned twoBlocks bumpSource 5000 12)

theorem threeBlocks_live :
    threeBlocks.live = [⟨135168, 5000⟩, ⟨69936, 24⟩, ⟨4224, 100⟩] := by
  decide +kernel

/-- The first of three blocks is freed. -/
theorem reachable_poolSafe_three_blocks : ∃ c, Reachable c ∧
    c.live = [⟨135168, 5000⟩, ⟨69936, 24⟩] ∧ PoolSafe c := by
  have hmem : (⟨4224, 100⟩ : Block) ∈ threeBlocks.live := by
    rw [threeBlocks_live]
    decide
  have hreach : Reachable
      ⟨stPoolFree threeBlocks.state 4224, threeBlocks.live.erase ⟨4224, 100⟩⟩ :=
    threeBlocks_reachable.tail (Step.free threeBlocks ⟨4224, 100⟩ hmem)
  refine ⟨_, hreach, ?_, reachable_poolSafe _ hreach⟩
  rw [threeBlocks_live]
  rfl

/-- **Allocating and freeing.** After any run, an allocation and the free of its block leave the
same places taken. -/
theorem allocate_free (hc : Reachable c) (mm : PageSource) (size : UInt64) (alignment : Int)
    {ptr : Nat} {s : State} (heq : stPoolAllocateAligned mm c.state size.toNat alignment =
      (.success, ptr, s)) :
    Keeps c.state (stPoolFree s ptr) := by
  obtain ⟨⟨subs, frees, hI⟩, hbusy, -⟩ := reachable_ok hc
  have hA := allocateInternal_spec mm hI hbusy size.toNat_lt alignment
  rw [show allocateInternal mm c.state size.toNat alignment = _ from heq] at hA
  obtain ⟨⟨subs', frees', hI'⟩, hbusy', ⟨hfail, -⟩ | ⟨-, l, hG, hptr, -⟩⟩ := hA
  · cases hfail
  obtain ⟨-, hS, -⟩ := stPoolFree_spec hI' hbusy' ((hG.taken l).mpr (.inr rfl))
  rw [← show ptr = l.start s from hptr] at hS
  -- the place taken is the one given back
  have htaken : ∀ l' : Place, l'.Taken (stPoolFree s ptr) ↔ l'.Taken c.state := by
    intro l'
    rw [hS.taken, hG.taken]
    refine ⟨fun h => h.1.resolve_right h.2, fun h => ⟨.inl h, ?_⟩⟩
    rintro rfl
    exact hG.fresh h
  refine ⟨htaken, fun l' hl' => ?_⟩
  obtain ⟨hstart, hlen⟩ := hS.same l' ((htaken l').mpr hl')
  exact ⟨hstart.trans (hG.same l' hl').1, hlen.trans (hG.same l' hl').2⟩

/-- Another 100 bytes beside the three blocks, allocated and freed. -/
theorem allocate_free_three_blocks :
    ∃ ptr s, stPoolAllocateAligned bumpSource threeBlocks.state 100 3 = (.success, ptr, s) ∧
      Keeps threeBlocks.state (stPoolFree s ptr) := by
  have hst : (stPoolAllocateAligned bumpSource threeBlocks.state 100 3).1 = .success := by
    decide +kernel
  rcases heq : stPoolAllocateAligned bumpSource threeBlocks.state 100 3 with ⟨st, ptr, s⟩
  rw [heq] at hst
  cases hst
  exact ⟨ptr, s, rfl, allocate_free threeBlocks_reachable bumpSource 100 3 heq⟩

end FoliOS.Strata.Pool
