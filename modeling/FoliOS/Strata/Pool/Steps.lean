import FoliOS.Strata.Pool.Invariant

/-!
# Strata — what each pool operation does to the taken places

Each operation of `pool.c` keeps the invariant and takes or gives back at most
one place; every other taken place keeps its address and length.
-/

namespace FoliOS.Strata.Pool

open Function Lib

variable {t n al i b h u v oc hs : Nat} {bm : Nat → BitVec 64} {x : SubpoolHeader} {s' : State}

/-- Places taken before stay taken, at the same address and with the same length. -/
structure Keeps (s s' : State) : Prop where
  taken : ∀ l : Place, l.Taken s' ↔ l.Taken s
  same  : ∀ l : Place, l.Taken s → l.start s' = l.start s ∧ l.len s' = l.len s

/-- Exactly the place `l₀` is newly taken. -/
structure Grows (s s' : State) (l₀ : Place) : Prop where
  fresh : ¬ l₀.Taken s
  taken : ∀ l : Place, l.Taken s' ↔ l.Taken s ∨ l = l₀
  same  : ∀ l : Place, l.Taken s → l.start s' = l.start s ∧ l.len s' = l.len s

/-- Exactly the place `l₀` is given back. -/
structure Shrinks (s s' : State) (l₀ : Place) : Prop where
  taken : ∀ l : Place, l.Taken s' ↔ l.Taken s ∧ l ≠ l₀
  same  : ∀ l : Place, l.Taken s' → l.start s' = l.start s ∧ l.len s' = l.len s

/-- Every subpool except possibly `h₀` has an object in use. -/
def BusyExcept (s : State) (h₀ : Option Nat) : Prop :=
  ∀ h, (⟨h, subpoolPages, .subpool⟩ : PoolRange) ∈ s.ranges → some h ≠ h₀ →
    1 ≤ (s.headers h).usedCount

section

variable {s : State} {subs frees : Nat → List Nat}

/-! ## Class slots -/

/-- The slot of a class in use is found without changing the table. -/
theorem getObjectEntry_existing (hS : Shapes s subs) (hn : n ≠ 0) (hcls : s.cls t = (n, al)) :
    getObjectEntry s n al = (some t, s) := by
  simp only [State.cls, Prod.mk.injEq] at hcls
  have ht : t < subpoolTableSize := hS.slot t (by simp [State.cls, hcls, hn])
  unfold getObjectEntry
  cases hf : (List.range subpoolTableSize).find? fun i =>
      decide ((s.table i).objectSize = n) && decide ((s.table i).alignmentBits = al) with
  | none =>
    have := List.find?_eq_none.mp hf t (List.mem_range.mpr ht)
    simp [hcls] at this
  | some i =>
    have hi := List.find?_some hf
    simp only [Bool.and_eq_true, decide_eq_true_eq] at hi
    have : i = t := hS.uniq i t (by simp [State.cls, hi, hn]) (by simp [State.cls, hi, hcls])
    rw [this]

/-- What `get_object_entry` does for a class the allocator asks for. -/
theorem getObjectEntry_spec (hI : PoolInv s subs frees) (hc : SizeClass n al) :
    (getObjectEntry s n al = (none, s)) ∨
    ∃ t s', getObjectEntry s n al = (some t, s') ∧ PoolInv s' subs frees ∧ s'.cls t = (n, al) ∧
      s'.headers = s.headers ∧ s'.ranges = s.ranges := by
  unfold getObjectEntry
  cases hf : (List.range subpoolTableSize).find? fun i =>
      decide ((s.table i).objectSize = n) && decide ((s.table i).alignmentBits = al) with
  | some i =>
    have hi := List.find?_some hf
    simp only [Bool.and_eq_true, decide_eq_true_eq] at hi
    exact .inr ⟨i, s, rfl, hI, by simp [State.cls, hi], rfl, rfl⟩
  | none =>
    cases hg : (List.range subpoolTableSize).find? fun i => decide ((s.table i).objectSize = 0) with
    | none => exact .inl rfl
    | some i =>
      right
      have hi0 : (s.table i).objectSize = 0 := by simpa using List.find?_some hg
      have hilt : i < subpoolTableSize := List.mem_range.mp (List.mem_of_find?_eq_some hg)
      -- no slot in use has this class
      have hnone : ∀ u, s.cls u ≠ (n, al) := by
        intro u hu
        have hult := hI.shapes.slot u (by rw [hu]; exact hc.pos.ne')
        have := List.find?_eq_none.mp hf u (List.mem_range.mpr hult)
        simp only [State.cls, Prod.mk.injEq] at hu
        simp [hu] at this
      refine ⟨i, _, rfl, ?_, by simp [State.cls], rfl, rfl⟩
      set s' := s.modEntry i fun e => { e with objectSize := n, alignmentBits := al } with hs'
      have hcls : ∀ u, s'.cls u = if u = i then (n, al) else s.cls u := by
        intro u
        simp only [State.cls, hs', modEntry_table]
        split <;> rfl
      have hnil : subs i = [] := hI.shapes.empty i hi0
      refine ⟨⟨?_, ⟨fun u hu => ?_, fun u u' hu heq => ?_, fun u hu => ?_, fun u hu => ?_,
        fun u a ha => ?_⟩, ⟨hI.spans.linked, hI.spans.pages, hI.spans.bounds, hI.spans.apart⟩,
        hI.bits⟩, hI.free_iff⟩
      · refine hI.rings.congr (fun u a _ => ⟨rfl, rfl, rfl, rfl⟩) (fun u => ?_)
        simp only [hs', modEntry_table]
        split <;> exact ⟨rfl, rfl, rfl⟩
      · rw [hcls] at hu
        split at hu
        · rename_i hui
          rwa [hui]
        · exact hI.shapes.slot u hu
      · rw [hcls, hcls] at heq
        rw [hcls] at hu
        split at heq <;> split at heq
        · simp [*]
        · exact absurd heq.symm (hnone u')
        · exact absurd heq (hnone u)
        · rename_i h1 h2
          rw [if_neg h1] at hu
          exact hI.shapes.uniq u u' hu heq
      · rw [hcls] at hu
        split at hu
        · exact absurd hu hc.pos.ne'
        · exact hI.shapes.empty u hu
      · rw [hcls] at hu ⊢
        split
        · exact hc
        · rename_i hui
          rw [if_neg hui] at hu
          exact hI.shapes.cls u hu
      · have hui : u ≠ i := by
          rintro rfl
          rw [hnil] at ha
          simp at ha
        rw [hcls, if_neg hui]
        exact hI.shapes.shape u a ha

/-! ## Bitmaps -/

theorem getBit_word (hb : b < 64) : getBit bm (i * 64 + b) = (bm i).getLsbD b := by
  unfold getBit
  rw [show (i * 64 + b) / 64 = i by omega, show (i * 64 + b) % 64 = b by omega]

/-- The bitmap search finds a free object whenever the counter says there is one. -/
theorem findFreeObject_spec (hx : HeaderOk x) (hb : BitsOk x) (hlt : x.usedCount < x.objectCount) :
    ∃ i b, findFreeObject x = some (i, b) ∧ b < 64 ∧ i * 64 + b < x.objectCount ∧
      getBit x.bitmap (i * 64 + b) = false := by
  have hw := wordCount_eq hx.count_lt
  obtain ⟨k, hk, hclear⟩ := exists_clear_of_countBits_lt (hb.used ▸ hlt)
  unfold findFreeObject
  cases hf : (List.range (getSubpoolBitmapWordCount x.objectCount)).find? fun i =>
      decide (x.bitmap i ≠ BitVec.allOnes 64) with
  | none =>
    have hfull := List.find?_eq_none.mp hf (k / 64) (List.mem_range.mpr (by rw [hw]; omega))
    simp only [ne_eq, decide_not, Bool.not_eq_true', decide_eq_false_iff_not, not_not] at hfull
    rw [getBit, hfull, BitVec.getLsbD_allOnes] at hclear
    simp [Nat.mod_lt] at hclear
  | some i =>
    have hne : x.bitmap i ≠ BitVec.allOnes 64 := by simpa using List.find?_some hf
    have hi := List.mem_range.mp (List.mem_of_find?_eq_some hf)
    obtain ⟨hblt, hbit⟩ := ctz_not_spec hne
    refine ⟨i, ctz (~~~x.bitmap i), rfl, hblt, ?_, (getBit_word hblt).trans hbit⟩
    -- a clear bit is no padding bit
    by_contra hge
    have := hb.pad (i * 64 + ctz (~~~x.bitmap i)) (by omega) (by omega)
    rw [getBit_word hblt, hbit] at this
    simp at this

/-- Rewriting bitmap and counter of one linked header. -/
theorem Core.setBits (hI : Core s subs frees)
    (hb : BitsOk { s.headers h with bitmap := bm, usedCount := u }) :
    Core (s.modHeader h fun x => { x with bitmap := bm, usedCount := u }) subs frees := by
  set s' := s.modHeader h fun x => { x with bitmap := bm, usedCount := u } with hs'
  have hhd : ∀ a, s'.headers a =
      if a = h then { s.headers a with bitmap := bm, usedCount := u } else s.headers a :=
    fun a => modHeader_headers s h a _
  refine ⟨hI.rings.congr (fun v a _ => ?_) (fun v => ⟨rfl, rfl, rfl⟩),
    hI.shapes.congr rfl (fun v a _ => ?_),
    ⟨hI.spans.linked, hI.spans.pages, hI.spans.bounds, hI.spans.apart⟩, fun v a ha => ?_⟩
  · simp only [State.nx, State.pv, State.nxF, State.pvF, hhd]
    split <;> exact ⟨rfl, rfl, rfl, rfl⟩
  · simp only [State.shape, hhd]
    split <;> rfl
  · rw [hhd]
    split
    · rename_i hah
      rwa [hah]
    · exact hI.bits v a ha

theorem BitsOk.congr {y : SubpoolHeader} (hx : BitsOk x) (h1 : y.usedCount = x.usedCount)
    (h2 : y.objectCount = x.objectCount) (h3 : y.bitmap = x.bitmap) : BitsOk y :=
  ⟨by rw [h1, h2, h3]; exact hx.used, by rw [h2, h3]; exact hx.pad⟩

theorem Core.removeFree (hI : Core s subs frees) (hh : h ∈ subs t) :
    Core (removeFromFreeList s t h) subs (update frees t ((frees t).erase h)) := by
  refine ⟨removeFromFreeList_rings' hI.rings hI.shapes hh, removeFromFreeList_shapes hI.shapes,
    ?_, fun u a ha => ?_⟩
  · obtain ⟨h1, h2, h3, h4⟩ := hI.spans
    refine ⟨?_, ?_, ?_, ?_⟩ <;> rwa [removeFromFreeList_ranges]
  · rw [removeFromFreeList_headers]
    exact (hI.bits u a ha).congr rfl rfl rfl

theorem Core.pushFree (hI : Core s subs frees) (hh : h ∈ subs t) (hoff : h ∉ frees t) :
    Core (pushToFreeList s t h) subs (update frees t (h :: frees t)) := by
  obtain ⟨hnf, hpf⟩ := hI.rings.off t h hh hoff
  obtain ⟨hhd, -, hrg⟩ := pushToFreeList_eq hpf hnf (hI.rings.off_head hoff)
  refine ⟨pushToFreeList_rings hI.rings hI.shapes hh hoff,
    pushToFreeList_shapes hI.rings hI.shapes hh hoff, ?_, fun u a ha => ?_⟩
  · obtain ⟨h1, h2, h3, h4⟩ := hI.spans
    refine ⟨?_, ?_, ?_, ?_⟩ <;> rwa [hrg]
  · rw [hhd]
    exact (hI.bits u a ha).congr rfl rfl rfl

/-! ## Taking an object -/

/-- Address and length of a place only depend on the shape of its header. -/
theorem Place.extent_congr {l : Place} (hsh : ∀ h k, l = .object h k → s'.shape h = s.shape h) :
    l.start s' = l.start s ∧ l.len s' = l.len s := by
  cases l with
  | large r => exact ⟨rfl, rfl⟩
  | object h k =>
    have := hsh h k rfl
    simp only [State.shape, Prod.mk.injEq] at this
    simp only [Place.start, Place.len, this, and_self]

theorem takeObject_ranges (s : State) (t h i b : Nat) :
    (takeObject s t h i b).ranges = s.ranges := by
  unfold takeObject
  dsimp only
  split
  · rw [removeFromFreeList_ranges, modHeader_ranges]
  · rw [modHeader_ranges]

/-- What `takeObject` writes, free links apart. -/
theorem takeObject_header (s : State) (t h i b a : Nat) :
    (takeObject s t h i b).shape a = s.shape a ∧
    ((takeObject s t h i b).headers a).usedCount =
      (if a = h then ((s.headers a).usedCount + 1) % 65536 else (s.headers a).usedCount) ∧
    ((takeObject s t h i b).headers a).bitmap =
      (if a = h then setWordBit (s.headers a).bitmap i b else (s.headers a).bitmap) := by
  unfold takeObject State.shape
  dsimp only
  split <;> simp only [removeFromFreeList_headers, modHeader_headers] <;> split <;>
    exact ⟨rfl, rfl, rfl⟩

/-- The invariant after an update that concerns the single subpool `h`. -/
theorem PoolInv.update (hI : PoolInv s subs frees) {frees' : Nat → List Nat}
    (hcore : Core s' subs frees') (hh : h ∈ subs t)
    (hfr : ∀ u, ∀ a ≠ h, (a ∈ frees' u ↔ a ∈ frees u))
    (hhd : ∀ a ≠ h, s'.shape a = s.shape a ∧ (s'.headers a).usedCount = (s.headers a).usedCount)
    (hself : h ∈ frees' t ↔ (s'.headers h).usedCount < (s'.headers h).objectCount) :
    PoolInv s' subs frees' := by
  refine ⟨hcore, fun u a ha => ?_⟩
  by_cases hah : a = h
  · subst hah
    rwa [hI.shapes.slot_unique ha hh]
  · obtain ⟨hsh, hu⟩ := hhd a hah
    simp only [State.shape, Prod.mk.injEq] at hsh
    rw [hfr u a hah, hu, hsh.2.2.1]
    exact hI.free_iff u a ha

theorem mem_update_erase {a : Nat} (hah : a ≠ h) :
    a ∈ update frees t ((frees t).erase h) u ↔ a ∈ frees u := by
  by_cases hu : u = t
  · rw [hu, update_self, List.mem_erase_of_ne hah]
  · rw [update_of_ne hu]

/-- Taking a free object keeps the invariant. -/
theorem takeObject_inv (hI : PoolInv s subs frees) (hh : h ∈ frees t) (hb : b < 64)
    (hk : i * 64 + b < (s.headers h).objectCount)
    (hclear : getBit (s.headers h).bitmap (i * 64 + b) = false) :
    ∃ frees', PoolInv (takeObject s t h i b) subs frees' := by
  have hsub := hI.rings.sub t hh
  have hbits := hI.bits t h hsub
  have hcnt := (hI.shapes.header hsub).1.count_lt
  have hused := (hI.free_iff t h hsub).mp hh
  have hmod : ((s.headers h).usedCount + 1) % 65536 = (s.headers h).usedCount + 1 :=
    Nat.mod_eq_of_lt (by omega)
  have hnew : BitsOk { s.headers h with
      bitmap := setWordBit (s.headers h).bitmap i b,
      usedCount := ((s.headers h).usedCount + 1) % 65536 } := by
    refine ⟨?_, fun k h1 h2 => ?_⟩
    · rw [hmod, countBits_setWordBit hb hk hclear, ← hbits.used]
    · rw [getBit_setWordBit _ hb, hbits.pad k h1 h2, Bool.or_true]
  have hcore := hI.toCore.setBits hnew
  have hother : ∀ a ≠ h, (takeObject s t h i b).shape a = s.shape a ∧
      ((takeObject s t h i b).headers a).usedCount = (s.headers a).usedCount := by
    intro a hah
    obtain ⟨h1, h2, -⟩ := takeObject_header s t h i b a
    exact ⟨h1, by rw [h2, if_neg hah]⟩
  obtain ⟨hsh, hu, -⟩ := takeObject_header s t h i b h
  simp only [State.shape, Prod.mk.injEq] at hsh
  rw [if_pos rfl, hmod] at hu
  have hfull : subpoolIsCompletelyFull ((s.modHeader h fun x =>
      { x with bitmap := setWordBit x.bitmap i b,
               usedCount := (x.usedCount + 1) % 65536 }).headers h) =
      decide ((s.headers h).usedCount + 1 ≥ (s.headers h).objectCount) := by
    rw [modHeader_headers, if_pos rfl, subpoolIsCompletelyFull, hmod]
  by_cases hf : (s.headers h).usedCount + 1 ≥ (s.headers h).objectCount
  · -- the last free object: the subpool leaves the free list
    have htake : takeObject s t h i b = removeFromFreeList (s.modHeader h fun x =>
        { x with bitmap := setWordBit (s.headers h).bitmap i b,
                 usedCount := ((s.headers h).usedCount + 1) % 65536 }) t h := by
      unfold takeObject
      dsimp only
      rw [hfull, if_pos (by simpa using hf)]
      rfl
    refine ⟨update frees t ((frees t).erase h), ?_⟩
    refine hI.update (t := t) (htake ▸ hcore.removeFree hsub) hsub
      (fun u a hah => mem_update_erase hah) hother ?_
    rw [hu, hsh.2.2.1, update_self, (hI.rings.free t).nodup.mem_erase_iff]
    omega
  · have htake : takeObject s t h i b = s.modHeader h fun x =>
        { x with bitmap := setWordBit (s.headers h).bitmap i b,
                 usedCount := ((s.headers h).usedCount + 1) % 65536 } := by
      unfold takeObject
      dsimp only
      rw [hfull, if_neg (by simpa using hf)]
      rfl
    refine ⟨frees, hI.update (t := t) (htake ▸ hcore) hsub (fun u a _ => Iff.rfl) hother ?_⟩
    simp only [hh, true_iff]
    omega

/-- Taking a free object takes exactly its place. -/
theorem takeObject_grows (hr : (⟨h, subpoolPages, .subpool⟩ : PoolRange) ∈ s.ranges) (hb : b < 64)
    (hk : i * 64 + b < (s.headers h).objectCount)
    (hclear : getBit (s.headers h).bitmap (i * 64 + b) = false) :
    Grows s (takeObject s t h i b) (.object h (i * 64 + b)) := by
  refine ⟨fun hc => ?_, fun l => ?_, fun l _ => ?_⟩
  · have := hc.2.2
    rw [hclear] at this
    simp at this
  · cases l with
    | large r => simp [Place.Taken, takeObject_ranges]
    | object a k =>
      obtain ⟨hsh, -, hbm⟩ := takeObject_header s t h i b a
      simp only [State.shape, Prod.mk.injEq] at hsh
      simp only [Place.Taken, takeObject_ranges, hsh, hbm, Place.object.injEq]
      by_cases hah : a = h
      · subst hah
        rw [if_pos rfl, getBit_setWordBit _ hb]
        simp only [hr, true_and, Bool.or_eq_true, decide_eq_true_eq]
        constructor
        · rintro ⟨h1, h2 | h2⟩
          · exact .inr h2
          · exact .inl ⟨h1, h2⟩
        · rintro (⟨h1, h2⟩ | rfl)
          · exact ⟨h1, .inr h2⟩
          · exact ⟨hk, .inl rfl⟩
      · simp [hah]
  · exact Place.extent_congr fun a k _ => (takeObject_header s t h i b a).1

/-! ## Creating a subpool -/

/-- In a new bitmap exactly the padding bits are set. -/
theorem getBit_initialBitmap {k : Nat} (hoc : oc < 65536)
    (hk : k < getSubpoolBitmapWordCount oc * 64) :
    getBit (initialBitmap oc) k = decide (oc ≤ k) := by
  rw [wordCount_eq hoc] at hk
  unfold getBit initialBitmap
  by_cases h0 : oc % 64 = 0
  · have : ¬ oc ≤ k := by omega
    simp [h0, this]
  · rw [if_pos h0, wordCount_eq hoc]
    by_cases hw : k / 64 = (oc + 63) / 64 - 1
    · rw [hw, update_self, BitVec.getLsbD_not, getLsbD_lowMask (Nat.mod_lt _ (by decide))]
      have hmask : decide (k % 64 < oc % 64) = !decide (oc ≤ k) := by
        rw [← decide_not, decide_eq_decide]
        omega
      rw [hmask]
      simp [Nat.mod_lt]
    · rw [update_of_ne hw]
      have : ¬ oc ≤ k := by omega
      simp [this]

theorem initialBitmap_bitsOk (hx : HeaderOk x) (hu : x.usedCount = 0)
    (hb : x.bitmap = initialBitmap x.objectCount) : BitsOk x := by
  have hcnt := hx.count_lt
  have hw := wordCount_eq hcnt
  refine ⟨?_, fun k h1 h2 => ?_⟩
  · rw [hu, hb, countBits, Finset.filter_false_of_mem, Finset.card_empty]
    intro k hk
    rw [Finset.mem_range] at hk
    rw [getBit_initialBitmap hcnt (by omega)]
    simp [hk]
  · rw [hb, getBit_initialBitmap hcnt h2]
    simp [h1]

/-- The header `allocate_subpool` writes. -/
def newHeader (n al oc hs : Nat) : SubpoolHeader :=
  { SubpoolHeader.zeroed with
    objectSize := n, objectCount := oc, headerSize := hs, subpoolPageCount := subpoolPages,
    usedCount := 0, alignmentBits := al, bitmap := initialBitmap oc }

/-- The state in which `allocate_subpool` returns successfully. -/
def withSubpool (s : State) (t v n al oc hs : Nat) : State :=
  let s := { s with ranges := ⟨v, subpoolPages, .subpool⟩ :: s.ranges }
  let s := s.modHeader v fun _ => newHeader n al oc hs
  pushToFreeList (appendSubpool s t v) t v

/-- `allocate_subpool` for a class with a slot: it fails without effect, or adds
a subpool laid out for the class on a fresh page range. -/
theorem allocateSubpool_eq (mm : PageSource) (hS : Shapes s subs) (hc : SizeClass n al)
    (hcls : s.cls t = (n, al)) :
    (∃ e, allocateSubpool mm s n al = (.error e, s) ∧ checkSuccess e = false) ∨
    ∃ v oc hs, mm.allocate s.ranges subpoolPages (afAlign 16) = .ok v ∧ Layout n al oc hs ∧
      allocateSubpool mm s n al = (.ok v, withSubpool s t v n al oc hs) := by
  unfold allocateSubpool
  rw [getObjectEntry_existing hS hc.pos.ne' hcls]
  dsimp only
  cases hmm : mm.allocate s.ranges subpoolPages (afAlign 16) with
  | error e => exact .inl ⟨e, rfl, mm.failure _ _ _ _ hmm⟩
  | ok v =>
    obtain ⟨oc, hs, hlay, hok⟩ := subpoolLayout_class hc
    right
    refine ⟨v, oc, hs, rfl, hok, ?_⟩
    rw [hlay]
    dsimp only
    rw [if_neg hok.count_pos.ne']
    rfl

/-- A fresh range does not hold a linked subpool. -/
theorem Spans.fresh_notMem (hSp : Spans s subs) (hn : 0 < n)
    (hfresh : ∀ r ∈ s.ranges, v + n ≤ r.beginVpn ∨ r.beginVpn + r.pageCount ≤ v) (u : Nat) :
    v ∉ subs u := by
  intro hv
  have := hfresh _ ((hSp.linked v).mp ⟨u, hv⟩)
  simp only [subpoolPages] at this
  omega

/-- Adding a fresh range to the ranges held. -/
theorem ranges_cons_apart (hSp : Spans s subs) {r : PoolRange}
    (hfresh : ∀ r' ∈ s.ranges, r.beginVpn + r.pageCount ≤ r'.beginVpn ∨
      r'.beginVpn + r'.pageCount ≤ r.beginVpn) :
    (r :: s.ranges).Pairwise PoolRange.Apart :=
  List.pairwise_cons.mpr ⟨hfresh, hSp.apart⟩

/-- The header of the new subpool on its pages, before it is linked. -/
def freshSubpool (s : State) (v n al oc hs : Nat) : State :=
  ({ s with ranges := ⟨v, subpoolPages, .subpool⟩ :: s.ranges } : State).modHeader v
    fun _ => newHeader n al oc hs

theorem freshSubpool_headers (a : Nat) : (freshSubpool s v n al oc hs).headers a =
    if a = v then newHeader n al oc hs else s.headers a :=
  modHeader_headers _ v a _

/-- Subpools that are linked do not change. -/
theorem freshSubpool_linked (hI : PoolInv s subs frees) (hnew : ∀ u, v ∉ subs u) :
    Rings (freshSubpool s v n al oc hs) subs frees ∧ Shapes (freshSubpool s v n al oc hs) subs := by
  have hmem : ∀ u, ∀ a ∈ subs u, (freshSubpool s v n al oc hs).headers a = s.headers a := by
    intro u a ha
    rw [freshSubpool_headers, if_neg (fun hav : a = v => hnew u (hav ▸ ha))]
  refine ⟨hI.rings.congr (fun u a ha => ?_) fun u => ⟨rfl, rfl, rfl⟩,
    hI.shapes.congr rfl fun u a ha => ?_⟩
  · simp only [State.nx, State.pv, State.nxF, State.pvF, hmem u a ha, and_self]
  · simp only [State.shape, hmem u a ha]

/-- There is a new subpool at `v`; every other header is unchanged up to its links. -/
structure Extended (s s' : State) (v n al oc hs : Nat) : Prop where
  ranges  : s'.ranges = ⟨v, subpoolPages, .subpool⟩ :: s.ranges
  cls     : s'.cls = s.cls
  headers : ∀ a, ∃ nx pv nf pf, s'.headers a =
    { (if a = v then newHeader n al oc hs else s.headers a) with
      next := nx, prev := pv, nextFree := nf, prevFree := pf }

section Fresh

variable (hI : PoolInv s subs frees) (hc : SizeClass n al) (hcls : s.cls t = (n, al))
  (hlay : Layout n al oc hs) (hnew : ∀ u, v ∉ subs u)
include hI hc hcls hlay hnew

/-- The new subpool is appended to the list of its class and pushed in front of the free list. -/
theorem withSubpool_linked :
    Rings (withSubpool s t v n al oc hs) (update subs t (subs t ++ [v]))
        (update frees t (v :: frees t)) ∧
      Shapes (withSubpool s t v n al oc hs) (update subs t (subs t ++ [v])) ∧
      Extended s (withSubpool s t v n al oc hs) v n al oc hs := by
  have hws : withSubpool s t v n al oc hs =
      pushToFreeList (appendSubpool (freshSubpool s v n al oc hs) t v) t v := rfl
  obtain ⟨hR2, hS2⟩ : Rings (freshSubpool s v n al oc hs) subs frees ∧
      Shapes (freshSubpool s v n al oc hs) subs := freshSubpool_linked hI hnew
  have hhd2 : ∀ a, (freshSubpool s v n al oc hs).headers a = _ := freshSubpool_headers
  have hcls2 : (freshSubpool s v n al oc hs).cls t = (n, al) := hcls
  generalize hs2 : freshSubpool s v n al oc hs = s2 at *
  have hlast : (s2.table t).last ≠ some v := fun hl =>
    hnew t (List.mem_of_getLast? (hR2.last t ▸ hl))
  obtain ⟨hhd3, htb3, hrg3⟩ := appendSubpool_eq hlast
  have hR3 := appendSubpool_rings (t := t) hR2 hS2 hnew
  have hS3 := appendSubpool_shapes hR2 hS2 hnew (by rw [hcls2]; exact hc.pos.ne')
    (by rw [hcls2]; exact hlay) (by simp [State.shape, hhd2, hcls2, newHeader])
  have hin : v ∈ update subs t (subs t ++ [v]) t := by simp
  have hoff : v ∉ frees t := fun hf => hnew t (hI.rings.sub t hf)
  obtain ⟨hnf, hpf⟩ := hR3.off t v hin hoff
  obtain ⟨hhd4, htb4, hrg4⟩ := pushToFreeList_eq hpf hnf (hR3.off_head hoff)
  rw [hws]
  refine ⟨pushToFreeList_rings hR3 hS3 hin hoff, pushToFreeList_shapes hR3 hS3 hin hoff, ?_,
    funext fun u => ?_, fun a => ?_⟩
  · rw [hrg4, hrg3, ← hs2]
    rfl
  · simp only [State.cls, htb4]
    have h3 : (appendSubpool s2 t v).table u = _ := htb3 u
    split <;> rw [h3] <;> split <;> rw [← hs2] <;> rfl
  · rw [hhd4, hhd3, hhd2]
    exact ⟨_, _, _, _, rfl⟩

omit hI hc hcls hlay hnew in
theorem mem_update_snoc (u a : Nat) :
    a ∈ update subs t (subs t ++ [v]) u ↔ a ∈ subs u ∨ (u = t ∧ a = v) := by
  by_cases hu : u = t
  · subst hu
    simp
  · simp [hu]

theorem withSubpool_spans (hv : 0 < v) (hlim : v + subpoolPages ≤ pageLimit)
    (hfresh : ∀ r ∈ s.ranges, v + subpoolPages ≤ r.beginVpn ∨ r.beginVpn + r.pageCount ≤ v) :
    Spans (withSubpool s t v n al oc hs) (update subs t (subs t ++ [v])) := by
  obtain ⟨-, -, hrg, -⟩ := withSubpool_linked hI hc hcls hlay hnew
  refine ⟨fun a => ?_, fun r hr hk => ?_, fun r hr => ?_, ?_⟩
  · rw [hrg, List.mem_cons, ← hI.spans.linked]
    simp only [mem_update_snoc, PoolRange.mk.injEq, and_true]
    constructor
    · rintro ⟨u, hu | ⟨-, hav⟩⟩
      · exact .inr ⟨u, hu⟩
      · exact .inl hav
    · rintro (hav | ⟨u, hu⟩)
      · exact ⟨t, .inr ⟨rfl, hav⟩⟩
      · exact ⟨u, .inl hu⟩
  · rw [hrg, List.mem_cons] at hr
    rcases hr with rfl | hr
    · rfl
    · exact hI.spans.pages r hr hk
  · rw [hrg, List.mem_cons] at hr
    rcases hr with rfl | hr
    · exact ⟨hv, show 0 < subpoolPages by decide, hlim⟩
    · exact hI.spans.bounds r hr
  · rw [hrg]
    exact ranges_cons_apart hI.spans hfresh

end Fresh

/-- What `allocate_subpool` leaves: the new subpool in front of the free list of its class. -/
theorem withSubpool_inv (hI : PoolInv s subs frees) (hc : SizeClass n al) (hcls : s.cls t = (n, al))
    (hlay : Layout n al oc hs) (hv : 0 < v) (hlim : v + subpoolPages ≤ pageLimit)
    (hfresh : ∀ r ∈ s.ranges, v + subpoolPages ≤ r.beginVpn ∨ r.beginVpn + r.pageCount ≤ v) :
    (∃ subs' frees', PoolInv (withSubpool s t v n al oc hs) subs' frees' ∧ v ∈ frees' t) ∧
      Extended s (withSubpool s t v n al oc hs) v n al oc hs := by
  have hnew := hI.spans.fresh_notMem (by decide) hfresh
  obtain ⟨hR, hS, hrg, hcls', hhd⟩ := withSubpool_linked hI hc hcls hlay hnew
  have hSp := withSubpool_spans hI hc hcls hlay hnew hv hlim hfresh
  refine ⟨⟨_, _, ⟨⟨hR, hS, hSp, fun u a ha => ?_⟩, fun u a ha => ?_⟩,
    by rw [update_self]; exact List.mem_cons_self⟩, hrg, hcls', hhd⟩
  · obtain ⟨nx, pv, nf, pf, heq⟩ := hhd a
    rw [heq]
    rcases (mem_update_snoc u a).mp ha with hu | ⟨-, rfl⟩
    · rw [if_neg (fun hav : a = v => hnew u (hav ▸ hu))]
      exact (hI.bits u a hu).congr rfl rfl rfl
    · rw [if_pos rfl]
      exact initialBitmap_bitsOk ⟨hc, hlay, rfl⟩ rfl rfl
  · obtain ⟨nx, pv, nf, pf, heq⟩ := hhd a
    rw [heq]
    rcases (mem_update_snoc u a).mp ha with hu | ⟨rfl, rfl⟩
    · have hav : a ≠ v := fun hav => hnew u (hav ▸ hu)
      rw [if_neg hav]
      have hfr : a ∈ update frees t (v :: frees t) u ↔ a ∈ frees u := by
        by_cases hut : u = t
        · subst hut
          simp [hav]
        · rw [update_of_ne hut]
      exact hfr.trans (hI.free_iff u a hu)
    · simpa [newHeader] using hlay.count_pos

/-- A new subpool has no object in use. -/
theorem withSubpool_keeps (hc : SizeClass n al) (hlay : Layout n al oc hs)
    (hnot : (⟨v, subpoolPages, .subpool⟩ : PoolRange) ∉ s.ranges)
    (hext : Extended s s' v n al oc hs) : Keeps s s' := by
  obtain ⟨hrg, -, hhd⟩ := hext
  refine ⟨fun l => ?_, fun l hl => Place.extent_congr fun a k hlk => ?_⟩
  · cases l with
    | large r =>
      simp only [Place.Taken, hrg, List.mem_cons]
      constructor
      · rintro ⟨rfl | hr, hk⟩
        · simp at hk
        · exact ⟨hr, hk⟩
      · rintro ⟨hr, hk⟩
        exact ⟨.inr hr, hk⟩
    | object a k =>
      obtain ⟨nx, pv, nf, pf, heq⟩ := hhd a
      simp only [Place.Taken, hrg, heq, List.mem_cons, PoolRange.mk.injEq, and_true]
      by_cases hav : a = v
      · subst hav
        simp only [if_true, true_or, true_and, hnot, false_and, iff_false, newHeader]
        rintro ⟨hk, hbit⟩
        have hcnt := hlay.count_le hc.pos
        have hw := wordCount_eq hcnt
        rw [getBit_initialBitmap hcnt (by omega)] at hbit
        simp at hbit
        omega
      · simp [hav]
  · subst hlk
    obtain ⟨nx, pv, nf, pf, heq⟩ := hhd a
    have hav : a ≠ v := by
      rintro rfl
      exact hnot hl.1
    simp only [State.shape, heq, if_neg hav]

end

end FoliOS.Strata.Pool
