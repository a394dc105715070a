import FoliOS.Strata.Pool.Lists
import Mathlib.Data.List.Pairwise

/-!
# Strata — the pool invariant

`Core` collects what holds of the pool at all times: the class lists are intact
(`Rings`, `Shapes`), the page ranges are disjoint and the subpool ranges are
exactly the linked subpools (`Spans`), and every bitmap agrees with its
`used_count` (`BitsOk`). Between operations (`PoolInv`) a subpool is on the free
list of its class exactly when it has a free object.

A *place* is where a live block sits: a large range, or an object whose bitmap
bit is set. Distinct places do not overlap (`Place.disjoint`), and the pointer
lookups of `pool.c` find the place of a pointer again (`find_large`,
`find_object`).
-/

namespace FoliOS.Strata.Pool

open Lib

variable {x : SubpoolHeader} {k h : Nat} {r : PoolRange}

/-- The page ranges held by the pool. -/
structure Spans (s : State) (subs : Nat → List Nat) : Prop where
  linked : ∀ h, (∃ t, h ∈ subs t) ↔ (⟨h, subpoolPages, .subpool⟩ : PoolRange) ∈ s.ranges
  pages  : ∀ r ∈ s.ranges, r.kind = .subpool → r.pageCount = subpoolPages
  bounds : ∀ r ∈ s.ranges, 0 < r.beginVpn ∧ 0 < r.pageCount ∧
    r.beginVpn + r.pageCount ≤ pageLimit
  apart  : s.ranges.Pairwise PoolRange.Apart

/-- A header's bitmap agrees with its counter, and its padding bits are set. -/
structure BitsOk (x : SubpoolHeader) : Prop where
  used : x.usedCount = countBits x.bitmap x.objectCount
  pad  : ∀ k, x.objectCount ≤ k → k < getSubpoolBitmapWordCount x.objectCount * 64 →
    getBit x.bitmap k = true

/-- What holds of the pool even while an object changes hands. -/
structure Core (s : State) (subs frees : Nat → List Nat) : Prop where
  rings  : Rings s subs frees
  shapes : Shapes s subs
  spans  : Spans s subs
  bits   : ∀ t, ∀ h ∈ subs t, BitsOk (s.headers h)

/-- The pool between operations. -/
structure PoolInv (s : State) (subs frees : Nat → List Nat) : Prop extends Core s subs frees where
  free_iff : ∀ t, ∀ h ∈ subs t,
    h ∈ frees t ↔ (s.headers h).usedCount < (s.headers h).objectCount

/-! ## Shape of a linked subpool -/

section Linked

variable {s : State} {subs frees : Nat → List Nat} {t h : Nat}

/-- Everything the layout says about a linked header. -/
structure HeaderOk (x : SubpoolHeader) : Prop where
  cls    : SizeClass x.objectSize x.alignmentBits
  layout : Layout x.objectSize x.alignmentBits x.objectCount x.headerSize
  pages  : x.subpoolPageCount = subpoolPages

theorem Shapes.header (hS : Shapes s subs) (hh : h ∈ subs t) :
    HeaderOk (s.headers h) ∧ ((s.headers h).objectSize, (s.headers h).alignmentBits) = s.cls t := by
  obtain ⟨oc, hs, hlay, hshape⟩ := hS.shape t h hh
  have hne : (s.cls t).1 ≠ 0 := by
    intro h0
    rw [hS.empty t h0] at hh
    simp at hh
  have hcls := hS.cls t hne
  simp only [State.shape, Prod.mk.injEq] at hshape
  obtain ⟨h1, h2, h3, h4, h5⟩ := hshape
  rw [← h1, ← h2] at hcls
  rw [← h1, ← h2, ← h3, ← h4] at hlay
  exact ⟨⟨hcls, hlay, h5⟩, Prod.ext h1 h2⟩

theorem HeaderOk.count_lt (hx : HeaderOk x) : x.objectCount < 65536 :=
  hx.layout.count_le hx.cls.pos

/-- The object area ends inside the subpool. -/
theorem HeaderOk.area (hx : HeaderOk x) (hk : k < x.objectCount) :
    x.headerSize + k * x.objectSize + x.objectSize ≤
        x.headerSize + x.objectSize * x.objectCount ∧
      x.headerSize + x.objectSize * x.objectCount ≤ subpoolPages * pageSize := by
  have hfit := hx.layout.fits
  have hlt := hx.layout.header_lt
  have hmul : k * x.objectSize + x.objectSize ≤ x.objectSize * x.objectCount := by
    calc k * x.objectSize + x.objectSize = (k + 1) * x.objectSize := by ring
      _ ≤ x.objectCount * x.objectSize := Nat.mul_le_mul_right _ hk
      _ = x.objectSize * x.objectCount := Nat.mul_comm _ _
  simp only [getSubpoolSpanSize] at hfit hlt
  omega

/-- A linked header passes the run-time validation. -/
theorem HeaderOk.validate (hx : HeaderOk x) (hu : x.usedCount ≤ x.objectCount) :
    validateSubpoolHeaderMetadata x = true := by
  obtain ⟨hc, hl, hp⟩ := hx
  have h1 : x.objectSize ≠ 0 := hc.pos.ne'
  have h2 : x.objectCount ≠ 0 := hl.count_pos.ne'
  simp [validateSubpoolHeaderMetadata, hp, h1, h2, hu, hc.align_ge, hc.align_le, hl.header_ge,
    hl.header_lt, hl.header_al, hc.dvd, hl.fits, hl.tight]

/-- The index lookup recovers the object a pointer was made from. -/
theorem HeaderOk.index (hx : HeaderOk x) (hu : x.usedCount ≤ x.objectCount) (hk : k < x.objectCount)
    (hh : 0 < h) :
    getSubpoolObjectIndex x h (h * pageSize + x.headerSize + k * x.objectSize) = some k := by
  have hpos := hx.cls.pos
  have harea := hx.area hk
  have hcnt := hx.count_lt
  have hptr : h * pageSize + x.headerSize + k * x.objectSize ≠ 0 := by
    simp only [pageSize]; omega
  have hoff : h * pageSize + x.headerSize + k * x.objectSize - (h * pageSize + x.headerSize) =
      k * x.objectSize := by omega
  simp only [getSubpoolObjectIndex, hx.validate hu, hoff]
  rw [if_neg (fun hc => hc.elim hptr (by simp)), if_neg (by omega), if_neg (by simp),
    Nat.mul_div_cancel _ hpos, Nat.mod_eq_of_lt (by omega), if_neg (by omega)]

end Linked

/-! ## Places -/

/-- Where a live block sits. -/
inductive Place where
  | large (r : PoolRange)
  | object (h k : Nat)

def Place.start (s : State) : Place → Nat
  | .large r => r.beginVpn * pageSize
  | .object h k => h * pageSize + (s.headers h).headerSize + k * (s.headers h).objectSize

def Place.len (s : State) : Place → Nat
  | .large r => r.pageCount * pageSize
  | .object h _ => (s.headers h).objectSize

/-- The range a place lies in. -/
def Place.range : Place → PoolRange
  | .large r => r
  | .object h _ => ⟨h, subpoolPages, .subpool⟩

/-- The place is taken: a held large range, or an object with its bit set. -/
def Place.Taken (s : State) : Place → Prop
  | .large r => r ∈ s.ranges ∧ r.kind = .largeAlloc
  | .object h k => (⟨h, subpoolPages, .subpool⟩ : PoolRange) ∈ s.ranges ∧
      k < (s.headers h).objectCount ∧ getBit (s.headers h).bitmap k = true

variable {l l' : Place}

section Places

variable {s : State} {subs frees : Nat → List Nat}

section

variable (hI : Core s subs frees)
include hI

theorem Core.header (hr : (⟨h, subpoolPages, .subpool⟩ : PoolRange) ∈ s.ranges) :
    HeaderOk (s.headers h) ∧ (s.headers h).usedCount ≤ (s.headers h).objectCount := by
  obtain ⟨t, ht⟩ := (hI.spans.linked h).mpr hr
  refine ⟨(hI.shapes.header ht).1, ?_⟩
  rw [(hI.bits t h ht).used]
  exact countBits_le _ _

/-- A taken place is non-empty and lies inside its range. -/
theorem Place.inside (hl : l.Taken s) :
    l.range ∈ s.ranges ∧ 0 < l.len s ∧ l.range.beginVpn * pageSize ≤ l.start s ∧
      l.start s + l.len s ≤ (l.range.beginVpn + l.range.pageCount) * pageSize := by
  cases l with
  | large r =>
    have hb := hI.spans.bounds r hl.1
    refine ⟨hl.1, ?_, le_rfl, ?_⟩
    · exact Nat.mul_pos hb.2.1 (by decide)
    · simp only [Place.start, Place.len, Place.range, Nat.add_mul]
      exact le_rfl
  | object h k =>
    obtain ⟨hr, hk, -⟩ := hl
    have hok := (hI.header hr).1
    have harea := hok.area hk
    refine ⟨hr, hok.cls.pos, ?_, ?_⟩
    · simp only [Place.start, Place.range]
      omega
    · simp only [Place.start, Place.len, Place.range, Nat.add_mul]
      omega

instance : Std.Symm PoolRange.Apart := ⟨fun _ _ h => h.symm⟩

/-- **Distinct places do not overlap.** -/
theorem Place.disjoint (hl : l.Taken s) (hl' : l'.Taken s) (hne : l ≠ l') :
    l.start s + l.len s ≤ l'.start s ∨ l'.start s + l'.len s ≤ l.start s := by
  obtain ⟨hr, -, hlo, hhi⟩ := Place.inside hI hl
  obtain ⟨hr', -, hlo', hhi'⟩ := Place.inside hI hl'
  by_cases hrange : l.range = l'.range
  · -- the same range: two objects of one subpool
    cases l with
    | large r =>
      cases l' with
      | large r' => exact absurd (congrArg Place.large hrange) hne
      | object h k =>
        have := hl.2
        simp only [Place.range] at hrange
        rw [hrange] at this
        simp at this
    | object h k =>
      cases l' with
      | large r' =>
        have := hl'.2
        simp only [Place.range] at hrange
        rw [← hrange] at this
        simp at this
      | object h' k' =>
        obtain ⟨rfl, -⟩ := hrange
        have hkk : k ≠ k' := fun hkk => hne (by rw [hkk])
        simp only [Place.start, Place.len]
        rcases Nat.lt_or_gt_of_ne hkk with hlt | hlt
        · have : (k + 1) * (s.headers h).objectSize ≤ k' * (s.headers h).objectSize :=
            Nat.mul_le_mul_right _ hlt
          rw [Nat.add_mul, Nat.one_mul] at this
          omega
        · have : (k' + 1) * (s.headers h).objectSize ≤ k * (s.headers h).objectSize :=
            Nat.mul_le_mul_right _ hlt
          rw [Nat.add_mul, Nat.one_mul] at this
          omega
  · -- different ranges share no page
    have hap : l.range.Apart l'.range := hI.spans.apart.forall hr hr' hrange
    rcases hap with hap | hap
    · have := Nat.mul_le_mul_right pageSize hap
      omega
    · have := Nat.mul_le_mul_right pageSize hap
      omega

/-- A pointer determines its place. -/
theorem Place.start_inj (hl : l.Taken s) (hl' : l'.Taken s) (hst : l.start s = l'.start s) :
    l = l' := by
  by_contra hne
  have h1 := (Place.inside hI hl).2.1
  have h2 := (Place.inside hI hl').2.1
  rcases Place.disjoint hI hl hl' hne with h | h <;> omega

/-- A page of a held range is looked up to that range. -/
theorem getReservedRange_eq {vpn : Nat} (hr : r ∈ s.ranges) (hv : r.contains vpn = true) :
    getReservedRange s vpn = some r := by
  cases hf : getReservedRange s vpn with
  | none =>
    rw [getReservedRange, List.find?_eq_none] at hf
    exact absurd hv (hf r hr)
  | some r' =>
    have hv' := List.find?_some hf
    have hr' := List.mem_of_find?_eq_some hf
    by_contra hne
    have hap : r'.Apart r := hI.spans.apart.forall hr' hr (fun hc => hne (by rw [hc]))
    simp only [PoolRange.contains, Bool.and_eq_true, decide_eq_true_eq] at hv hv'
    rcases hap with hap | hap <;> omega

/-- The lookup of a taken place's first page finds its range. -/
theorem getReservedRange_place (hl : l.Taken s) :
    getReservedRange s (l.start s / pageSize) = some l.range ∧ l.start s ≠ 0 := by
  obtain ⟨hr, hlen, hlo, hhi⟩ := Place.inside hI hl
  have hb := (hI.spans.bounds _ hr).1
  have hpg : 0 < pageSize := by decide
  have hmul : pageSize ≤ l.range.beginVpn * pageSize := Nat.le_mul_of_pos_left _ hb
  refine ⟨getReservedRange_eq hI hr ?_, by omega⟩
  simp only [PoolRange.contains, Bool.and_eq_true, decide_eq_true_eq]
  refine ⟨(Nat.le_div_iff_mul_le hpg).mpr hlo, (Nat.div_lt_iff_lt_mul hpg).mpr ?_⟩
  omega

/-- The two lookups of `StPool_Free` on a pointer to a large block. -/
theorem find_large (hl : (Place.large r).Taken s) :
    findLargeAllocationRangeFromPtr s (r.beginVpn * pageSize) = some r := by
  obtain ⟨hget, hne⟩ := getReservedRange_place hI hl
  have hb := hI.spans.bounds r hl.1
  simp only [Place.start, Place.range] at hget hne
  simp [findLargeAllocationRangeFromPtr, hne, hget, hl.2, hb.2.1.ne']

/-- The two lookups of `StPool_Free` on a pointer to a subpool object. -/
theorem find_object (hl : (Place.object h k).Taken s) :
    findLargeAllocationRangeFromPtr s ((Place.object h k).start s) = none ∧
      findSubpoolHeaderFromPtr s ((Place.object h k).start s) = some (h, k) := by
  obtain ⟨hget, hne⟩ := getReservedRange_place hI hl
  obtain ⟨hr, hk, -⟩ := hl
  obtain ⟨hok, hu⟩ := hI.header hr
  have hb := hI.spans.bounds _ hr
  have hidx := hok.index hu hk hb.1
  simp only [Place.start, Place.range] at hget hne ⊢
  refine ⟨?_, ?_⟩
  · simp only [findLargeAllocationRangeFromPtr, if_neg hne, hget]
    simp
  · simp only [findSubpoolHeaderFromPtr, if_neg hne, hget]
    simpa using hidx

end

end Places

end FoliOS.Strata.Pool
