import FoliOS.Lib.DList
import FoliOS.Strata.Pool.Model

/-!
# Strata — the intrusive lists of the pool

Every class slot `t` heads two doubly linked lists, `subs t` (all subpools of
the class) and `frees t` (those with a free object). `Links` says that the
headers in memory thread exactly these lists; this file shows what each list
operation of `pool.c` does to them.
-/

namespace FoliOS.Strata.Pool

open Function Lib

variable {s s' : State} {subs : Nat → List Nat} {h t : Nat}

def State.nx (s : State) (h : Nat) : Option Nat := (s.headers h).next
def State.pv (s : State) (h : Nat) : Option Nat := (s.headers h).prev
def State.nxF (s : State) (h : Nat) : Option Nat := (s.headers h).nextFree
def State.pvF (s : State) (h : Nat) : Option Nat := (s.headers h).prevFree

/-- The header fields fixed when a subpool is created. -/
def State.shape (s : State) (h : Nat) : Nat × Nat × Nat × Nat × Nat :=
  ((s.headers h).objectSize, (s.headers h).alignmentBits, (s.headers h).objectCount,
    (s.headers h).headerSize, (s.headers h).subpoolPageCount)

/-- The class a table slot stands for; size 0 marks an empty slot. -/
def State.cls (s : State) (t : Nat) : Nat × Nat :=
  ((s.table t).objectSize, (s.table t).alignmentBits)

/-- The headers in memory thread the lists `subs` and `frees`. -/
structure Rings (s : State) (subs frees : Nat → List Nat) : Prop where
  all  : ∀ t, IsDList s.nx s.pv (s.table t).first (subs t)
  last : ∀ t, (s.table t).last = (subs t).getLast?
  free : ∀ t, IsDList s.nxF s.pvF (s.table t).nextFree (frees t)
  sub  : ∀ t, frees t ⊆ subs t
  off  : ∀ t, ∀ h ∈ subs t, h ∉ frees t → s.nxF h = none ∧ s.pvF h = none

/-- Class slots are distinct, and every linked header has the shape its class
asks for. -/
structure Shapes (s : State) (subs : Nat → List Nat) : Prop where
  slot  : ∀ t, (s.cls t).1 ≠ 0 → t < subpoolTableSize
  uniq  : ∀ t t', (s.cls t).1 ≠ 0 → s.cls t = s.cls t' → t = t'
  empty : ∀ t, (s.cls t).1 = 0 → subs t = []
  cls   : ∀ t, (s.cls t).1 ≠ 0 → SizeClass (s.cls t).1 (s.cls t).2
  shape : ∀ t, ∀ h ∈ subs t, ∃ oc hs, Layout (s.cls t).1 (s.cls t).2 oc hs ∧
    s.shape h = ((s.cls t).1, (s.cls t).2, oc, hs, subpoolPages)

/-- No subpool is linked into two slots. -/
theorem Shapes.slot_unique (hS : Shapes s subs) {t' : Nat} (ht : h ∈ subs t) (ht' : h ∈ subs t') :
    t = t' := by
  obtain ⟨oc, hs, -, heq⟩ := hS.shape t h ht
  obtain ⟨oc', hs', -, heq'⟩ := hS.shape t' h ht'
  have hne : (s.cls t).1 ≠ 0 := by
    intro h0
    rw [hS.empty t h0] at ht
    simp at ht
  rw [heq, Prod.mk.injEq, Prod.mk.injEq] at heq'
  exact hS.uniq t t' hne (Prod.ext heq'.1 heq'.2.1)

theorem Shapes.congr (hS : Shapes s subs) (hcls : s'.cls = s.cls)
    (hshape : ∀ t, ∀ h ∈ subs t, s'.shape h = s.shape h) : Shapes s' subs := by
  obtain ⟨h0, h1, h2, h3, h4⟩ := hS
  refine ⟨hcls ▸ h0, hcls ▸ h1, hcls ▸ h2, hcls ▸ h3, fun t h hh => ?_⟩
  rw [hcls, hshape t h hh]
  exact h4 t h hh

/-- The lists only depend on the links of their members and on the list heads. -/
theorem Rings.congr {frees : Nat → List Nat} (hR : Rings s subs frees)
    (hhd : ∀ t, ∀ h ∈ subs t, s'.nx h = s.nx h ∧ s'.pv h = s.pv h ∧ s'.nxF h = s.nxF h ∧
      s'.pvF h = s.pvF h)
    (htb : ∀ t, (s'.table t).first = (s.table t).first ∧ (s'.table t).last = (s.table t).last ∧
      (s'.table t).nextFree = (s.table t).nextFree) :
    Rings s' subs frees := by
  refine ⟨fun t => ?_, fun t => ?_, fun t => ?_, hR.sub, fun t h hh hoff => ?_⟩
  · rw [(htb t).1]
    exact (hR.all t).congr (fun a ha => (hhd t a ha).1) (fun a ha => (hhd t a ha).2.1)
  · rw [(htb t).2.1]
    exact hR.last t
  · rw [(htb t).2.2]
    exact (hR.free t).congr (fun a ha => (hhd t a (hR.sub t ha)).2.2.1)
      (fun a ha => (hhd t a (hR.sub t ha)).2.2.2)
  · rw [(hhd t h hh).2.2.1, (hhd t h hh).2.2.2]
    exact hR.off t h hh hoff

/-! ## Field updates -/

section Updates

variable (s : State) (h t u a : Nat) (p : Option Nat) (f : SubpoolHeader → SubpoolHeader)
  (g : SubpoolEntry → SubpoolEntry)

@[simp] theorem modHeader_headers :
    (s.modHeader h f).headers a = if a = h then f (s.headers a) else s.headers a := by
  unfold State.modHeader
  by_cases ha : a = h
  · subst ha; simp
  · simp [ha]

@[simp] theorem modHeader?_headers :
    (s.modHeader? p f).headers a = if p = some a then f (s.headers a) else s.headers a := by
  cases p with
  | none => rfl
  | some h => simp [State.modHeader?, eq_comm]

@[simp] theorem modEntry_table :
    (s.modEntry t g).table u = if u = t then g (s.table u) else s.table u := by
  unfold State.modEntry
  by_cases hu : u = t
  · subst hu; simp
  · simp [hu]

@[simp] theorem modHeader_table : (s.modHeader h f).table = s.table := rfl
@[simp] theorem modHeader_ranges : (s.modHeader h f).ranges = s.ranges := rfl
@[simp] theorem modHeader?_table : (s.modHeader? p f).table = s.table := by cases p <;> rfl
@[simp] theorem modHeader?_ranges : (s.modHeader? p f).ranges = s.ranges := by cases p <;> rfl
@[simp] theorem modEntry_headers : (s.modEntry t g).headers = s.headers := rfl
@[simp] theorem modEntry_ranges : (s.modEntry t g).ranges = s.ranges := rfl

theorem ite_modEntry_headers (c : Prop) [Decidable c] :
    (if c then s.modEntry t g else s).headers = s.headers := by split <;> rfl

theorem ite_modEntry_ranges (c : Prop) [Decidable c] :
    (if c then s.modEntry t g else s).ranges = s.ranges := by split <;> rfl

theorem ite_modEntry_table (c : Prop) [Decidable c] :
    (if c then s.modEntry t g else s).table u =
      if c ∧ u = t then g (s.table u) else s.table u := by
  by_cases hc : c <;> simp [hc]

end Updates

/-! ## What the list operations write -/

theorem removeFromFreeList_headers (s : State) (t h a : Nat) :
    (removeFromFreeList s t h).headers a =
      { s.headers a with
        nextFree := removeNext s.nxF s.pvF h a, prevFree := removePrev s.nxF s.pvF h a } := by
  simp only [removeFromFreeList, removeNext, removePrev, State.nxF, State.pvF, modHeader_headers,
    modHeader?_headers, ite_modEntry_headers]
  rcases eq_or_ne a h with rfl | ha
  · by_cases hp : (s.headers a).prevFree = some a <;>
      by_cases hq : (s.headers a).nextFree = some a <;> simp [hp, hq]
  · by_cases hp : (s.headers h).prevFree = some a <;>
      by_cases hq : (s.headers h).nextFree = some a <;> simp [ha, hp, hq]

theorem removeFromFreeList_table (s : State) (t h u : Nat) :
    (removeFromFreeList s t h).table u =
      if (s.pvF h = none ∧ (s.table t).nextFree = some h) ∧ u = t then
        { s.table u with nextFree := s.nxF h } else s.table u := by
  simp only [removeFromFreeList, State.nxF, State.pvF, modHeader_table, modHeader?_table,
    ite_modEntry_table]
  congr

@[simp] theorem removeFromFreeList_ranges (s : State) (t h : Nat) :
    (removeFromFreeList s t h).ranges = s.ranges := by
  simp only [removeFromFreeList, modHeader_ranges, modHeader?_ranges, ite_modEntry_ranges]

/-- Pushing a subpool that is not on the list. -/
theorem pushToFreeList_eq (h1 : s.pvF h = none) (h2 : s.nxF h = none)
    (h3 : (s.table t).nextFree ≠ some h) :
    (∀ a, (pushToFreeList s t h).headers a =
      { s.headers a with
        nextFree := insertNext s.nxF h none (s.table t).nextFree a,
        prevFree := insertPrev s.pvF h none (s.table t).nextFree a }) ∧
    (∀ u, (pushToFreeList s t h).table u =
      if u = t then { s.table u with nextFree := some h } else s.table u) ∧
    (pushToFreeList s t h).ranges = s.ranges := by
  have hcond : ¬((s.headers h).prevFree ≠ none ∨ (s.headers h).nextFree ≠ none ∨
      (s.table t).nextFree = some h) := by
    simp only [State.pvF, State.nxF] at h1 h2
    simp [h1, h2, h3]
  simp only [pushToFreeList, if_neg hcond, modEntry_headers, modHeader?_headers, modHeader_headers,
    modEntry_table, modHeader?_table, modHeader_table, modEntry_ranges, modHeader?_ranges,
    modHeader_ranges, implies_true, and_true]
  intro a
  simp only [insertNext, insertPrev, State.nxF, State.pvF]
  by_cases ha : a = h
  · subst ha
    simp [h3]
  · simp only [if_neg ha, reduceCtorEq, if_false]
    split_ifs <;> rfl

/-- Appending a subpool that is not the last one of the list. -/
theorem appendSubpool_eq (h1 : (s.table t).last ≠ some h) :
    (∀ a, (appendSubpool s t h).headers a =
      { s.headers a with
        next := insertNext s.nx h (s.table t).last none a,
        prev := insertPrev s.pv h (s.table t).last none a,
        nextFree := if a = h then none else s.nxF a,
        prevFree := if a = h then none else s.pvF a }) ∧
    (∀ u, (appendSubpool s t h).table u =
      if u = t then { s.table u with
        first := if (s.table t).last = none then some h else (s.table u).first, last := some h }
      else s.table u) ∧
    (appendSubpool s t h).ranges = s.ranges := by
  refine ⟨fun a => ?_, fun u => ?_, ?_⟩
  · simp only [appendSubpool, modEntry_headers, ite_modEntry_headers, modHeader?_headers,
      modHeader_headers, insertNext, insertPrev, State.nx, State.pv, State.nxF, State.pvF]
    by_cases ha : a = h
    · subst ha
      simp [h1]
    · simp only [if_neg ha, reduceCtorEq, if_false]
      split_ifs <;> rfl
  · simp only [appendSubpool, modEntry_table, ite_modEntry_table, modHeader?_table,
      modHeader_table]
    split_ifs <;> simp_all
  · simp only [appendSubpool, modEntry_ranges, ite_modEntry_ranges, modHeader?_ranges,
      modHeader_ranges]

theorem detachSubpool_eq (s : State) (t h : Nat) :
    (∀ a, (detachSubpool s t h).headers a =
      { s.headers a with
        next := if (s.table t).first ≠ some h ∧ s.pv h = some a then s.nx h else s.nx a,
        prev := if (s.table t).last ≠ some h ∧ s.nx h = some a then s.pv h else s.pv a }) ∧
    (∀ u, (detachSubpool s t h).table u =
      if u = t then
        { s.table u with
          first := if (s.table t).first = some h then s.nx h else (s.table t).first,
          last := if (s.table t).last = some h then s.pv h else (s.table t).last }
      else s.table u) ∧
    (detachSubpool s t h).ranges = s.ranges := by
  unfold detachSubpool State.nx State.pv
  by_cases hf : (s.table t).first = some h <;> by_cases hl : (s.table t).last = some h <;>
    simp only [hf, hl, if_true, if_false, modEntry_table, modHeader?_table, modEntry_headers,
      modHeader?_headers, modEntry_ranges, modHeader?_ranges, ne_eq, not_true, not_false_iff,
      false_and, true_and, and_true] <;>
    refine ⟨fun a => ?_, fun u => ?_⟩ <;> (try split_ifs) <;> (try subst u) <;> simp_all

/-- Unlinking and clearing a subpool whose class list is intact. -/
theorem clear_detach_eq {l : List Nat} (hall : IsDList s.nx s.pv (s.table t).first l)
    (hlast : (s.table t).last = l.getLast?) (hh : h ∈ l) :
    (∀ a, (clearSubpool (detachSubpool s t h) t h).headers a =
      if a = h then { SubpoolHeader.zeroed with bitmap := (s.headers h).bitmap }
      else { s.headers a with
        next := removeNext s.nx s.pv h a, prev := removePrev s.nx s.pv h a }) ∧
    (∀ u, (clearSubpool (detachSubpool s t h) t h).table u =
      if u = t then
        if (l.erase h) = [] then ⟨0, 0, none, none, none⟩
        else { s.table t with first := (l.erase h).head?, last := (l.erase h).getLast? }
      else s.table u) ∧
    (clearSubpool (detachSubpool s t h) t h).ranges = s.ranges := by
  obtain ⟨hhd, htb, hrg⟩ := detachSubpool_eq s t h
  have hfst := hall.pv_eq_none_iff hh
  have hlst := hall.nx_eq_none_iff hh
  have hhead : (if (s.table t).first = some h then s.nx h else (s.table t).first) =
      (l.erase h).head? := by
    have := (hall.erase hh).head_eq
    by_cases hf : (s.table t).first = some h
    · rw [if_pos hf, ← this, if_pos (hfst.mpr hf)]
    · rw [if_neg hf, ← this, if_neg (fun hp => hf (hfst.mp hp))]
  have hback : (if (s.table t).last = some h then s.pv h else (s.table t).last) =
      (l.erase h).getLast? := by
    rw [hlast, hall.getLast?_erase hh]
  have hfirst : ((detachSubpool s t h).table t).first = (l.erase h).head? := by
    rw [htb, if_pos rfl, ← hhead]
  refine ⟨fun a => ?_, fun u => ?_, ?_⟩
  · simp only [clearSubpool, modHeader_headers, ite_modEntry_headers, hhd]
    by_cases ha : a = h
    · subst ha; simp
    · simp only [if_neg ha, removeNext, removePrev]
      rw [← hlast] at hlst
      by_cases hf : (s.table t).first = some h <;> by_cases hl : (s.table t).last = some h <;>
        simp [hf, hl, hfst.mpr, hlst.mpr]
  · simp only [clearSubpool, modHeader_table, ite_modEntry_table, hfirst]
    by_cases hu : u = t
    · subst hu
      rw [htb, if_pos rfl, hhead, hback]
      by_cases he : l.erase h = []
      · simp [he]
      · simp [he]
    · simp [hu, htb]
  · simp only [clearSubpool, modHeader_ranges, ite_modEntry_ranges, hrg]

/-! ## The lists after each operation -/

section Preservation

variable {s : State} {subs frees : Nat → List Nat} {t h : Nat}

theorem removeFromFreeList_shapes (hS : Shapes s subs) :
    Shapes (removeFromFreeList s t h) subs := by
  refine hS.congr (funext fun u => ?_) (fun u a _ => ?_)
  · simp only [State.cls, removeFromFreeList_table]
    split <;> rfl
  · simp only [State.shape, removeFromFreeList_headers]

/-- The lists of one slot change, and the subpools of the others keep their links. -/
theorem Rings.change {s' : State} {S F : List Nat} (hR : Rings s subs frees)
    (hkeep : ∀ u ≠ t, ∀ a ∈ subs u, s'.nx a = s.nx a ∧ s'.pv a = s.pv a ∧ s'.nxF a = s.nxF a ∧
      s'.pvF a = s.pvF a)
    (htb : ∀ u ≠ t, s'.table u = s.table u) (hall : IsDList s'.nx s'.pv (s'.table t).first S)
    (hlast : (s'.table t).last = S.getLast?) (hfree : IsDList s'.nxF s'.pvF (s'.table t).nextFree F)
    (hsub : F ⊆ S) (hoff : ∀ a ∈ S, a ∉ F → s'.nxF a = none ∧ s'.pvF a = none) :
    Rings s' (update subs t S) (update frees t F) := by
  refine ⟨fun u => ?_, fun u => ?_, fun u => ?_, fun u => ?_, fun u => ?_⟩ <;>
    rcases eq_or_ne u t with rfl | hu
  · rwa [update_self]
  · rw [update_of_ne hu, htb u hu]
    exact (hR.all u).congr (fun a ha => (hkeep u hu a ha).1) (fun a ha => (hkeep u hu a ha).2.1)
  · rwa [update_self]
  · rw [update_of_ne hu, htb u hu]
    exact hR.last u
  · rwa [update_self]
  · rw [update_of_ne hu, htb u hu]
    exact (hR.free u).congr (fun a ha => (hkeep u hu a (hR.sub u ha)).2.2.1)
      (fun a ha => (hkeep u hu a (hR.sub u ha)).2.2.2)
  · rwa [update_self, update_self]
  · rw [update_of_ne hu, update_of_ne hu]
    exact hR.sub u
  · rwa [update_self, update_self]
  · rw [update_of_ne hu, update_of_ne hu]
    intro a ha hnot
    rw [(hkeep u hu a ha).2.2.1, (hkeep u hu a ha).2.2.2]
    exact hR.off u a ha hnot

section

variable (hR : Rings s subs frees)
include hR

/-- The free list of one slot changes. -/
theorem Rings.changeFree {s' : State} {F : List Nat} (hS : Shapes s subs) (hnx : s'.nx = s.nx)
    (hpv : s'.pv = s.pv) (htb : ∀ u ≠ t, s'.table u = s.table u)
    (hfirst : (s'.table t).first = (s.table t).first)
    (hlast : (s'.table t).last = (s.table t).last)
    (hkeep : ∀ a ∉ F, a ∉ frees t → s'.nxF a = s.nxF a ∧ s'.pvF a = s.pvF a)
    (hfree : IsDList s'.nxF s'.pvF (s'.table t).nextFree F) (hsub : F ⊆ subs t)
    (hoff : ∀ a ∈ frees t, a ∉ F → s'.nxF a = none ∧ s'.pvF a = none) :
    Rings s' subs (update frees t F) := by
  have hchange : Rings s' (update subs t (subs t)) (update frees t F) := by
    refine hR.change (fun u hu a ha => ?_) htb ?_ (hlast ▸ hR.last t) hfree hsub
      fun a ha hnot => ?_
    · -- the subpools of other slots are on neither list
      rw [hnx, hpv]
      exact ⟨rfl, rfl, hkeep a (fun hat => hu (hS.slot_unique ha (hsub hat)))
        fun hat => hu (hS.slot_unique ha (hR.sub t hat))⟩
    · rw [hnx, hpv, hfirst]
      exact hR.all t
    · by_cases hat : a ∈ frees t
      · exact hoff a hat hnot
      · rw [(hkeep a hnot hat).1, (hkeep a hnot hat).2]
        exact hR.off t a ha hat
  rwa [update_eq_self] at hchange

/-- `remove_from_free_list` takes a member off the free list of its slot. -/
theorem removeFromFreeList_rings (hS : Shapes s subs) (hh : h ∈ frees t) :
    Rings (removeFromFreeList s t h) subs (update frees t ((frees t).erase h)) := by
  have hnxF : (removeFromFreeList s t h).nxF = removeNext s.nxF s.pvF h := by
    funext a; simp only [State.nxF, removeFromFreeList_headers]
  have hpvF : (removeFromFreeList s t h).pvF = removePrev s.nxF s.pvF h := by
    funext a; simp only [State.pvF, removeFromFreeList_headers]
  refine hR.changeFree hS ?_ ?_ (fun u hu => ?_) ?_ ?_ (fun a _ hat => ?_) ?_
    (fun a ha => hR.sub t (List.mem_of_mem_erase ha)) fun a ha hnot => ?_
  · funext a; simp only [State.nx, removeFromFreeList_headers]
  · funext a; simp only [State.pv, removeFromFreeList_headers]
  · rw [removeFromFreeList_table, if_neg fun hc => hu hc.2]
  · rw [removeFromFreeList_table]
    split <;> rfl
  · rw [removeFromFreeList_table]
    split <;> rfl
  · rw [hnxF, hpvF]
    exact ⟨(hR.free t).removeNext_of_notMem hh hat, (hR.free t).removePrev_of_notMem hh hat⟩
  · have hhead := (hR.free t).pv_eq_none_iff hh
    have herase := (hR.free t).erase hh
    rw [hnxF, hpvF, removeFromFreeList_table]
    by_cases hp : s.pvF h = none
    · rw [if_pos hp] at herase
      rwa [if_pos ⟨⟨hp, hhead.mp hp⟩, rfl⟩]
    · rw [if_neg hp] at herase
      rwa [if_neg (fun hc => hp hc.1.1)]
  · have hah : a = h := by
      by_contra hne
      exact hnot ((List.mem_erase_of_ne hne).mpr ha)
    simp [hnxF, hpvF, removeNext, removePrev, hah]

/-- What `push_to_free_list` needs to do its work: the subpool is off the list. -/
theorem Rings.off_head (hoff : h ∉ frees t) : (s.table t).nextFree ≠ some h := by
  intro hc
  exact hoff (List.mem_of_head? ((hR.free t).head_eq ▸ hc))

theorem pushToFreeList_shapes (hS : Shapes s subs) (hh : h ∈ subs t) (hoff : h ∉ frees t) :
    Shapes (pushToFreeList s t h) subs := by
  obtain ⟨hnf, hpf⟩ := hR.off t h hh hoff
  obtain ⟨hhd, htb, -⟩ := pushToFreeList_eq hpf hnf (hR.off_head hoff)
  refine hS.congr (funext fun u => ?_) (fun u a _ => ?_)
  · simp only [State.cls, htb]
    split <;> rfl
  · simp only [State.shape, hhd]

/-- `push_to_free_list` puts a subpool that is off the list at its front. -/
theorem pushToFreeList_rings (hS : Shapes s subs) (hh : h ∈ subs t) (hoff : h ∉ frees t) :
    Rings (pushToFreeList s t h) subs (update frees t (h :: frees t)) := by
  obtain ⟨hnf, hpf⟩ := hR.off t h hh hoff
  obtain ⟨hhd, htb, -⟩ := pushToFreeList_eq hpf hnf (hR.off_head hoff)
  have hnxF : (pushToFreeList s t h).nxF = insertNext s.nxF h none (s.table t).nextFree := by
    funext a; simp only [State.nxF, hhd]
  have hpvF : (pushToFreeList s t h).pvF = insertPrev s.pvF h none (s.table t).nextFree := by
    funext a; simp only [State.pvF, hhd]
  refine hR.changeFree hS ?_ ?_ (fun u hu => by rw [htb, if_neg hu]) (by rw [htb, if_pos rfl])
    (by rw [htb, if_pos rfl]) (fun a hnot hat => ?_) ?_ (List.cons_subset.mpr ⟨hh, hR.sub t⟩)
    fun a ha hnot => absurd (List.mem_cons_of_mem h ha) hnot
  · funext a; simp only [State.nx, hhd]
  · funext a; simp only [State.pv, hhd]
  · have hne : (s.table t).nextFree ≠ some a := hR.off_head hat
    rw [List.mem_cons, not_or] at hnot
    simp [hnxF, hpvF, insertNext, insertPrev, hnot.1, hne]
  · rw [hnxF, hpvF, htb, if_pos rfl]
    exact (hR.free t).pushFront hoff

end

/-- Removing a subpool that is not on the free list changes nothing. -/
theorem removeFromFreeList_off (hnf : s.nxF h = none) (hpf : s.pvF h = none)
    (hne : (s.table t).nextFree ≠ some h) : removeFromFreeList s t h = s := by
  have hhd : (removeFromFreeList s t h).headers = s.headers := by
    funext a
    have h1 : removeNext s.nxF s.pvF h a = s.nxF a := by
      by_cases ha : a = h <;> simp [removeNext, ha, hnf, hpf]
    have h2 : removePrev s.nxF s.pvF h a = s.pvF a := by
      by_cases ha : a = h <;> simp [removePrev, ha, hnf, hpf]
    rw [removeFromFreeList_headers, h1, h2]
    rfl
  have htb : (removeFromFreeList s t h).table = s.table := by
    funext u
    rw [removeFromFreeList_table, if_neg (fun hc => hne hc.1.2)]
  have hrg := removeFromFreeList_ranges s t h
  cases hs : removeFromFreeList s t h
  simp_all

section

variable (hR : Rings s subs frees) (hS : Shapes s subs)
include hR hS

/-- After `remove_from_free_list` the subpool is on no free list. -/
theorem removeFromFreeList_rings' (hh : h ∈ subs t) :
    Rings (removeFromFreeList s t h) subs (update frees t ((frees t).erase h)) := by
  by_cases hf : h ∈ frees t
  · exact removeFromFreeList_rings hR hS hf
  · obtain ⟨hnf, hpf⟩ := hR.off t h hh hf
    rwa [removeFromFreeList_off hnf hpf (hR.off_head hf), List.erase_of_not_mem hf,
      update_eq_self]

/-- A subpool linked nowhere is appended to the list of its class. -/
theorem appendSubpool_rings (hnew : ∀ u, h ∉ subs u) :
    Rings (appendSubpool s t h) (update subs t (subs t ++ [h])) frees := by
  have hlast : (s.table t).last ≠ some h := fun hc =>
    hnew t (List.mem_of_getLast? (hR.last t ▸ hc))
  obtain ⟨hhd, htb, -⟩ := appendSubpool_eq hlast
  have hnx : (appendSubpool s t h).nx = insertNext s.nx h (subs t).getLast? none := by
    funext a; simp only [State.nx, hhd, hR.last]
  have hpv : (appendSubpool s t h).pv = insertPrev s.pv h (subs t).getLast? none := by
    funext a; simp only [State.pv, hhd, hR.last]
  have hkeepF : ∀ a ≠ h, (appendSubpool s t h).nxF a = s.nxF a ∧
      (appendSubpool s t h).pvF a = s.pvF a := by
    intro a ha
    simp only [State.nxF, State.pvF, hhd, if_neg ha, and_self]
  have hchange : Rings (appendSubpool s t h) (update subs t (subs t ++ [h]))
      (update frees t (frees t)) := by
    refine hR.change (fun u hu a ha => ?_) (fun u hu => by rw [htb, if_neg hu]) ?_ ?_ ?_
      (fun a ha => List.mem_append_left _ (hR.sub t ha)) fun a ha hoff => ?_
    · have hah : a ≠ h := fun hc => hnew u (hc ▸ ha)
      have hal : (subs t).getLast? ≠ some a := fun hc =>
        hu (hS.slot_unique ha (List.mem_of_getLast? hc))
      rw [hnx, hpv]
      exact ⟨by simp [insertNext, hah, hal], by simp [insertPrev, hah], hkeepF a hah⟩
    · rw [hnx, hpv, htb, if_pos rfl, hR.last]
      exact (hR.all t).pushBack (hnew t)
    · simp [htb]
    · have hne : ∀ a ∈ frees t, a ≠ h := fun a ha hc => hnew t (hR.sub t (hc ▸ ha))
      rw [htb, if_pos rfl]
      exact (hR.free t).congr (fun a ha => (hkeepF a (hne a ha)).1)
        (fun a ha => (hkeepF a (hne a ha)).2)
    · by_cases hah : a = h
      · simp [State.nxF, State.pvF, hhd, hah]
      · rw [(hkeepF a hah).1, (hkeepF a hah).2]
        exact hR.off t a (by simpa [hah] using ha) hoff
  rwa [update_eq_self] at hchange

theorem appendSubpool_shapes (hnew : ∀ u, h ∉ subs u) (hcls : (s.cls t).1 ≠ 0) {oc hs : Nat}
    (hlay : Layout (s.cls t).1 (s.cls t).2 oc hs)
    (hshape : s.shape h = ((s.cls t).1, (s.cls t).2, oc, hs, subpoolPages)) :
    Shapes (appendSubpool s t h) (update subs t (subs t ++ [h])) := by
  have hlast : (s.table t).last ≠ some h := fun hc =>
    hnew t (List.mem_of_getLast? (hR.last t ▸ hc))
  obtain ⟨hhd, htb, -⟩ := appendSubpool_eq hlast
  have hc : (appendSubpool s t h).cls = s.cls := by
    funext u; simp only [State.cls, htb]; split <;> rfl
  have hsh : (appendSubpool s t h).shape = s.shape := by
    funext a; simp only [State.shape, hhd]
  refine ⟨hc ▸ hS.slot, hc ▸ hS.uniq, fun u h0 => ?_, hc ▸ hS.cls, fun u a ha => ?_⟩
  · rw [hc] at h0
    have hu : u ≠ t := by
      rintro rfl
      exact hcls h0
    rw [update_of_ne hu]
    exact hS.empty u h0
  · rw [hc, hsh]
    by_cases hu : u = t
    · subst hu
      rw [update_self, List.mem_append, List.mem_singleton] at ha
      rcases ha with ha | rfl
      · exact hS.shape u a ha
      · exact ⟨oc, hs, hlay, hshape⟩
    · rw [update_of_ne hu] at ha
      exact hS.shape u a ha

/-- A member that is off the free list leaves the list of its class. -/
theorem clear_detach_rings (hh : h ∈ subs t) (hoff : h ∉ frees t) :
    Rings (clearSubpool (detachSubpool s t h) t h)
      (update subs t ((subs t).erase h)) frees := by
  obtain ⟨hhd, htb, -⟩ := clear_detach_eq (hR.all t) (hR.last t) hh
  set s' := clearSubpool (detachSubpool s t h) t h with hs'
  have hnx : s'.nx = removeNext s.nx s.pv h := by
    funext a
    simp only [State.nx, hhd]
    split
    · simp [removeNext, *, SubpoolHeader.zeroed]
    · rfl
  have hpv : s'.pv = removePrev s.nx s.pv h := by
    funext a
    simp only [State.pv, hhd]
    split
    · simp [removePrev, *, SubpoolHeader.zeroed]
    · rfl
  have hkeepF : ∀ a ≠ h, s'.nxF a = s.nxF a ∧ s'.pvF a = s.pvF a := by
    intro a ha
    simp only [State.nxF, State.pvF, hhd, if_neg ha, and_self]
  -- an emptied class has an empty free list as well
  have hfree : (subs t).erase h = [] → frees t = [] := by
    intro he
    rw [List.eq_nil_iff_forall_not_mem]
    intro a ha
    have hah : a ≠ h := fun hc => hoff (hc ▸ ha)
    have := (List.mem_erase_of_ne hah).mpr (hR.sub t ha)
    rw [he] at this
    simp at this
  have hneF : ∀ a ∈ frees t, a ≠ h := fun a ha hc => hoff (hc ▸ ha)
  have hchange : Rings s' (update subs t ((subs t).erase h)) (update frees t (frees t)) := by
    refine hR.change (fun u hu a ha => ?_) (fun u hu => by rw [htb, if_neg hu]) ?_ ?_ ?_
      (fun a ha => (List.mem_erase_of_ne (hneF a ha)).mpr (hR.sub t ha)) fun a ha hnot => ?_
    · have hat : a ∉ subs t := fun hat => hu (hS.slot_unique ha hat)
      rw [hnx, hpv]
      exact ⟨(hR.all t).removeNext_of_notMem hh hat, (hR.all t).removePrev_of_notMem hh hat,
        hkeepF a fun hc => hat (hc ▸ hh)⟩
    · rw [hnx, hpv, htb, if_pos rfl]
      have herase := (hR.all t).erase hh
      refine ⟨?_, herase.nodup, herase.seg⟩
      split
      · rename_i he
        simp [he]
      · rfl
    · rw [htb, if_pos rfl]
      split
      · rename_i he
        simp [he]
      · rfl
    · have hcong := (hR.free t).congr (fun a ha => (hkeepF a (hneF a ha)).1)
        (fun a ha => (hkeepF a (hneF a ha)).2)
      rw [htb, if_pos rfl]
      split
      · rename_i he
        rw [hfree he] at hcong ⊢
        exact ⟨rfl, hcong.nodup, hcong.seg⟩
      · exact hcong
    · obtain ⟨hah, ha⟩ := ((hR.all t).nodup.mem_erase_iff).mp ha
      rw [(hkeepF a hah).1, (hkeepF a hah).2]
      exact hR.off t a ha hnot
  rwa [update_eq_self] at hchange

theorem clear_detach_shapes (hh : h ∈ subs t) :
    Shapes (clearSubpool (detachSubpool s t h) t h)
      (update subs t ((subs t).erase h)) := by
  obtain ⟨hhd, htb, -⟩ := clear_detach_eq (hR.all t) (hR.last t) hh
  set s' := clearSubpool (detachSubpool s t h) t h with hs'
  have hcls : ∀ u, s'.cls u =
      if u = t ∧ (subs t).erase h = [] then (0, 0) else s.cls u := by
    intro u
    simp only [State.cls, htb]
    by_cases hu : u = t
    · subst hu
      by_cases he : (subs u).erase h = [] <;> simp [he]
    · simp [hu]
  have hne : ∀ u, (s'.cls u).1 ≠ 0 → s'.cls u = s.cls u := by
    intro u hu
    rw [hcls] at hu ⊢
    split at hu
    · simp at hu
    · rename_i hc
      rw [if_neg hc]
  refine ⟨fun u h0 => hS.slot u (hne u h0 ▸ h0), fun u u' h0 heq => ?_, fun u h0 => ?_,
    fun u h0 => ?_, fun u a ha => ?_⟩
  · have hu' : (s'.cls u').1 ≠ 0 := heq ▸ h0
    rw [hne u h0, hne u' hu'] at heq
    exact hS.uniq u u' (hne u h0 ▸ h0) heq
  · rw [hcls] at h0
    by_cases hc : u = t ∧ (subs t).erase h = []
    · rw [hc.1, update_self, hc.2]
    · rw [if_neg hc] at h0
      have hnil := hS.empty u h0
      have hu : u ≠ t := fun hu => by
        rw [hu] at hnil
        rw [hnil] at hh
        simp at hh
      rw [update_of_ne hu, hnil]
  · rw [hne u h0]
    exact hS.cls u (hne u h0 ▸ h0)
  · have ha' : a ≠ h ∧ a ∈ subs u ∧ s'.cls u = s.cls u := by
      by_cases hu : u = t
      · subst hu
        rw [update_self] at ha
        have hmem := ((hR.all u).nodup.mem_erase_iff).mp ha
        refine ⟨hmem.1, hmem.2, ?_⟩
        rw [hcls, if_neg (fun hc => by rw [hc.2] at ha; simp at ha)]
      · rw [update_of_ne hu] at ha
        exact ⟨fun hc => hu (hS.slot_unique ha (hc ▸ hh)), ha, by
          rw [hcls, if_neg (fun hc => hu hc.1)]⟩
    have hsh : s'.shape a = s.shape a := by simp only [State.shape, hhd, if_neg ha'.1]
    rw [ha'.2.2, hsh]
    exact hS.shape u a ha'.2.1

end

end Preservation

end FoliOS.Strata.Pool
