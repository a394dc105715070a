import Mathlib.Data.List.Nodup

/-!
# Intrusive doubly linked lists

A doubly linked list as kernel code keeps it: the links are fields of the
cells, so a list is a pair of partial maps `nx` / `pv` over cell addresses
together with the order in which the cells are threaded.

`Seg nx pv p l q` says that the cells of `l` are threaded in that order, the
first one pointing back to `p` and the last one forward to `q`. A whole list
is `IsDList nx pv head l`: a duplicate-free segment between two null ends.

Results:

* `Seg.append_iff`    — a segment splits at any point.
* `Seg.congr`         — links outside the segment do not matter.
* `Seg.relink`        — changing only the two outer links, or one of them.
* `IsDList.insert`    — writing the four links of an insertion, with its two
  common cases `IsDList.pushFront` and `IsDList.pushBack`.
* `IsDList.erase`     — writing the links of an unlink.
* `IsDList.walk_iff`  — following forward links from the head visits exactly
  the cells of the list.
-/

namespace FoliOS.Lib

variable {α : Type*}

/-- The cells of `l` are threaded in order between the ends `p` and `q`. -/
def Seg (nx pv : α → Option α) : Option α → List α → Option α → Prop
  | _, [], _ => True
  | p, a :: l, q => pv a = p ∧ nx a = l.head?.or q ∧ Seg nx pv (some a) l q

/-- A null-terminated doubly linked list holding the cells of `l` in order. -/
structure IsDList (nx pv : α → Option α) (head : Option α) (l : List α) : Prop where
  head_eq : head = l.head?
  nodup   : l.Nodup
  seg     : Seg nx pv none l none

/-! ## Segments -/

@[simp] theorem seg_nil (nx pv : α → Option α) (p q : Option α) : Seg nx pv p [] q := trivial

@[simp] theorem seg_cons (nx pv : α → Option α) (p q : Option α) (a : α) (l : List α) :
    Seg nx pv p (a :: l) q ↔
      pv a = p ∧ nx a = l.head?.or q ∧ Seg nx pv (some a) l q := Iff.rfl

/-- A segment splits at any point; the cut cells point at each other. -/
theorem Seg.append_iff {nx pv : α → Option α} {q : Option α} {l1 l2 : List α} {p : Option α} :
    Seg nx pv p (l1 ++ l2) q ↔
      Seg nx pv p l1 (l2.head?.or q) ∧ Seg nx pv (l1.getLast?.or p) l2 q := by
  induction l1 generalizing l2 p with
  | nil => simp
  | cons a rest ih =>
    have hlast : ((a :: rest).getLast?.or p) = rest.getLast?.or (some a) := by
      cases rest with
      | nil => simp
      | cons b rest => simp [List.getLast?_cons]
    have hhead : (rest ++ l2).head?.or q = rest.head?.or (l2.head?.or q) := by
      cases rest <;> simp
    rw [List.cons_append, seg_cons, seg_cons, ih, hlast, hhead]
    tauto

/-- Links outside the segment do not matter. -/
theorem Seg.congr {nx pv nx' pv' : α → Option α} {q : Option α} {l : List α} {p : Option α}
    (hnx : (∀ a ∈ l, nx' a = nx a)) (hpv : (∀ a ∈ l, pv' a = pv a)) (h : Seg nx pv p l q) :
    Seg nx' pv' p l q := by
  induction l generalizing p with
  | nil => trivial
  | cons a rest ih =>
    obtain ⟨h1, h2, h3⟩ := h
    refine ⟨(hpv a (by simp)).trans h1, (hnx a (by simp)).trans h2, ?_⟩
    exact ih (fun b hb => hnx b (by simp [hb])) (fun b hb => hpv b (by simp [hb])) h3

/-- In a segment the head cell points back to the near end. -/
theorem Seg.pv_head {nx pv : α → Option α} {p q : Option α} {l : List α} {a : α}
    (h : Seg nx pv p l q) (ha : l.head? = some a) : pv a = p := by
  cases l with
  | nil => simp at ha
  | cons b rest =>
    rw [List.head?_cons, Option.some.injEq] at ha
    exact ha ▸ h.1

variable [DecidableEq α]

/-- Rewriting only the two outer links moves a segment between other ends. -/
theorem Seg.relink {nx pv nx' pv' : α → Option α} {q q' : Option α} {l : List α} {p p' : Option α}
    (hnd : l.Nodup) (h : Seg nx pv p l q)
    (hnx : (∀ a ∈ l, nx' a = if l.getLast? = some a then q' else nx a))
    (hpv : (∀ a ∈ l, pv' a = if l.head? = some a then p' else pv a)) : Seg nx' pv' p' l q' := by
  induction l generalizing p p' with
  | nil => trivial
  | cons a rest ih =>
    obtain ⟨hnotin, hnd'⟩ := List.nodup_cons.mp hnd
    obtain ⟨-, hnext, htail⟩ := h
    refine ⟨by simpa using hpv a (by simp), ?_, ?_⟩
    · have hna := hnx a (by simp)
      cases rest with
      | nil => simpa using hna
      | cons b more =>
        -- the head is not the last cell, so its forward link is the old one
        have hne : (a :: b :: more).getLast? ≠ some a := by
          intro hl
          exact hnotin (List.mem_of_getLast? hl)
        rw [hna, if_neg hne, hnext]
        simp
    · refine ih (p := some a) hnd' htail ?_ ?_
      · intro b hb
        have hb' := hnx b (by simp [hb])
        rw [hb']
        cases rest with
        | nil => simp at hb
        | cons c more => rw [List.getLast?_cons_cons]
      · intro b hb
        have hba : a ≠ b := fun h => hnotin (h ▸ hb)
        have hb' := hpv b (by simp [hb])
        rw [List.head?_cons, if_neg (by simpa using hba)] at hb'
        rw [hb']
        split
        · rename_i hhd
          exact htail.pv_head hhd
        · rfl

/-- Rewriting only the link of the last cell. -/
theorem Seg.relinkNext {nx pv nx' pv' : α → Option α} {p q q' : Option α} {l : List α}
    (hnd : l.Nodup) (h : Seg nx pv p l q)
    (hnx : ∀ a ∈ l, nx' a = if l.getLast? = some a then q' else nx a)
    (hpv : ∀ a ∈ l, pv' a = pv a) : Seg nx' pv' p l q' := by
  refine h.relink hnd hnx fun a ha => ?_
  rw [hpv a ha]
  split
  next hhd => exact h.pv_head hhd
  next => rfl

/-- Rewriting only the link of the first cell. -/
theorem Seg.relinkPrev {nx pv nx' pv' : α → Option α} {p p' q : Option α} {l : List α}
    (hnd : l.Nodup) (h : Seg nx pv p l q) (hnx : ∀ a ∈ l, nx' a = nx a)
    (hpv : ∀ a ∈ l, pv' a = if l.head? = some a then p' else pv a) : Seg nx' pv' p' l q := by
  refine h.relink hnd (fun a ha => ?_) hpv
  rw [hnx a ha]
  split
  next hlast =>
    obtain ⟨init, rfl⟩ : ∃ init, l = init ++ [a] :=
      ⟨_, (List.dropLast_append_getLast? a hlast).symm⟩
    simpa using (Seg.append_iff.mp h).2.2.1
  next => rfl

/-! ## Insertion and removal -/

/-- Forward links after threading `x` between `p` and `q`. -/
def insertNext (nx : α → Option α) (x : α) (p q : Option α) (a : α) : Option α :=
  if a = x then q else if p = some a then some x else nx a

/-- Backward links after threading `x` between `p` and `q`. -/
def insertPrev (pv : α → Option α) (x : α) (p q : Option α) (a : α) : Option α :=
  if a = x then p else if q = some a then some x else pv a

/-- Forward links after taking `x` out. -/
def removeNext (nx pv : α → Option α) (x a : α) : Option α :=
  if a = x then none else if pv x = some a then nx x else nx a

/-- Backward links after taking `x` out. -/
def removePrev (nx pv : α → Option α) (x a : α) : Option α :=
  if a = x then none else if nx x = some a then pv x else pv a

/-- Threading a new cell between two neighbours of a list. -/
theorem IsDList.insert {nx pv : α → Option α} {head : Option α} {l1 l2 : List α} {x : α}
    (h : IsDList nx pv head (l1 ++ l2)) (hx : x ∉ l1 ++ l2) :
    IsDList (insertNext nx x l1.getLast? l2.head?) (insertPrev pv x l1.getLast? l2.head?)
      (if l1.getLast? = none then some x else head) (l1 ++ x :: l2) := by
  obtain ⟨hhead, hnd, hseg⟩ := h
  have hx1 : x ∉ l1 := fun h => hx (List.mem_append_left _ h)
  have hx2 : x ∉ l2 := fun h => hx (List.mem_append_right _ h)
  have hnd1 := (List.nodup_append.mp hnd).1
  have hnd2 := (List.nodup_append.mp hnd).2.1
  have hdisj : ∀ a ∈ l1, ∀ b ∈ l2, a ≠ b := (List.nodup_append.mp hnd).2.2
  obtain ⟨hs1, hs2⟩ := Seg.append_iff.mp hseg
  refine ⟨?_, ?_, ?_⟩
  · cases l1 with
    | nil => simp
    | cons a rest => simp [hhead]
  · refine List.nodup_append.mpr ⟨hnd1, List.nodup_cons.mpr ⟨hx2, hnd2⟩, ?_⟩
    intro a ha b hb
    rcases List.mem_cons.mp hb with rfl | hb
    · exact fun h => hx1 (h ▸ ha)
    · exact hdisj a ha b hb
  · refine Seg.append_iff.mpr ⟨?_, ?_, ?_, ?_⟩
    · -- the left part: only its last cell changes, and it now points to `x`
      refine hs1.relinkNext hnd1 (fun a ha => ?_) fun a ha => ?_ <;>
        have hax : a ≠ x := fun h => hx1 (h ▸ ha)
      · simp [insertNext, hax]
      · have hq : l2.head? ≠ some a := fun hq => hdisj a ha a (List.mem_of_head? hq) rfl
        simp [insertPrev, hax, hq]
    · simp [insertPrev]
    · simp [insertNext]
    · -- the right part: only its first cell changes, and it now points back to `x`
      refine hs2.relinkPrev hnd2 (fun a ha => ?_) fun a ha => ?_ <;>
        have hax : a ≠ x := fun h => hx2 (h ▸ ha)
      · have hp : l1.getLast? ≠ some a := fun hp => hdisj a (List.mem_of_getLast? hp) a ha rfl
        simp [insertNext, hax, hp]
      · simp [insertPrev, hax]

/-- Taking a cell out of a list. -/
theorem IsDList.remove {nx pv : α → Option α} {head : Option α} {l1 l2 : List α} {x : α}
    (h : IsDList nx pv head (l1 ++ x :: l2)) :
    IsDList (removeNext nx pv x) (removePrev nx pv x)
      (if pv x = none then nx x else head) (l1 ++ l2) := by
  obtain ⟨hhead, hnd, hseg⟩ := h
  obtain ⟨hnd1, hndx, hdisj⟩ := List.nodup_append.mp hnd
  obtain ⟨hx2, hnd2⟩ := List.nodup_cons.mp hndx
  have hx1 : x ∉ l1 := fun h => hdisj x h x (by simp) rfl
  obtain ⟨hs1, hpv, hnx, hs2⟩ := Seg.append_iff.mp hseg
  rw [Option.or_none] at hpv hnx
  have hdisj2 : ∀ a ∈ l1, ∀ b ∈ l2, a ≠ b := fun a ha b hb => hdisj a ha b (by simp [hb])
  refine ⟨?_, ?_, ?_⟩
  · cases l1 with
    | nil => simp [hpv, hnx]
    | cons a rest => simp [hpv, hhead]
  · exact List.nodup_append.mpr ⟨hnd1, hnd2, hdisj2⟩
  · refine Seg.append_iff.mpr ⟨?_, ?_⟩
    · refine hs1.relinkNext hnd1 (fun a ha => ?_) fun a ha => ?_ <;>
        have hax : a ≠ x := fun h => hx1 (h ▸ ha)
      · simp [removeNext, hax, hpv, hnx]
      · have hq : l2.head? ≠ some a := fun hq => hdisj2 a ha a (List.mem_of_head? hq) rfl
        simp [removePrev, hax, hnx, hq]
    · refine hs2.relinkPrev hnd2 (fun a ha => ?_) fun a ha => ?_ <;>
        have hax : a ≠ x := fun h => hx2 (h ▸ ha)
      · have hp : l1.getLast? ≠ some a := fun hp => hdisj2 a (List.mem_of_getLast? hp) a ha rfl
        simp [removeNext, hax, hpv, hp]
      · simp [removePrev, hax, hpv, hnx]

variable {nx pv : α → Option α} {head : Option α} {l : List α} {x a : α}

section

variable (h : IsDList nx pv head l)
include h

/-- Threading a new cell at the front. -/
theorem IsDList.pushFront (hx : x ∉ l) :
    IsDList (insertNext nx x none head) (insertPrev pv x none head) (some x) (x :: l) := by
  have h' : IsDList nx pv head ([] ++ l) := h
  have := IsDList.insert h' hx
  simpa [h.head_eq] using this

/-- Threading a new cell at the back. -/
theorem IsDList.pushBack (hx : x ∉ l) :
    IsDList (insertNext nx x l.getLast? none) (insertPrev pv x l.getLast? none)
      (if l.getLast? = none then some x else head) (l ++ [x]) := by
  have h' : IsDList nx pv head (l ++ []) := by rwa [List.append_nil]
  have := IsDList.insert h' (by rwa [List.append_nil])
  simpa using this

section

variable (hx : x ∈ l)
include hx

/-- Taking a member out, in terms of `List.erase`. -/
theorem IsDList.erase :
    IsDList (removeNext nx pv x) (removePrev nx pv x)
      (if pv x = none then nx x else head) (l.erase x) := by
  obtain ⟨l1, l2, rfl⟩ := List.append_of_mem hx
  have hx1 : x ∉ l1 := fun h1 => (List.nodup_append.mp h.nodup).2.2 x h1 x (by simp) rfl
  rw [List.erase_append_right _ hx1, List.erase_cons_head]
  exact h.remove

/-! ## What the links of a member say -/

omit [DecidableEq α] in
/-- The links of a member are its neighbours in the order. -/
theorem IsDList.links : ∃ l1 l2, l = l1 ++ x :: l2 ∧ pv x = l1.getLast? ∧ nx x = l2.head? := by
  obtain ⟨l1, l2, rfl⟩ := List.append_of_mem hx
  obtain ⟨-, hpv, hnx, -⟩ := Seg.append_iff.mp h.seg
  rw [Option.or_none] at hpv hnx
  exact ⟨l1, l2, rfl, hpv, hnx⟩

omit [DecidableEq α] in
theorem IsDList.pv_mem (ha : pv x = some a) : a ∈ l := by
  obtain ⟨l1, l2, rfl, hpv, -⟩ := h.links hx
  exact List.mem_append_left _ (List.mem_of_getLast? (hpv ▸ ha))

omit [DecidableEq α] in
theorem IsDList.nx_mem (ha : nx x = some a) : a ∈ l := by
  obtain ⟨l1, l2, rfl, -, hnx⟩ := h.links hx
  exact List.mem_append_right _ (List.mem_cons_of_mem _ (List.mem_of_head? (hnx ▸ ha)))

omit [DecidableEq α] in
/-- A member without predecessor is the head. -/
theorem IsDList.pv_eq_none_iff : pv x = none ↔ head = some x := by
  obtain ⟨l1, l2, rfl, hpv, -⟩ := h.links hx
  rw [hpv, h.head_eq]
  cases l1 with
  | nil => simp
  | cons b rest =>
    have hbx : b ≠ x := by
      have hnd := h.nodup
      rw [List.cons_append, List.nodup_cons] at hnd
      exact fun hbx => hnd.1 (by simp [hbx])
    simp [hbx]

omit [DecidableEq α] in
/-- A member without successor is the last cell. -/
theorem IsDList.nx_eq_none_iff : nx x = none ↔ l.getLast? = some x := by
  obtain ⟨l1, l2, rfl, -, hnx⟩ := h.links hx
  rw [hnx]
  cases l2 with
  | nil => simp
  | cons b rest =>
    have hnd := (List.nodup_append.mp h.nodup).2.1
    have hlast : (b :: rest).getLast? ≠ some x := fun hl =>
      (List.nodup_cons.mp hnd).1 (List.mem_of_getLast? hl)
    simpa using hlast

/-- The last cell after taking `x` out. -/
theorem IsDList.getLast?_erase :
    (l.erase x).getLast? = if l.getLast? = some x then pv x else l.getLast? := by
  obtain ⟨l1, l2, rfl, hpv, hnx⟩ := h.links hx
  have hx1 : x ∉ l1 := fun h1 => (List.nodup_append.mp h.nodup).2.2 x h1 x (by simp) rfl
  have hiff := h.nx_eq_none_iff hx
  rw [List.erase_append_right _ hx1, List.erase_cons_head]
  cases l2 with
  | nil => simp [hpv]
  | cons b rest =>
    rw [hnx] at hiff
    rw [if_neg (fun hl => by simpa using hiff.mpr hl)]
    simp [List.getLast?_append]

/-! ## Frame lemmas: cells of other lists keep their links -/

theorem IsDList.removeNext_of_notMem (ha : a ∉ l) : removeNext nx pv x a = nx a := by
  have h1 : a ≠ x := fun h' => ha (h' ▸ hx)
  have h2 : pv x ≠ some a := fun h' => ha (h.pv_mem hx h')
  simp [removeNext, h1, h2]

theorem IsDList.removePrev_of_notMem (ha : a ∉ l) : removePrev nx pv x a = pv a := by
  have h1 : a ≠ x := fun h' => ha (h' ▸ hx)
  have h2 : nx x ≠ some a := fun h' => ha (h.nx_mem hx h')
  simp [removePrev, h1, h2]

end

omit [DecidableEq α] in
/-- A list only depends on the links of its own cells. -/
theorem IsDList.congr {nx' pv' : α → Option α} (hnx : ∀ a ∈ l, nx' a = nx a)
    (hpv : ∀ a ∈ l, pv' a = pv a) : IsDList nx' pv' head l :=
  ⟨h.head_eq, h.nodup, h.seg.congr hnx hpv⟩

end

/-! ## Walking a list -/

/-- The cells reached from `head` by following forward links. -/
inductive Walk (nx : α → Option α) (head : Option α) : α → Prop where
  | head {a : α} : head = some a → Walk nx head a
  | next {a b : α} : Walk nx head a → nx a = some b → Walk nx head b

omit [DecidableEq α] in
private theorem walk_of_seg {nx pv : α → Option α} {head : Option α} :
    ∀ {l : List α} {p : Option α}, Seg nx pv p l none → (∀ a, l.head? = some a → Walk nx head a) →
      ∀ a ∈ l, Walk nx head a := by
  intro l
  induction l with
  | nil => intro p _ _ a ha; simp at ha
  | cons b rest ih =>
    intro p hseg hhead a ha
    have hb : Walk nx head b := hhead b rfl
    rcases List.mem_cons.mp ha with rfl | hrest
    · exact hb
    · refine ih hseg.2.2 (fun c hc => ?_) a hrest
      exact Walk.next hb (by rw [hseg.2.1, hc]; rfl)

omit [DecidableEq α] in
/-- Following forward links from the head visits exactly the cells of the list. -/
theorem IsDList.walk_iff (h : IsDList nx pv head l) : Walk nx head a ↔ a ∈ l := by
  constructor
  · intro hw
    induction hw with
    | head hhead => exact List.mem_of_head? (h.head_eq ▸ hhead)
    | next _ hnext ih => exact h.nx_mem ih hnext
  · intro ha
    exact walk_of_seg h.seg (fun b hb => Walk.head (h.head_eq.trans hb)) a ha

end FoliOS.Lib
