import FoliOS.Lib.SList
import FoliOS.Strata.Sched.Fairness
import Mathlib.Data.List.TakeWhile

/-!
# Strata — the run queue and the scan over it (`scheduler/scheduler.c`)

The queue as the code has it: a head, a tail, and a `next` link in every thread. The loop of
`select_next_runnable_thread` goes on from the last thread at the head, until it is back where it
started. `Holds` says which list a queue is.

A call that follows a null pointer, or whose loop does not come to an end, has no result.
-/

namespace FoliOS.Strata.Sched

open Function Lib

variable {current : Option Nat} {l₁ l₂ : List Nat}

/-! ## The code -/

/-- `runqueue_head`, `runqueue_tail` and the links of the threads. -/
structure Runqueue where
  head : Option Nat
  tail : Option Nat
  next : Nat → Option Nat

/-- What `StScheduler_AddThread` does to the queue. -/
def Runqueue.addThread (q : Runqueue) (th : Nat) : Option Runqueue :=
  match q.head with
  | none => some ⟨some th, some th, update q.next th none⟩
  | some _ => q.tail.map fun last =>
    { q with tail := some th, next := update (update q.next last (some th)) th none }

/-- The loop of `StScheduler_RemoveThread`. -/
def Runqueue.removeLoop (q : Runqueue) (th : Nat) : Nat → Option Nat → Option Runqueue
  | _, none => some q
  | 0, some _ => none
  | fuel + 1, some current =>
    if q.next current = none then some q
    else if q.next current = some th then
      some { q with
        next := update q.next current (q.next th)
        tail := if q.tail = some th then some current else q.tail }
    else q.removeLoop th fuel (q.next current)

/-- What `StScheduler_RemoveThread` does to the queue. -/
def Runqueue.removeThread (q : Runqueue) (th fuel : Nat) : Option Runqueue :=
  let q := if q.head = some th then
      { q with head := q.next th, tail := if q.next th = none then none else q.tail }
    else q
  (q.removeLoop th fuel q.head).map fun q => { q with next := update q.next th none }

/-- The loop of `select_next_runnable_thread`. -/
def Runqueue.selectLoop (q : Runqueue) (nowNs : UInt64) (start : Nat) :
    Nat → Nat → State → Option (Nat × UInt64) → Option (State × Option (Nat × UInt64))
  | 0, _, _, _ => none
  | fuel + 1, cursor, s, best =>
    let s := updateRunnableState s cursor nowNs
    let best := better s best cursor
    match (q.next cursor).or q.head with
    | none => some (s, best)
    | some c => if c = start then some (s, best) else q.selectLoop nowNs start fuel c s best

/-- `select_next_runnable_thread` -/
def Runqueue.selectNextRunnableThread (q : Runqueue) (s : State) (fuel : Nat) (nowNs : UInt64)
    (updateAccounting : Bool) : Option (State × Option Nat) :=
  match q.head with
  | none => some (s, none)
  | some head =>
    let start := (s.current.bind q.next).getD head
    (q.selectLoop nowNs start fuel start s none).map fun r =>
      match r.2 with
      | none => (r.1, none)
      | some (t, _) => (if updateAccounting then r.1.charge t else r.1, some t)

/-! ## The queue as a list -/

/-- The queue is the list `l`: without duplicates, and with the right tail. -/
structure Runqueue.Holds (q : Runqueue) (l : List Nat) : Prop where
  links : Links q.next q.head l
  nodup : l.Nodup
  tail  : q.tail = l.getLast?

variable {q : Runqueue} {s : State} {l : List Nat} {th c start fuel : Nat} {nowNs : UInt64}

/-- A thread that is not queued comes last. One that is becomes the last one in its place, and those
behind it are lost. -/
theorem Runqueue.Holds.addThread (h : q.Holds l) (th : Nat) :
    ∃ q', q.addThread th = some q' ∧ q'.Holds (l.takeWhile (· ≠ th) ++ [th]) := by
  have hnd : (l.takeWhile (· ≠ th) ++ [th]).Nodup := by
    refine (h.nodup.sublist (List.takeWhile_sublist _)).append (List.nodup_singleton th) ?_
    exact List.disjoint_singleton.mpr fun hmem => by simpa using List.mem_takeWhile_imp hmem
  have hhead := h.links.head_eq
  unfold Runqueue.addThread
  rcases List.eq_nil_or_concat' l with rfl | ⟨init, last, rfl⟩
  · rw [hhead]
    exact ⟨_, rfl, ⟨rfl, update_self ..⟩, hnd, rfl⟩
  obtain ⟨first, hfirst⟩ : ∃ first, q.head = some first := by
    cases init with
    | nil => exact ⟨_, hhead⟩
    | cons a init => exact ⟨_, hhead⟩
  rw [hfirst, h.tail, List.getLast?_concat]
  refine ⟨_, rfl, hfirst ▸ ?_, hnd, by rw [List.getLast?_concat]⟩
  dsimp only
  by_cases hmem : th ∈ init ++ [last]
  · -- the links in front of the thread stay as they are
    obtain ⟨l₁, l₂, hl⟩ := List.append_of_mem hmem
    have hsplit := h.nodup
    rw [hl, List.nodup_append] at hsplit
    have hne : ∀ c ∈ l₁, ∀ d ∈ th :: l₂, c ≠ d := fun c hc d hd => hsplit.2.2 c hc d hd
    have hlast : last ∈ th :: l₂ := by
      have : (init ++ [last]).getLast? = some last := List.getLast?_concat
      rw [hl, List.getLast?_append_cons] at this
      exact List.mem_of_getLast? this
    rw [hl, List.takeWhile_append_of_pos fun c hc => by simpa using hne c hc th List.mem_cons_self,
      List.takeWhile_cons_of_neg (by simp), List.append_nil]
    refine (hl ▸ h.links).truncate (fun c hc => ?_) (update_self ..)
    rw [update_of_ne (hne c hc th List.mem_cons_self), update_of_ne (hne c hc last hlast)]
  · rw [List.takeWhile_eq_self_iff.mpr fun c hc => by simpa using ne_of_mem_of_not_mem hc hmem]
    exact h.links.pushBack h.nodup hmem

/-- The loop of a removal finds nothing. -/
theorem removeLoop_of_not_mem (hl : Links q.next current l) (hfuel : l.length ≤ fuel)
    (hth : th ∉ l.tail) : q.removeLoop th fuel current = some q := by
  induction l generalizing current fuel with
  | nil =>
    rw [show current = none from hl, Runqueue.removeLoop]
  | cons a l ih =>
    obtain ⟨rfl, hl⟩ := hl
    obtain ⟨fuel, rfl⟩ : ∃ n, fuel = n + 1 := ⟨fuel - 1, by simp at hfuel; omega⟩
    rw [Runqueue.removeLoop]
    split
    next => rfl
    rw [if_neg, ih hl (by simpa using hfuel) fun hmem => hth (List.mem_of_mem_tail hmem)]
    rw [hl.head_eq]
    exact fun heq => hth (List.mem_of_head? heq)

/-- The loop of a removal finds the thread behind another one. -/
theorem removeLoop_of_mem (hl : Links q.next current (l₁ ++ c :: th :: l₂))
    (hfuel : (l₁ ++ c :: th :: l₂).length ≤ fuel) (hth : th ∉ l₁ ++ [c]) :
    q.removeLoop th fuel current = some { q with
      next := update q.next c (q.next th)
      tail := if q.tail = some th then some c else q.tail } := by
  induction l₁ generalizing current fuel with
  | nil =>
    obtain ⟨fuel, rfl⟩ : ∃ n, fuel = n + 1 := ⟨fuel - 1, by simp at hfuel; omega⟩
    obtain ⟨rfl, hnext, -⟩ := hl
    rw [Runqueue.removeLoop, if_neg (by simp [hnext]), if_pos hnext]
  | cons a l₁ ih =>
    obtain ⟨fuel, rfl⟩ : ∃ n, fuel = n + 1 := ⟨fuel - 1, by simp at hfuel; omega⟩
    obtain ⟨rfl, hl⟩ := hl
    have hne : q.next a ≠ none ∧ q.next a ≠ some th := by
      rw [hl.head_eq]
      cases l₁ <;> simp at hth ⊢ <;> grind
    rw [Runqueue.removeLoop, if_neg hne.1, if_neg hne.2]
    exact ih hl (by simpa using hfuel) (by simp_all)

theorem Runqueue.Holds.removeThread (h : q.Holds l) (th : Nat) (hfuel : l.length ≤ fuel) :
    ∃ q', q.removeThread th fuel = some q' ∧ q'.Holds (l.erase th) := by
  -- a list without the thread does not notice that its link is cut
  have hcut : ∀ (q : Runqueue) (l : List Nat), q.Holds l → th ∉ l →
      Runqueue.Holds { q with next := update q.next th none } l := by
    refine fun q l h hth => ⟨h.links.congr fun c hc => ?_, h.nodup, h.tail⟩
    exact update_of_ne (ne_of_mem_of_not_mem hc hth) ..
  have hhead := h.links.head_eq
  unfold Runqueue.removeThread
  by_cases hmem : th ∈ l
  swap
  · rw [if_neg fun heq => hmem (List.mem_of_head? (hhead.symm.trans heq)),
      List.erase_of_not_mem hmem]
    dsimp only
    rw [removeLoop_of_not_mem h.links hfuel fun htail => hmem (List.mem_of_mem_tail htail)]
    exact ⟨_, rfl, hcut q l h hmem⟩
  obtain ⟨l₁, l₂, rfl⟩ := List.append_of_mem hmem
  have hnd := List.nodup_append.mp h.nodup
  have hth1 : th ∉ l₁ := fun hin => hnd.2.2 th hin th List.mem_cons_self rfl
  rw [List.erase_append_right _ hth1, List.erase_cons_head]
  rcases List.eq_nil_or_concat' l₁ with rfl | ⟨l₁, c, rfl⟩
  · -- the head goes
    obtain ⟨hth, hnd2⟩ := List.nodup_cons.mp h.nodup
    have hrest :
        Runqueue.Holds { q with
          head := q.next th, tail := if q.next th = none then none else q.tail } l₂ := by
      refine ⟨h.links.2, hnd2, ?_⟩
      rw [h.links.2.head_eq, h.tail]
      cases l₂ <;> simp
    rw [if_pos (show q.head = some th from hhead)]
    dsimp only
    rw [removeLoop_of_not_mem hrest.links (by simp at hfuel; omega) fun htail =>
      hth (List.mem_of_mem_tail htail)]
    exact ⟨_, rfl, hcut _ _ hrest hth⟩
  · rw [List.append_assoc, List.singleton_append] at h hhead hfuel ⊢
    have hne : q.head ≠ some th := by
      cases l₁ <;> simp at hth1 ⊢ <;> grind
    rw [if_neg hne]
    dsimp only
    rw [removeLoop_of_mem h.links hfuel hth1]
    refine ⟨_, rfl, h.links.unlink h.nodup, h.nodup.sublist (by simp), ?_⟩
    rw [h.tail]
    cases l₂ with
    | nil => simp
    | cons a l₂ =>
      rw [List.getLast?_append_cons, List.getLast?_append_cons, List.getLast?_cons_cons,
        List.getLast?_cons_cons, List.getLast?_cons_cons, if_neg]
      intro hlast
      exact (List.nodup_cons.mp hnd.2.1).1 (List.mem_of_getLast? hlast)

/-! ## The scan -/

/-- The threads of the queue in round-robin order after the current thread; from the head on if that
is not queued. -/
def RoundRobin (s : State) (order : List Nat) : Prop :=
  ∃ l₁ l₂, s.queue = l₁ ++ l₂ ∧ order = l₂ ++ l₁ ∧
    ((∃ c, s.current = some c ∧ l₁.getLast? = some c) ∨
      (l₁ = [] ∧ ∀ c, s.current = some c → c ∉ s.queue))

theorem scanOrder_roundRobin (hnd : s.queue.Nodup) : RoundRobin s (scanOrder s) := by
  cases hc : s.current with
  | none =>
      exact ⟨[], s.queue, rfl, by simp [scanOrder, hc], .inr ⟨rfl, fun c h => by simp [hc] at h⟩⟩
  | some c =>
    by_cases hmem : c ∈ s.queue
    · obtain ⟨l₁, l₂, hl⟩ := List.append_of_mem hmem
      have hne : ∀ d ∈ l₁, d ≠ c := by
        rw [hl, List.nodup_append] at hnd
        exact fun d hd => hnd.2.2 d hd c List.mem_cons_self
      refine ⟨l₁ ++ [c], l₂, by simp [hl], ?_, .inl ⟨c, hc, List.getLast?_concat⟩⟩
      have hdrop : (s.queue.dropWhile (· ≠ c)).tail = l₂ := by
        rw [hl, List.dropWhile_append_of_pos fun d hd => by simpa using hne d hd,
          List.dropWhile_cons_of_neg (by simp), List.tail_cons]
      simp only [scanOrder, hc, hdrop]
      cases l₂ with
      | nil => simpa using hl
      | cons d l₂ =>
        dsimp only
        rw [show s.queue = (l₁ ++ [c]) ++ d :: l₂ by simp [hl], List.take_left' (by simp; omega)]
    · refine ⟨[], s.queue, rfl, ?_, .inr ⟨rfl, by simpa [hc] using hmem⟩⟩
      have hdrop : s.queue.dropWhile (· ≠ c) = [] :=
        List.dropWhile_eq_nil_iff.mpr fun d hd => by simpa using ne_of_mem_of_not_mem hd hmem
      simp only [scanOrder, hc, hdrop, List.tail_nil, List.append_nil]

/-- In round-robin order the cursor comes to each thread in turn, and from the last one back to the
first. -/
theorem next_rotated (h : q.Holds (l₁ ++ l₂)) (hstart : (l₂ ++ l₁).head? = some start)
    {before after : List Nat} (hsplit : l₂ ++ l₁ = before ++ c :: after) :
    (q.next c).or q.head = (after ++ [start]).head? := by
  have hhead := h.links.head_eq
  have hback : l₂.head?.or (l₁ ++ l₂).head? = some start := by
    rw [List.head?_append, ← Option.or_assoc, ← List.head?_append, hstart, Option.some_or]
  -- behind a thread of the first part come the rest of it and the second part
  have hfirst : ∀ m, l₁ = m ++ c :: after → (q.next c).or q.head = (after ++ [start]).head? := by
    intro m hm
    have hnext :=
      Links.next_eq (show Links q.next q.head (m ++ c :: (after ++ l₂)) by simpa [hm] using h.links)
    rw [hnext, hhead, List.head?_append, Option.or_assoc, hback, List.head?_append]
    rfl
  rcases List.append_eq_append_iff.mp hsplit with ⟨m, -, hm⟩ | ⟨m, hm, hafter⟩
  · exact hfirst m hm
  · cases m with
    | nil => exact hfirst [] hafter.symm
    | cons d m =>
      rw [List.cons_append, List.cons.injEq] at hafter
      obtain ⟨rfl, rfl⟩ := hafter
      have hnext := Links.next_eq
          (show Links q.next q.head (l₁ ++ before ++ c :: m) by simpa [hm] using h.links)
      have hl2 : l₂.head? = some start := by
        rw [hm] at hstart ⊢
        cases before <;> exact hstart
      rw [hnext, hhead, List.head?_append, hl2, ← List.head?_cons (a := start) (l := []), ←
        List.head?_append, ← List.head?_append, List.append_assoc]

/-- The loop is a scan of what is left of the round. -/
theorem selectLoop_eq (h : q.Holds (l₁ ++ l₂)) (hstart : (l₂ ++ l₁).head? = some start)
    {after before : List Nat} {c fuel : Nat} (s : State) (best : Option (Nat × UInt64))
    (hsplit : l₂ ++ l₁ = before ++ c :: after) (hfuel : after.length < fuel) :
    q.selectLoop nowNs start fuel c s best = some (scan nowNs (c :: after) s best) := by
  induction after generalizing before c fuel s best with
  | nil =>
    obtain ⟨fuel, rfl⟩ : ∃ n, fuel = n + 1 := ⟨fuel - 1, by omega⟩
    rw [Runqueue.selectLoop, next_rotated h hstart hsplit]
    exact if_pos rfl
  | cons d after ih =>
    obtain ⟨fuel, rfl⟩ : ∃ n, fuel = n + 1 := ⟨fuel - 1, by omega⟩
    rw [Runqueue.selectLoop, next_rotated h hstart hsplit]
    -- only the first thread of the round is where it started
    have hne : d ≠ start := by
      have hnd := List.nodup_append_comm.mp h.nodup
      rw [hsplit] at hnd hstart
      cases before <;> simp at hnd hstart <;> grind
    refine (if_neg hne).trans ?_
    exact ih _ _ (show _ = (before ++ [c]) ++ d :: after by simpa using hsplit)
      (by simpa using hfuel)

/-- **The code's scan is the list's**, if the current thread is queued or has no link. -/
theorem selectNextRunnableThread_eq (hq : q.Holds s.queue)
    (hcur : ∀ c, s.current = some c → c ∈ s.queue ∨ q.next c = none) (hfuel : s.queue.length ≤ fuel)
    (acc : Bool) :
    q.selectNextRunnableThread s fuel nowNs acc = some (selectNextRunnableThread s nowNs acc) := by
  obtain ⟨l₁, l₂, hl, horder, hcase⟩ := scanOrder_roundRobin hq.nodup
  unfold Runqueue.selectNextRunnableThread
  cases hhead : q.head with
  | none =>
    have hnil : s.queue = [] := by
      rw [hq.links.head_eq] at hhead
      exact List.head?_eq_none_iff.mp hhead
    have hscan : scanOrder s = [] := (hnil ▸ scanOrder_perm s).eq_nil
    simp [selectNextRunnableThread, hscan, scan]
  | some head =>
    have hstart : (l₂ ++ l₁).head? = some ((s.current.bind q.next).getD head) := by
      have hqueue : (l₁ ++ l₂).head? = some head := by rw [← hl, ← hq.links.head_eq, hhead]
      rcases hcase with ⟨c, hc, hlast⟩ | ⟨rfl, hout⟩
      · obtain ⟨m, rfl⟩ := List.getLast?_eq_some_iff.mp hlast
        have hnext :=
          Links.next_eq (show Links q.next q.head (m ++ c :: l₂) by simpa [hl] using hq.links)
        rw [hc, Option.bind_some, hnext]
        cases l₂ with
        | nil => simpa using hqueue
        | cons d l₂ => rfl
      · have hnone : s.current.bind q.next = none := by
          cases hc : s.current with
          | none => rfl
          | some c => exact (hcur c hc).resolve_left (hout c hc)
        rw [hnone, List.append_nil]
        exact hqueue
    obtain ⟨rest, hrest⟩ := List.head?_eq_some_iff.mp hstart
    have hlen : rest.length < fuel := by
      have := congrArg List.length hrest
      have := congrArg List.length hl
      simp at *
      omega
    dsimp only
    rw [selectLoop_eq (hl ▸ hq) hstart s none (show _ = [] ++ _ :: rest from hrest) hlen, ← hrest,
      ← horder]
    unfold selectNextRunnableThread
    generalize scan nowNs (scanOrder s) s none = r
    obtain ⟨s', best⟩ := r
    cases best <;> rfl

/-- **The run queue and the scan.** A call of `select_next_runnable_thread` updates the threads of
the queue, each once, in round-robin order after the current one, and returns the first of those
that are then runnable with the smallest pass, or none if none is runnable. Adding and removing
leave a list without duplicates and with the right tail. A current thread that has left the queue
has no link (`StScheduler_RemoveThread` clears it). -/
theorem runqueue_scan (q : Runqueue) (s : State) (hq : q.Holds s.queue)
    (hcur : ∀ c, s.current = some c → c ∈ s.queue ∨ q.next c = none) :
    (∀ (nowNs : UInt64) (acc : Bool) (fuel : Nat), s.queue.length ≤ fuel →
      ∃ order s', RoundRobin s order ∧ s' = updateAll nowNs order s ∧
        ((∃ t, q.selectNextRunnableThread s fuel nowNs acc =
            some (if acc then s'.charge t else s', some t) ∧ FirstLeast s' order t) ∨
          (q.selectNextRunnableThread s fuel nowNs acc = some (s', none) ∧ ∀ c ∈ s.queue,
            s'.running c = false))) ∧
    ∀ th fuel, s.queue.length ≤ fuel →
      (∃ q', q.addThread th = some q' ∧ q'.Holds (s.queue.takeWhile (· ≠ th) ++ [th])) ∧
      ∃ q', q.removeThread th fuel = some q' ∧ q'.Holds (s.queue.erase th) := by
  refine ⟨fun nowNs acc fuel hfuel => ?_, fun th fuel hfuel =>
    ⟨hq.addThread th, hq.removeThread th hfuel⟩⟩
  refine ⟨scanOrder s, _, scanOrder_roundRobin hq.nodup, rfl, ?_⟩
  have hnd : (scanOrder s).Nodup := (scanOrder_perm s).nodup_iff.mpr hq.nodup
  rw [selectNextRunnableThread_eq hq hcur hfuel, selectNextRunnableThread, scan_eq _ _ _ _ hnd]
  rcases foldl_better_cases (updateAll nowNs (scanOrder s) s) (scanOrder s) with
    ⟨heq, hnone⟩ | ⟨t, heq, hleast⟩ <;> rw [heq]
  · exact .inr ⟨rfl, fun c hc => hnone c (mem_scanOrder.mpr hc)⟩
  · exact .inl ⟨t, rfl, hleast⟩

/-- Threads 0 and 1 in the queue, and thread 0 running. -/
theorem runqueue_scan_pair :
    ∃ q', Runqueue.removeThread ⟨some 0, some 1, fun t => if t = 0 then some 1 else none⟩ 0 2 =
      some q' ∧
      q'.Holds [1] := by
  refine ((runqueue_scan _ { initialState with queue := [0, 1], current := some 0 } ?_ ?_).2 0 2
    (by decide)).2
  · exact ⟨⟨rfl, rfl, rfl⟩, by decide, rfl⟩
  · rintro c ⟨⟩
    exact .inl (by decide)

end FoliOS.Strata.Sched
