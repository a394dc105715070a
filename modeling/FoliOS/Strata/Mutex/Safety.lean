import FoliOS.Lib.Runs
import FoliOS.Strata.Mutex.Model

/-!
# Strata — safety of the mutex

What holds after any interleaving of calls and wake-ups: the holder is the owner and
there is one at most, the waiters form a duplicate-free list of threads inside a lock
call, and when waiters are left behind by an unlock some thread inside a lock call
runs and will try again (`Inv`). `reachable_mutexSafe` states this for every
reachable state and adds that no section hangs.
-/

namespace FoliOS.Strata.Mutex

open Function Lib

variable {n : Nat} {s s' : State n} {l : List (Fin n)} {th t : Fin n}

/-! ## The waiter list -/

/-- Only the list fields differ. -/
def SameButList (s s' : State n) : Prop :=
  s' = { s with blockingThreads := s'.blockingThreads, next := s'.next }

/-- The waiter list, from the head of the list and the links of the threads. -/
structure Listed (next : Fin n → Option (Fin n)) (head : Option (Fin n)) (l : List (Fin n)) :
  Prop where
  links : Links next head l
  nodup : l.Nodup

theorem Listed.length_le (hl : Listed s.next s.blockingThreads l) : l.length ≤ n := by
  simpa using hl.nodup.length_le_card

/-- The walk of `add_blocking_thread` ends at the thread or at the last waiter. -/
theorem findLast_spec (th : Fin n) {next : Fin n → Option (Fin n)} (l : List (Fin n)) (cur : Fin n)
    (fuel : Nat) (hl : Links next (some cur) (cur :: l)) (hfuel : l.length < fuel) :
    (th ∈ cur :: l ∧ findLast next th fuel cur = some .listed) ∨
      (th ∉ cur :: l ∧ ∃ l0 a, cur :: l = l0 ++ [a] ∧
        findLast next th fuel cur = some (.last a)) := by
  induction l generalizing cur fuel with
  | nil =>
    obtain ⟨fuel, rfl⟩ : ∃ k, fuel = k + 1 := ⟨fuel - 1, by omega⟩
    have hend : next cur = none := hl.2
    by_cases hcur : cur = th
    · exact .inl ⟨by simp [hcur], by rw [findLast, if_pos hcur]⟩
    · exact .inr ⟨by simpa using fun h => hcur h.symm, [], cur,
        rfl, by rw [findLast, if_neg hcur, hend]⟩
  | cons b l ih =>
    obtain ⟨fuel, rfl⟩ : ∃ k, fuel = k + 1 := ⟨fuel - 1, by omega⟩
    have hnext : next cur = some b := hl.2.1
    by_cases hcur : cur = th
    · exact .inl ⟨by simp [hcur], by rw [findLast, if_pos hcur]⟩
    · have hstep : findLast next th (fuel + 1) cur = findLast next th fuel b := by
        rw [findLast, if_neg hcur, hnext]
      rw [hstep]
      have hb : Links next (some b) (b :: l) := ⟨rfl, hl.2.2⟩
      rcases ih b fuel hb (by simpa using hfuel) with ⟨hmem, heq⟩ | ⟨hmem, l0, a, hsplit, heq⟩
      · exact .inl ⟨List.mem_cons_of_mem _ hmem, heq⟩
      · refine .inr ⟨?_, cur :: l0, a, by rw [hsplit]; rfl, heq⟩
        rw [List.mem_cons]
        rintro (h | h)
        · exact hcur h.symm
        · exact hmem h

/-- **`add_blocking_thread`** puts a thread on the list unless it is there. -/
theorem addBlockingThread_spec (hl : Listed s.next s.blockingThreads l) (th : Fin n) :
    ∃ s' l', addBlockingThread s th = some s' ∧ SameButList s s' ∧
    Listed s'.next s'.blockingThreads l' ∧
      ∀ t, t ∈ l' ↔ t ∈ l ∨ t = th := by
  have hkeep : th ∈ l → ∀ t, t ∈ l ↔ t ∈ l ∨ t = th :=
    fun hmem t => ⟨.inl, fun h => h.elim id fun heq => heq ▸ hmem⟩
  unfold addBlockingThread
  cases l with
  | nil =>
    have hhead : s.blockingThreads = none := hl.links
    rw [hhead, if_neg (by simp)]
    exact ⟨_, [th], rfl, rfl, ⟨⟨rfl, by simp [Links]⟩, List.nodup_singleton th⟩, by simp⟩
  | cons head l =>
    have hhead : s.blockingThreads = some head := hl.links.1
    by_cases hth : head = th
    · rw [if_pos (by rw [hhead, hth])]
      exact ⟨s, _, rfl, rfl, hl, hkeep (by simp [hth])⟩
    · rw [if_neg (by rw [hhead]; simpa using hth), hhead]
      have hlen : l.length < n := hl.length_le
      rcases findLast_spec th l head n ⟨rfl, hl.links.2⟩ hlen with
        ⟨hmem, heq⟩ | ⟨hmem, l0, a, hsplit, heq⟩
      · simp only [heq, Option.map_some]
        exact ⟨s, _, rfl, rfl, hl, hkeep hmem⟩
      · simp only [heq, Option.map_some]
        have hlinks := hl.links
        have hnodup := hl.nodup
        rw [hsplit] at hlinks hnodup hmem ⊢
        refine ⟨_, l0 ++ [a] ++ [th], rfl, rfl, ⟨hhead ▸ hlinks.pushBack hnodup hmem, ?_⟩,
          fun t => ?_⟩
        · exact hnodup.append (List.nodup_singleton th) (by simpa using hmem)
        · simp [or_assoc]

/-- The walk of `remove_blocking_thread`, with `l1` behind it. -/
theorem removeFrom_spec (th : Fin n) (r l1 : List (Fin n)) (fuel : Nat)
    (hl : Listed s.next s.blockingThreads (l1 ++ r)) (hth : th ∉ l1) (hfuel : r.length ≤ fuel) :
    ∃ s' l', removeFrom s th fuel l1.getLast? r.head? = some s' ∧ SameButList s s' ∧
    Listed s'.next s'.blockingThreads l' ∧
      ∀ t, t ∈ l' ↔ t ∈ l1 ++ r ∧ t ≠ th := by
  induction r generalizing l1 fuel with
  | nil =>
    refine ⟨s, l1 ++ [], by simp [removeFrom], rfl, hl, fun t => ⟨fun h => ⟨h, ?_⟩, fun h => h.1⟩⟩
    rintro rfl
    exact hth (by simpa using h)
  | cons cur r ih =>
    obtain ⟨fuel, rfl⟩ : ∃ k, fuel = k + 1 := ⟨fuel - 1, by simp at hfuel; omega⟩
    rw [List.head?_cons, removeFrom]
    by_cases hcur : cur = th
    · subst hcur
      rw [if_pos rfl]
      have hmem : ∀ t, t ∈ l1 ++ r ↔ t ∈ l1 ++ cur :: r ∧ t ≠ cur := by
        intro t
        have hr : cur ∉ r := (List.nodup_cons.mp (List.nodup_append.mp hl.nodup).2.1).1
        have hne : t ∈ l1 ++ r → t ≠ cur := by
          rintro h rfl
          rcases List.mem_append.mp h with h | h
          · exact hth h
          · exact hr h
        simp only [List.mem_append, List.mem_cons] at hne ⊢
        tauto
      have hsub : (l1 ++ r).Nodup :=
        hl.nodup.sublist (List.Sublist.append_left (List.sublist_cons_self cur r) l1)
      rcases List.eq_nil_or_concat l1 with rfl | ⟨l0, p, rfl⟩
      · refine ⟨_, _, rfl, rfl, ⟨?_, hsub⟩, hmem⟩
        refine hl.links.2.congr fun c hc => ?_
        have hne : c ≠ cur := ((hmem c).mp hc).2
        exact update_of_ne hne _ _
      · simp only [List.concat_eq_append, List.getLast?_concat] at *
        refine ⟨_, _, rfl, rfl, ⟨?_, hsub⟩, hmem⟩
        have hl' : Links s.next s.blockingThreads (l0 ++ p :: cur :: r) := by simpa using hl.links
        have hnd' : (l0 ++ p :: cur :: r).Nodup := by simpa using hl.nodup
        simpa [State.cut] using hl'.unlink hnd'
    · rw [if_neg hcur, hl.links.next_eq]
      have hassoc : l1 ++ [cur] ++ r = l1 ++ cur :: r := by simp
      obtain ⟨s', l', heq, hsame, hlist, hmem⟩ := ih (l1 ++ [cur]) fuel (hassoc ▸ hl)
        (by simpa [hth] using fun h => hcur h.symm) (by simpa using hfuel)
      rw [List.getLast?_concat] at heq
      exact ⟨s', l', heq, hsame, hlist, by rwa [hassoc] at hmem⟩

/-- **`remove_blocking_thread`** takes a thread off the list. -/
theorem removeBlockingThread_spec (hl : Listed s.next s.blockingThreads l) (th : Fin n) :
    ∃ s' l', removeBlockingThread s th = some s' ∧ SameButList s s' ∧
    Listed s'.next s'.blockingThreads l' ∧
      ∀ t, t ∈ l' ↔ t ∈ l ∧ t ≠ th := by
  have := removeFrom_spec (s := s) th l [] n hl (by simp) hl.length_le
  rwa [← hl.links.head_eq] at this

/-! ## The invariant -/

/-- The calls that put a thread on the list. -/
def Call.Waits : Call → Prop
  | .lock => True
  | .timed _ => True
  | _ => False

structure Inv (s : State n) (l : List (Fin n)) : Prop where
  listed : Listed s.next s.blockingThreads l
  inside : ∀ t ∈ l, (s.call t).Waits
  states : ∀ t ∈ l, s.state t = .blocking ∨ s.state t = .sleeping ∨ s.state t = .running
  holder : ∀ t, s.holds t = true → s.owner = some t ∧ s.locked = true
  live   : s.locked = false → l ≠ [] → ∃ t, (s.call t).Waits ∧ s.state t = .running

theorem Inv.not_mem (hI : Inv s l) (h : ¬(s.call t).Waits) : t ∉ l :=
  fun hmem => h (hI.inside t hmem)

theorem not_waits_none (h : s.call t = .none) : ¬(s.call t).Waits := by simp [h, Call.Waits]

theorem ne_of_waits {u : Fin n} (hu : (s.call u).Waits) (ht : ¬(s.call t).Waits) : u ≠ t :=
  fun heq => ht (heq ▸ hu)

section

variable (hI : Inv s l)
include hI

/-- A thread outside every call enters one. -/
theorem Inv.enter (hcall : s.call t = .none) (c : Call) :
    Inv { s with call := update s.call t c } l := by
  have hnot := not_waits_none hcall
  have hsame : ∀ u, (s.call u).Waits → update s.call t c u = s.call u :=
    fun u hu => update_of_ne (ne_of_waits hu hnot) _ _
  refine ⟨hI.listed, fun u hu => ?_, hI.states, hI.holder, fun hlock hne => ?_⟩
  · show (update s.call t c u).Waits
    rw [hsame u (hI.inside u hu)]
    exact hI.inside u hu
  · obtain ⟨u, hu, hrun⟩ := hI.live hlock hne
    refine ⟨u, ?_, hrun⟩
    show (update s.call t c u).Waits
    rwa [hsame u hu]

/-- The state fields of a thread that is off the list and in no lock call do not matter. -/
theorem Inv.setThread (hnot : ¬(s.call t).Waits) (v : ThreadState) (w : UInt64) :
    Inv (s.setThread t v w) l := by
  have hsame : ∀ u, (s.call u).Waits → update s.state t v u = s.state u :=
    fun u hu => update_of_ne (ne_of_waits hu hnot) _ _
  refine ⟨hI.listed, hI.inside, fun u hu => ?_, hI.holder, fun hlock hne => ?_⟩
  · have hu' : (s.setThread t v w).state u = s.state u := hsame u (hI.inside u hu)
    rw [hu']
    exact hI.states u hu
  · obtain ⟨u, hu, hrun⟩ := hI.live hlock hne
    exact ⟨u, hu, (hsame u hu).trans hrun⟩

/-- A thread that is off the list takes the unlocked mutex. -/
theorem Inv.acquire (hth : th ∉ l) (hlock : s.locked = false) : Inv (s.acquire th) l := by
  refine ⟨hI.listed, fun u hu => ?_, hI.states, fun u hu => ?_,
    fun h => absurd h (by simp [State.acquire])⟩
  · have hne : u ≠ th := fun heq => hth (heq ▸ hu)
    show (update s.call th .none u).Waits
    rw [update_of_ne hne]
    exact hI.inside u hu
  · by_cases heq : u = th
    · exact ⟨by simp [State.acquire, heq], rfl⟩
    · have hold : s.holds u = true := by simpa [State.acquire, heq] using hu
      rw [(hI.holder u hold).2] at hlock
      simp at hlock

/-- A thread that is off the list leaves its call while the mutex is locked. -/
theorem Inv.leave (hth : th ∉ l) (hlock : s.locked = true) : Inv (s.leave th) l := by
  refine ⟨hI.listed, fun u hu => ?_, hI.states, hI.holder, fun h => ?_⟩
  · have hne : u ≠ th := fun heq => hth (heq ▸ hu)
    show (update s.call th .none u).Waits
    rw [update_of_ne hne]
    exact hI.inside u hu
  · rw [show (s.leave th).locked = s.locked from rfl, hlock] at h
    simp at h

/-- A change of the list to threads that belong on it. -/
theorem Inv.relist {l' : List (Fin n)} (hsame : SameButList s s')
    (hl : Listed s'.next s'.blockingThreads l')
    (hmem : ∀ t ∈ l', t ∈ l ∨
      ((s.call t).Waits ∧ (s.state t = .blocking ∨ s.state t = .sleeping ∨ s.state t = .running)))
    (hlive : s.locked = false → l' ≠ [] → l ≠ []) : Inv s' l' := by
  -- what is not of the list is read from `s`
  rw [hsame]
  refine ⟨hl, fun t ht => ?_, fun t ht => ?_, hI.holder, fun hlock hne => ?_⟩
  · exact (hmem t ht).elim (hI.inside t) And.left
  · exact (hmem t ht).elim (hI.states t) And.right
  · exact hI.live hlock (hlive hlock hne)

/-! ## The sections -/

/-- `remove_blocking_thread`, as far as the invariant goes. -/
theorem Inv.remove (th : Fin n) :
    ∃ s' l', removeBlockingThread s th = some s' ∧ SameButList s s' ∧ Inv s' l' ∧ th ∉ l' := by
  obtain ⟨s', l', heq, hsame, hl, hmem⟩ := removeBlockingThread_spec hI.listed th
  refine ⟨s', l', heq, hsame, hI.relist hsame hl (fun t ht => .inl ((hmem t).mp ht).1) ?_,
    fun h => ((hmem th).mp h).2 rfl⟩
  rintro - hne rfl
  obtain ⟨t, ht⟩ := List.exists_mem_of_ne_nil l' hne
  exact absurd ((hmem t).mp ht).1 List.not_mem_nil

/-- `add_blocking_thread` on a thread in a lock call, while the mutex is locked. -/
theorem Inv.add (th : Fin n) (hlock : s.locked = true) (hcall : (s.call th).Waits)
    (hstate : s.state th = .blocking ∨ s.state th = .sleeping) :
    ∃ s' l', addBlockingThread s th = some s' ∧ Inv s' l' := by
  obtain ⟨s', l', heq, hsame, hl, hmem⟩ := addBlockingThread_spec hI.listed th
  refine ⟨s', l', heq, hI.relist hsame hl (fun t ht => ?_) fun h => absurd h (by simp [hlock])⟩
  rcases (hmem t).mp ht with h | rfl
  · exact .inl h
  · exact .inr ⟨hcall, hstate.elim .inl fun h => .inr (.inl h)⟩

/-- A waiting thread's state is written while the mutex is locked. -/
theorem Inv.suspend {v : ThreadState} {w : UInt64} (th : Fin n) (hlock : s.locked = true)
    (hv : v = .blocking ∨ v = .sleeping ∨ v = .running) : Inv (s.setThread th v w) l := by
  refine ⟨hI.listed, hI.inside, fun u hu => ?_, hI.holder, fun h => ?_⟩
  · by_cases heq : u = th
    · subst heq
      simpa [State.setThread] using hv
    · simpa [State.setThread, heq] using hI.states u hu
  · rw [show (s.setThread th v w).locked = s.locked from rfl, hlock] at h
    simp at h

theorem Inv.clearNext (hth : th ∉ l) : Inv { s with next := update s.next th none } l :=
  ⟨⟨hI.listed.links.congr fun c hc => update_of_ne (fun heq : c = th => hth (heq ▸ hc)) _ _,
    hI.listed.nodup⟩,
    hI.inside, hI.states, hI.holder, hI.live⟩

theorem Inv.clearSleep (th : Fin n) : Inv { s with sleepUntil := update s.sleepUntil th 0 } l :=
  ⟨⟨hI.listed.links, hI.listed.nodup⟩, hI.inside, hI.states, hI.holder, hI.live⟩

theorem lockRound_inv (hcall : s.call th = .lock) :
    ∃ s' l', lockRound s th = some s' ∧ Inv s' l' ∧ (s.locked = false → s'.holds th = true) := by
  unfold lockRound
  by_cases hlock : s.locked = true
  · rw [if_neg (by simp [hlock])]
    have hI' : Inv (s.setThread th .blocking (s.sleepUntil th)) l := hI.suspend th hlock (.inl rfl)
    have heq : s.setThread th .blocking (s.sleepUntil th) =
        { s with state := update s.state th .blocking } := by
      simp [State.setThread]
    rw [heq] at hI'
    obtain ⟨s', l', hadd, hI''⟩ := hI'.add th hlock (by simp [hcall, Call.Waits]) (by simp)
    exact ⟨s', l', hadd, hI'', fun h => absurd h (by simp [hlock])⟩
  · have hlock : s.locked = false := by simpa using hlock
    rw [if_pos (by simp [hlock])]
    obtain ⟨s', l', hrem, hsame, hI', hth⟩ := hI.remove th
    have hlock' : s'.locked = false := (congrArg State.locked hsame :).trans hlock
    exact ⟨s'.acquire th, l', by rw [hrem, Option.map_some], hI'.acquire hth hlock',
      fun _ => by simp [State.acquire]⟩

theorem timedRound_inv {deadline : UInt64} (hcall : s.call th = .timed deadline) (now : UInt64) :
    ∃ s' l', timedRound s th deadline now = some s' ∧ Inv s' l' ∧
      (s.locked = false → s'.holds th = true) := by
  unfold timedRound
  obtain ⟨s1, l1, hrem, hsame, hI1, hth⟩ := hI.remove th
  have hlocked : s1.locked = s.locked := (congrArg State.locked hsame :)
  by_cases hlock : s.locked = true
  · rw [if_neg (by simp [hlock])]
    by_cases hexp : now ≥ deadline
    · -- timed out
      rw [if_pos hexp, hrem, Option.map_some]
      have hI2 := (hI1.clearNext hth).suspend (v := .running) (w := 0) th (hlocked.trans hlock)
        (.inr (.inr rfl))
      exact ⟨_, l1, rfl, hI2.leave hth (hlocked.trans hlock), fun h => absurd h (by simp [hlock])⟩
    · rw [if_neg hexp]
      have hI2 := hI.suspend (v := .sleeping) (w := deadline) th hlock (.inr (.inl rfl))
      obtain ⟨s', l', hadd, hI'⟩ := hI2.add th hlock
        (by simp [State.setThread, hcall, Call.Waits]) (by simp [State.setThread])
      exact ⟨s', l', hadd, hI', fun h => absurd h (by simp [hlock])⟩
  · have hlock : s.locked = false := by simpa using hlock
    rw [if_pos (by simp [hlock]), hrem, Option.map_some]
    have hI2 := (hI1.clearNext hth).clearSleep th
    exact ⟨_, l1, rfl, hI2.acquire hth (hlocked.trans hlock), fun _ => by simp [State.acquire]⟩

theorem tryLockRound_inv (hcall : s.call th = .tryLock) : Inv (tryLockRound s th) l := by
  have hth : th ∉ l := hI.not_mem (by simp [hcall, Call.Waits])
  unfold tryLockRound
  by_cases hlock : s.locked = true
  · rw [if_pos hlock]
    exact hI.leave hth hlock
  · rw [if_neg hlock]
    exact hI.acquire hth (by simpa using hlock)

/-- **An unlock hands the retry to the first waiter.** -/
theorem unlockSection_inv (hholds : s.holds th = true) : ∃ l', Inv (unlockSection s th) l' := by
  have hfree : ∀ u, update s.holds th false u ≠ true := by
    intro u hu
    by_cases heq : u = th
    · simp [heq] at hu
    · have howner := (hI.holder u (by simpa [heq] using hu)).1
      rw [(hI.holder th hholds).1] at howner
      exact heq (Option.some.inj howner).symm
  unfold unlockSection unblockBlockingThread
  cases l with
  | nil =>
    have hhead : s.blockingThreads = none := hI.listed.links
    simp only [hhead]
    exact ⟨[], ⟨rfl, List.nodup_nil⟩, fun t ht => absurd ht List.not_mem_nil,
      fun t ht => absurd ht List.not_mem_nil, fun u hu => absurd hu (hfree u),
      fun _ h => absurd rfl h⟩
  | cons h r =>
    have hhead : s.blockingThreads = some h := hI.listed.links.1
    obtain ⟨hr, hnodup⟩ := List.nodup_cons.mp hI.listed.nodup
    have hne : ∀ u ∈ r, u ≠ h := fun u hu heq => hr (heq ▸ hu)
    simp only [hhead]
    refine ⟨r, ⟨hI.listed.links.2.congr fun c hc => update_of_ne (hne c hc) _ _, hnodup⟩,
      fun u hu => hI.inside u (List.mem_cons_of_mem _ hu), fun u hu => ?_,
      fun u hu => absurd hu (hfree u),
      fun _ _ => ⟨h, hI.inside h List.mem_cons_self, ?_⟩⟩
    · have := hI.states u (List.mem_cons_of_mem _ hu)
      dsimp only
      split
      · rwa [update_of_ne (hne u hu)]
      · exact this
    · -- the first waiter runs now, if it did not before
      have := hI.states h List.mem_cons_self
      split
      · exact update_self h .running s.state
      · rename_i hstate
        rcases this with h1 | h1 | h1
        · exact absurd (.inl h1) hstate
        · exact absurd (.inr h1) hstate
        · exact h1

/-- The scheduler only ever makes a thread run. -/
theorem updateRunnableState_inv (now : UInt64) (ready : Bool) :
    Inv (updateRunnableState s t now ready) l := by
  have hrun : ∀ w, s.state t ≠ .running → Inv (s.setThread t .running w) l := by
    intro w hnot
    refine ⟨hI.listed, hI.inside, fun u hu => ?_, hI.holder, fun hlock hne => ?_⟩
    · by_cases heq : u = t
      · subst heq
        simp [State.setThread]
      · simpa [State.setThread, heq] using hI.states u hu
    · obtain ⟨u, hu, hstate⟩ := hI.live hlock hne
      have heq : u ≠ t := fun heq => hnot (heq ▸ hstate)
      exact ⟨u, hu, by simpa [State.setThread, heq] using hstate⟩
  unfold updateRunnableState
  cases hst : s.state t with
  | pending =>
    have := hrun (s.sleepUntil t) (by simp [hst])
    simpa [State.setThread] using this
  | sleeping | waiting =>
    dsimp only
    split
    · exact hrun 0 (by simp [hst])
    · exact hI
  | _ => exact hI

/-! ## Runs -/

/-- The next section of a call ends, and takes the mutex if it is unlocked. -/
theorem round_inv (hcall : s.call t ≠ .none) (now : UInt64) :
    ∃ s' l', step s (.round t now) = some s' ∧ Inv s' l' ∧
    (s.locked = false → s'.holds t = true) := by
  simp only [step]
  cases hc : s.call t with
  | none => exact absurd hc hcall
  | lock => exact lockRound_inv hI hc
  | timed d => exact timedRound_inv hI hc now
  | tryLock =>
    refine ⟨_, l, rfl, tryLockRound_inv hI hc, fun h => ?_⟩
    simp [tryLockRound, h, State.acquire]

theorem step_inv {e : Event n} (h : step s e = some s') : ∃ l', Inv s' l' := by
  cases e with
  | enterLock t | enterTimed t timeout now | enterTryLock t =>
    obtain ⟨hc, ⟨⟩⟩ := Option.ite_none_right_eq_some.mp h
    exact ⟨l, hI.enter hc _⟩
  | round t now =>
    have hc : s.call t ≠ .none := by
      intro hc
      simp [step, hc] at h
    obtain ⟨s1, l1, hstep, hI1, -⟩ := round_inv hI hc now
    rw [hstep] at h
    exact ⟨l1, Option.some.inj h ▸ hI1⟩
  | unlock t =>
    obtain ⟨hc, ⟨⟩⟩ := Option.ite_none_right_eq_some.mp h
    exact unlockSection_inv hI hc.2
  | wake t now ready => exact ⟨l, Option.some.inj h ▸ updateRunnableState_inv hI now ready⟩
  | elsewhere t v w =>
    obtain ⟨hc, ⟨⟩⟩ := Option.ite_none_right_eq_some.mp h
    exact ⟨l, hI.setThread (not_waits_none hc) v w⟩

end

theorem Initial.inv (h : Initial s) : Inv s [] :=
  ⟨⟨h.empty, List.nodup_nil⟩, fun t ht => absurd ht List.not_mem_nil,
    fun t ht => absurd ht List.not_mem_nil, fun t ht => by simp [h.holds t] at ht,
    fun _ hne => absurd rfl hne⟩

theorem reachable_inv (h : Reachable s) : ∃ l, Inv s l := by
  induction h with
  | init hs => exact ⟨[], hs.inv⟩
  | step e _ hstep ih =>
    obtain ⟨l, hI⟩ := ih
    exact step_inv hI hstep

/-- What the mutex promises. -/
structure MutexSafe (s : State n) : Prop where
  exclusive : ∀ t u, s.holds t = true → s.holds u = true → t = u
  owner     : ∀ t, s.holds t = true → s.owner = some t ∧ s.locked = true
  waiters   : ∃ l, Links s.next s.blockingThreads l ∧ l.Nodup ∧ (∀ t ∈ l, (s.call t).Waits) ∧
                ∀ t, s.call t = .none → t ∉ l
  awake     : s.locked = false → s.blockingThreads ≠ none →
                ∃ t, (s.call t).Waits ∧ s.state t = .running ∧
                  ∀ now, ∃ s', step s (.round t now) = some s' ∧ s'.holds t = true
  rounds    : ∀ t now, s.call t ≠ .none → ∃ s', step s (.round t now) = some s'

/-- **The mutex is safe in every interleaving**, for any number of threads. -/
theorem reachable_mutexSafe (n : Nat) (s : State n) (h : Reachable s) : MutexSafe s := by
  obtain ⟨l, hI⟩ := reachable_inv h
  refine ⟨fun t u ht hu => ?_, hI.holder, ⟨l, hI.listed.links, hI.listed.nodup, hI.inside,
    fun t ht => hI.not_mem (not_waits_none ht)⟩, fun hlock hne => ?_, fun t now hc => ?_⟩
  · have howner := (hI.holder t ht).1
    rw [(hI.holder u hu).1] at howner
    exact (Option.some.inj howner).symm
  · have hl : l ≠ [] := by
      rintro rfl
      exact hne hI.listed.links
    obtain ⟨t, hwaits, hrun⟩ := hI.live hlock hl
    refine ⟨t, hwaits, hrun, fun now => ?_⟩
    obtain ⟨s', -, hstep, -, hholds⟩ :=
      round_inv hI (t := t) (fun hc => not_waits_none hc hwaits) now
    exact ⟨s', hstep, hholds hlock⟩
  · obtain ⟨s', -, hstep, -⟩ := round_inv hI hc now
    exact ⟨s', hstep⟩

/-- Three threads that run, and a new mutex. -/
def threeThreads : State 3 :=
  ⟨false, none, none, fun _ => none, fun _ => .running, fun _ => 0, fun _ => .none, fun _ => false⟩

/-- Thread 0 unlocks while 1 and 2 wait: 2 is still listed, and 1 will try again. -/
theorem reachable_mutexSafe_handover :
    ∃ s : State 3, [.enterLock 0, .round 0 0, .enterLock 1, .enterTimed 2 5 0, .round 1 0,
      .round 2 1,
        .unlock 0].foldlM step threeThreads = some s ∧
      s.locked = false ∧ s.blockingThreads = some 2 ∧ MutexSafe s := by
  have hrun : ([.enterLock 0, .round 0 0, .enterLock 1, .enterTimed 2 5 0, .round 1 0, .round 2 1,
      .unlock 0].foldlM step threeThreads).map (fun s => (s.locked, s.blockingThreads)) =
        some (false, some 2) := by decide +kernel
  obtain ⟨s, hs, heq⟩ := Option.map_eq_some_iff.mp hrun
  have hreach := foldlM_invariant (fun _ e _ => Reachable.step e) _
    (.init ⟨rfl, rfl, rfl, fun _ => rfl, fun _ => rfl⟩) hs
  exact ⟨s, hs, congrArg Prod.fst heq, congrArg Prod.snd heq, reachable_mutexSafe 3 s hreach⟩

end FoliOS.Strata.Mutex
