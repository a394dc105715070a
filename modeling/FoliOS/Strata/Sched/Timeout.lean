import FoliOS.Strata.Mutex.Model
import FoliOS.Strata.Sched.Fairness
import Mathlib.Algebra.Group.Nat.Defs

/-!
# Strata — timeouts (`thread/thread.c`, `mutex/mutex.c`)

`StThread_Sleep`, `StThread_Wait` and `StMutex_LockWithTimeout` turn a timeout into a deadline of 64
bits, each in its own way: the first and the last let the sum wrap around, the second one stops at
`UINT64_MAX`. `timeouts_iff` says for which timeouts none of them ends too early.

A call is a loop. Between its rounds the scheduler updates the caller (`update_runnable_state`), and
the other threads do what they like, but for the caller's own record (`Others`). The caller is the
current thread.
-/

namespace FoliOS.Strata.Sched

open Lib

/-! ## The code -/

/-- What the other threads do: a thread that has finished stays so. -/
structure Others (me : Nat) (s s' : State) : Prop where
  mine     : ∃ p n, s'.thread me = { s.thread me with pass := p, runCount := n }
  finished : ∀ t, (s.thread t).state = .finished → (s'.thread t).state = .finished

/-- `StThread_Sleep` before its loop. -/
def stThreadSleep (s : State) (me : Nat) (nowNs timeoutMs : UInt64) : State :=
  s.setThread me { s.thread me with state := .sleeping, sleepUntil := nowNs + timeoutMs * 1000000 }

/-- A round of `StThread_Sleep`. -/
def sleepRound (me : Nat) (deadlineNs : UInt64) (s : State) (nowNs : UInt64) : State ⊕ State :=
  if (s.thread me).state ≠ .sleeping then .inr s
  else if nowNs ≥ deadlineNs then .inr
    (s.setThread me { s.thread me with state := .running, sleepUntil := 0 })
  else .inl s

/-- Meanwhile, for a sleeping caller. -/
def SleepOther (me : Nat) (nowNs : UInt64) (s s' : State) : Prop :=
  s' = updateRunnableState s me nowNs ∨ Others me s s'

/-- The `STATUS_*` codes of a wait. -/
inductive WaitStatus where
  | success
  | pending
  | timerExpired
  | invalidValue
  | conflictingState
  deriving DecidableEq, Repr

/-- The threads, and `wait_status` of the caller. -/
structure Waiter where
  sched  : State
  status : WaitStatus

/-- `update_runnable_state`, with the status that `finish_waiting_thread` reports. -/
def Waiter.update (s : Waiter) (me : Nat) (nowNs : UInt64) : Waiter where
  sched := updateRunnableState s.sched me nowNs
  status :=
    if (s.sched.thread me).state ≠ .waiting then s.status
    else if waitingThreadIsReady s.sched me then .success
    else if (s.sched.thread me).waitTimeoutMs ≠ threadWaitInfinite ∧
      nowNs ≥ (s.sched.thread me).sleepUntil then
      .timerExpired
    else s.status

/-- Meanwhile, for a waiting caller. -/
def WaitOther (me : Nat) (nowNs : UInt64) (s s' : Waiter) : Prop :=
  s' = s.update me nowNs ∨ Others me s.sched s'.sched ∧ s'.status = s.status

/-- `wait_list_is_ready` -/
def waitListIsReady (s : State) (list : List (Option Nat)) : Bool :=
  list.all (Option.all fun t => decide ((s.thread t).state = .finished))

/-- `get_timeout_deadline_ns` -/
def getTimeoutDeadlineNs (nowNs timeoutMs : UInt64) : UInt64 :=
  if timeoutMs = threadWaitInfinite then threadWaitInfinite
  else if timeoutMs > (0xFFFFFFFFFFFFFFFF - nowNs) / 1000000 then 0xFFFFFFFFFFFFFFFF
  else nowNs + timeoutMs * 1000000

/-- The arguments of `StThread_Wait`: an array and its length. -/
structure WaitArgs where
  list      : Option (Nat → Option Nat)
  count     : Int32
  timeoutMs : UInt64

/-- The entries of the array. -/
def WaitArgs.entries (args : WaitArgs) : List (Option Nat) :=
  (List.range args.count.toInt.toNat).map (args.list.getD fun _ => none)

/-- `StThread_Wait` before its loop: the loop starts, or a status is returned. -/
def stThreadWait (s : Waiter) (me : Nat) (detached : Nat → Bool) (args : WaitArgs)
    (nowNs : UInt64) :
    Waiter ⊕ WaitStatus :=
  if args.count < 0 ∨ args.list.isNone ∧ args.count > 0 then .inr .invalidValue
  else if args.count = 0 then .inr .success
  else if args.entries.any (Option.any detached) then .inr .conflictingState
  else if waitListIsReady s.sched args.entries then .inr .success
  else if args.timeoutMs = 0 then .inr .timerExpired
  else
    .inl { sched := s.sched.setThread me { s.sched.thread me with
             state := .waiting, sleepUntil := getTimeoutDeadlineNs nowNs args.timeoutMs
             waitList := some args.entries, waitTimeoutMs := args.timeoutMs }
           status := .pending }

/-- A round of `StThread_Wait`. It returns the status and what it has seen of the threads; the
fields of the caller that it clears then are left out. -/
def waitRound (me : Nat) (timeoutMs deadlineNs : UInt64) (s : Waiter) (nowNs : UInt64) :
    Waiter ⊕ WaitStatus × State :=
  if (s.sched.thread me).state ≠ .waiting then
    if s.status ≠ .pending then .inr (s.status, s.sched)
    else if waitingThreadIsReady s.sched me then .inr (.success, s.sched)
    else .inl { s with sched := s.sched.setThread me { s.sched.thread me with state := .waiting } }
  else if waitingThreadIsReady s.sched me then .inr (.success, s.sched)
  else if timeoutMs ≠ threadWaitInfinite ∧ nowNs ≥ deadlineNs then .inr (.timerExpired, s.sched)
  else .inl s

/-! ## What a timeout promises -/

/-- When a timeout is over, in unbounded integers. -/
def dueNs (nowNs : UInt64) (timeoutMs : Nat) : Nat := nowNs.toNat + timeoutMs * 1000000

/-- A sleep does not end before its timeout. -/
def SleepInTime (nowNs timeoutMs : UInt64) : Prop :=
  ∀ s me s' v, EndsAt (sleepRound me (nowNs + timeoutMs * 1000000)) (SleepOther me)
    (stThreadSleep s me nowNs timeoutMs) nowNs s' v → dueNs nowNs timeoutMs.toNat ≤ v.toNat

/-- `StThread_Wait`, called at `nowNs`, returns `st` at `v`; the threads are then in `s'`. -/
def WaitReturns (s : Waiter) (me : Nat) (detached : Nat → Bool) (args : WaitArgs) (nowNs : UInt64)
    (st : WaitStatus) (s' : State) (v : UInt64) : Prop :=
  nowNs ≤ v ∧ (stThreadWait s me detached args nowNs).elim
    (fun s₀ => EndsAt (waitRound me args.timeoutMs (getTimeoutDeadlineNs nowNs args.timeoutMs))
      (WaitOther me)
      s₀ nowNs (st, s') v)
    fun st' => st = st' ∧ s' = s.sched

/-- A wait does not end with `STATUS_TIMER_EXPIRED` before its timeout. -/
def WaitInTime (nowNs timeoutMs : UInt64) : Prop :=
  ∀ s me detached args s' v, args.timeoutMs = timeoutMs →
    WaitReturns s me detached args nowNs .timerExpired s' v → dueNs nowNs timeoutMs.toNat ≤ v.toNat

/-- A wait ends with `STATUS_SUCCESS` only when the listed threads have finished. -/
def WaitSound (nowNs : UInt64) : Prop :=
  ∀ s me detached args s' v, WaitReturns s me detached args nowNs .success s' v →
    ∀ t, some t ∈ args.entries → (s'.thread t).state = .finished

/-- A round of `StMutex_LockWithTimeout` that finds the mutex locked does not leave the call before
its timeout. -/
def LockInTime (nowNs : UInt64) (timeoutMs : Int32) : Prop :=
  ∀ (n : Nat) (s s' : Mutex.State n) me v, Mutex.Reachable s →
  s.call me = Mutex.timedCall timeoutMs nowNs →
    nowNs ≤ v → s.locked = true → Mutex.step s (.round me v) = some s' → s'.call me = .none →
    dueNs nowNs timeoutMs.toInt.toNat ≤ v.toNat

variable {s s' : State} {me : Nat} {nowNs timeoutMs u v d : UInt64}

/-! ## Deadlines -/

theorem le_infinite (x : UInt64) : x ≤ threadWaitInfinite :=
  UInt64.le_iff_toNat_le.mpr (Nat.le_of_lt_succ x.toNat_lt)

/-- A deadline that fits 64 bits is exact. -/
theorem deadline_toNat (h : dueNs nowNs timeoutMs.toNat < 2 ^ 64) :
    (nowNs + timeoutMs * 1000000).toNat = dueNs nowNs timeoutMs.toNat := by
  rw [UInt64.toNat_add, UInt64.toNat_mul, Nat.add_mod_mod, dueNs]
  exact Nat.mod_eq_of_lt h

theorem getTimeoutDeadlineNs_toNat (hinf : timeoutMs ≠ threadWaitInfinite)
    (h : dueNs nowNs timeoutMs.toNat < 2 ^ 64) :
    (getTimeoutDeadlineNs nowNs timeoutMs).toNat = dueNs nowNs timeoutMs.toNat := by
  have hle : ¬ timeoutMs > (0xFFFFFFFFFFFFFFFF - nowNs) / 1000000 := by
    have hsub : (0xFFFFFFFFFFFFFFFF - nowNs : UInt64).toNat = 0xFFFFFFFFFFFFFFFF - nowNs.toNat :=
      UInt64.toNat_sub_of_le _ _ (le_infinite nowNs)
    rw [gt_iff_lt, UInt64.lt_iff_toNat_lt, UInt64.toNat_div, hsub, show (1000000 : UInt64).toNat =
      1000000 from rfl]
    unfold dueNs at h
    omega
  rw [getTimeoutDeadlineNs, if_neg hinf, if_neg hle, deadline_toNat h]

/-! ## Sleeping -/

/-- The update of a thread that is due makes it runnable. -/
theorem catchUp_state {w : Thread} (hw : w.state = .running) :
    ((catchUpRunnablePass (s.setThread me w) me).thread me).state = .running := by
  obtain ⟨p, heq, -⟩ := catchUpRunnablePass_spec (s.setThread me w) me
  rw [heq, setThread_self, setThread_self]
  exact hw

/-- A finished thread stays finished. -/
theorem update_finished {t : Nat} (h : (s.thread t).state = .finished) :
    ((updateRunnableState s me nowNs).thread t).state = .finished := by
  by_cases ht : t = me
  · subst ht
    unfold updateRunnableState
    rw [h]
    exact h
  · obtain ⟨w, heq, -⟩ := update_caughtUp s me nowNs
    rw [heq, setThread_of_ne _ _ ht, h]

/-- A running thread is left alone. -/
theorem update_of_running (h : (s.thread me).state = .running) :
    updateRunnableState s me nowNs = s := by
  unfold updateRunnableState
  rw [h]

/-- The caller sleeps until the deadline, or has been woken after it. -/
def Asleep (me : Nat) (d : UInt64) (s : State) (u : UInt64) : Prop :=
  (s.thread me).state = .sleeping ∧ (s.thread me).sleepUntil = d ∨
  (s.thread me).state = .running ∧ d ≤ u

/-- Others do not wake the sleeper early. -/
theorem Asleep.other (h : Asleep me d s u) (hle : u ≤ v) (ho : SleepOther me v s s') :
    Asleep me d s' v := by
  rcases ho with rfl | ⟨⟨p, n, hmine⟩, -⟩
  · rcases h with ⟨hst, hd⟩ | ⟨hst, hd⟩
    · by_cases hdue : v ≥ d
      · refine .inr ⟨?_, hdue⟩
        unfold updateRunnableState
        rw [hst, hd]
        rw [if_pos hdue]
        exact catchUp_state rfl
      · refine .inl ?_
        unfold updateRunnableState
        rw [hst, hd]
        rw [if_neg hdue]
        exact ⟨hst, hd⟩
    · rw [update_of_running hst]
      exact .inr ⟨hst, UInt64.le_trans hd hle⟩
  · rw [Asleep, hmine]
    exact h.imp_right fun h => ⟨h.1, UInt64.le_trans h.2 hle⟩

/-- **Sleeping is right exactly if its deadline fits.** -/
theorem sleepInTime_iff (nowNs timeoutMs : UInt64) :
    SleepInTime nowNs timeoutMs ↔ dueNs nowNs timeoutMs.toNat < 2 ^ 64 := by
  constructor
  · intro h
    -- the last uptime there is ends every sleep
    have hst : ((stThreadSleep initialState 0 nowNs timeoutMs).thread 0).state = .sleeping := by
      rw [stThreadSleep, setThread_self]
    exact Nat.lt_succ_of_le (h initialState 0 _ threadWaitInfinite ⟨_, nowNs, .start, le_infinite _,
      (if_neg (not_not.mpr hst)).trans (if_pos (le_infinite _))⟩)
  · rintro h s me s' v ⟨s1, u, hloop, hle, hend⟩
    have hasleep : Asleep me (nowNs + timeoutMs * 1000000) s1 u := by
      refine hloop.invariant ?_ (fun hI hle heq => ?_) (fun hI hle => hI.other hle)
      · exact .inl (by simp [stThreadSleep])
      · rw [sleepRound] at heq
        split_ifs at heq
        cases heq
        exact hI.imp_right fun h => ⟨h.1, UInt64.le_trans h.2 hle⟩
    rw [← deadline_toNat h, ← UInt64.le_iff_toNat_le]
    rcases hasleep with ⟨hst, -⟩ | ⟨-, hd⟩
    · rw [sleepRound, if_neg (not_not.mpr hst)] at hend
      split_ifs at hend with hdue
      exact hdue
    · exact UInt64.le_trans hd hle

/-- A sleep of 584 years and some milliseconds is over after 448384 ns. -/
theorem sleep_wraps :
    (∃ s', EndsAt (sleepRound 0 (0 + 18446744073710 * 1000000)) (SleepOther 0)
      (stThreadSleep initialState 0 0 18446744073710) 0 s' 448384) ∧
    448384 < dueNs 0 18446744073710 ∧ ¬ SleepInTime 0 18446744073710 := by
  have hend : ∃ s', EndsAt (sleepRound 0 (0 + 18446744073710 * 1000000)) (SleepOther 0)
      (stThreadSleep initialState 0 0 18446744073710) 0 s' 448384 :=
    ⟨_, _, _, .start, by decide, rfl⟩
  refine ⟨hend, by decide, fun h => ?_⟩
  obtain ⟨s', hs'⟩ := hend
  exact absurd (h _ _ _ _ hs') (by decide)

/-! ## Waiting -/

theorem waitingThreadIsReady_eq {list : List (Option Nat)}
    (h : (s.thread me).waitList = some list) :
    waitingThreadIsReady s me = waitListIsReady s list := by
  unfold waitingThreadIsReady waitListIsReady
  rw [h]
  refine congrArg list.all (funext fun x => ?_)
  cases x <;> rfl

/-- A list is ready when all on it have finished. -/
theorem waitListIsReady_iff {list : List (Option Nat)} :
    waitListIsReady s list = true ↔ ∀ t, some t ∈ list → (s.thread t).state = .finished := by
  rw [waitListIsReady, List.all_eq_true]
  refine ⟨fun h t ht => of_decide_eq_true (h _ ht), fun h x hx => ?_⟩
  cases x with
  | none => rfl
  | some t => exact decide_eq_true (h t hx)

/-- The caller waits, or has been woken: all have finished, or the deadline has passed. -/
def Waits (me : Nat) (args : WaitArgs) (d : UInt64) (s : Waiter) (u : UInt64) : Prop :=
  ((s.sched.thread me).state = .waiting ∧ (s.sched.thread me).sleepUntil = d ∧
    (s.sched.thread me).waitTimeoutMs = args.timeoutMs ∧
    (s.sched.thread me).waitList = some args.entries) ∨
  (s.sched.thread me).state = .running ∧
    (s.status = .success ∧ waitListIsReady s.sched args.entries = true ∨
      s.status = .timerExpired ∧ args.timeoutMs ≠ threadWaitInfinite ∧ d ≤ u)

variable {args : WaitArgs} {w w' : Waiter}

/-- A waiting thread waits on as others run. -/
theorem Waits.mono (h : Waits me args d w u) (hle : u ≤ v)
    (hmine : ∃ p n, w'.sched.thread me = { w.sched.thread me with pass := p, runCount := n })
    (hfin : ∀ t, (w.sched.thread t).state = .finished → (w'.sched.thread t).state = .finished)
    (hst : w'.status = w.status) : Waits me args d w' v := by
  obtain ⟨p, n, hmine⟩ := hmine
  rw [Waits, hmine, hst]
  refine h.imp_right fun h => ⟨h.1, h.2.imp (fun h => ⟨h.1, ?_⟩)
    fun h => ⟨h.1, h.2.1, UInt64.le_trans h.2.2 hle⟩⟩
  exact waitListIsReady_iff.mpr fun t ht => hfin t (waitListIsReady_iff.mp h.2 t ht)

/-- The scheduler looks at the waiting thread. -/
theorem Waits.update (h : Waits me args d w u) (hle : u ≤ v) :
    Waits me args d (w.update me v) v := by
  rcases h with ⟨hst, hd, hms, hlist⟩ | ⟨hrun, h⟩
  · have hready := waitingThreadIsReady_eq hlist
    by_cases h1 : waitListIsReady w.sched args.entries = true
    · refine .inr
        ⟨?_, .inl ⟨by simp [Waiter.update, hst, hready, h1], waitListIsReady_iff.mpr fun t ht =>
        update_finished (waitListIsReady_iff.mp h1 t ht)⟩⟩
      simp only [Waiter.update, updateRunnableState, hst, hready, h1, if_true]
      exact catchUp_state rfl
    by_cases h2 : args.timeoutMs ≠ threadWaitInfinite ∧ v ≥ d
    · refine .inr ⟨?_, .inr ⟨by simp [Waiter.update, hst, hready, h1, hd, hms, h2.1, h2.2], h2⟩⟩
      simp only [Waiter.update, updateRunnableState, hst, hready, if_neg h1, hd, hms, if_pos h2]
      exact catchUp_state rfl
    · have hsame : w.update me v = w := by
        simp only [Waiter.update, updateRunnableState, hst, hready, if_neg h1, hd, hms, if_neg h2,
          ne_eq, not_true, if_false]
      rw [hsame]
      exact .inl ⟨hst, hd, hms, hlist⟩
  · have hsame : w.update me v = w := by
      rw [Waiter.update, update_of_running hrun, if_pos (by rw [hrun]; decide)]
    rw [hsame]
    exact Waits.mono (.inr ⟨hrun, h⟩) hle ⟨_, _, rfl⟩ (fun _ => id) rfl

/-- What a wait that has started returns. -/
theorem waitReturns_spec {w0 : Waiter} {st : WaitStatus} {detached : Nat → Bool}
    (hw : stThreadWait w me detached args nowNs = .inl w0)
    (h : EndsAt (waitRound me args.timeoutMs (getTimeoutDeadlineNs nowNs args.timeoutMs))
      (WaitOther me) w0 nowNs
      (st, s') v) :
    st = .success ∧ waitListIsReady s' args.entries = true ∨
      st = .timerExpired ∧ args.timeoutMs ≠ threadWaitInfinite ∧
      getTimeoutDeadlineNs nowNs args.timeoutMs ≤ v := by
  obtain ⟨w1, u, hloop, hle, hend⟩ := h
  have hwaits : Waits me args (getTimeoutDeadlineNs nowNs args.timeoutMs) w1 u := by
    refine hloop.invariant ?_ (fun hI hle heq => ?_) fun hI hle hstep => ?_
    · unfold stThreadWait at hw
      split_ifs at hw
      cases hw
      exact .inl (by simp)
    · unfold waitRound at heq
      split_ifs at heq with h1 h2
      · obtain ⟨hst, -⟩ | ⟨-, ⟨hs, -⟩ | ⟨hs, -⟩⟩ := hI
        · exact absurd hst h1
        all_goals
          rw [hs] at h2
          exact absurd (not_not.mp h2) (by decide)
      · cases heq
        exact hI.mono hle ⟨_, _, rfl⟩ (fun _ => id) rfl
    · rcases hstep with rfl | ⟨ho, hst⟩
      · exact hI.update hle
      · exact hI.mono hle ho.mine ho.finished hst
  rcases hwaits with ⟨hst, -, -, hlist⟩ | ⟨hrun, h⟩
  · rw [waitRound, if_neg (not_not.mpr hst), waitingThreadIsReady_eq hlist] at hend
    split_ifs at hend with h1 h2
    · obtain ⟨rfl, rfl⟩ := Prod.mk.inj (Sum.inr.inj hend)
      exact .inl ⟨rfl, h1⟩
    · obtain ⟨rfl, rfl⟩ := Prod.mk.inj (Sum.inr.inj hend)
      exact .inr ⟨rfl, h2⟩
  · have hnot : w1.status ≠ .pending := by
      rcases h with ⟨hs, -⟩ | ⟨hs, -⟩ <;> rw [hs] <;> decide
    rw [waitRound, if_pos (by rw [hrun]; decide), if_pos hnot] at hend
    obtain ⟨rfl, rfl⟩ := Prod.mk.inj (Sum.inr.inj hend)
    exact h.imp_right fun h => ⟨h.1, h.2.1, UInt64.le_trans h.2.2 hle⟩

/-- **A wait that succeeds has seen all threads finish.** -/
theorem waitSound (nowNs : UInt64) : WaitSound nowNs := by
  rintro w me detached args s' v ⟨-, h⟩ t ht
  cases hw : stThreadWait w me detached args nowNs with
  | inl w0 =>
    rw [hw] at h
    rcases waitReturns_spec hw h with ⟨-, hready⟩ | ⟨hst, -⟩
    · exact waitListIsReady_iff.mp hready t ht
    · cases hst
  | inr st =>
    rw [hw] at h
    obtain ⟨rfl, rfl⟩ := h
    unfold stThreadWait at hw
    split_ifs at hw with h1 h2 h3 h4 h5 <;> cases hw
    · rw [WaitArgs.entries, h2] at ht
      simp at ht
    · exact waitListIsReady_iff.mp h4 t ht

/-- **A wait is in time exactly if its deadline fits.** -/
theorem waitInTime_iff (nowNs timeoutMs : UInt64) :
    WaitInTime nowNs timeoutMs ↔ timeoutMs = threadWaitInfinite ∨
    dueNs nowNs timeoutMs.toNat < 2 ^ 64 := by
  constructor
  · intro h
    by_contra hnot
    obtain ⟨hinf, hdue⟩ := not_or.mp hnot
    have hzero : timeoutMs ≠ 0 := by
      rintro rfl
      exact hdue (by simpa [dueNs] using nowNs.toNat_lt)
    -- thread 0 waits for itself
    obtain ⟨w, hw, hst, hready⟩ : ∃ w, stThreadWait ⟨initialState, .success⟩ 0 (fun _ => false)
        ⟨some fun _ => some 0, 1, timeoutMs⟩ nowNs = .inl w ∧ (w.sched.thread 0).state = .waiting ∧
        waitingThreadIsReady w.sched 0 = false :=
      ⟨_, (if_neg (show ¬ ((1 : Int32) < 0 ∨ false = true ∧ (1 : Int32) > 0) by decide)).trans
        ((if_neg (show ¬ (1 : Int32) = 0 by decide)).trans
        ((if_neg (show ¬ [some 0].any (Option.any fun _ => false) = true by decide)).trans
        ((if_neg (show ¬ waitListIsReady initialState [some 0] = true by decide)).trans
          (if_neg hzero)))),
        by simp, rfl⟩
    refine hdue
      (Nat.lt_succ_of_le
        (h ⟨initialState, .success⟩ 0 (fun _ => false) ⟨some fun _ => some 0, 1, timeoutMs⟩
      w.sched threadWaitInfinite rfl ⟨le_infinite _, ?_⟩))
    rw [hw]
    refine ⟨w, nowNs, .start, le_infinite _, ?_⟩
    rw [waitRound, if_neg (not_not.mpr hst), hready, if_neg Bool.false_ne_true,
      if_pos ⟨hinf, le_infinite _⟩]
  · rintro h w me detached args s' v rfl ⟨hle, hret⟩
    cases hw : stThreadWait w me detached args nowNs with
    | inl w0 =>
      rw [hw] at hret
      rcases waitReturns_spec hw hret with ⟨hst, -⟩ | ⟨-, hinf, hd⟩
      · cases hst
      · rw [← getTimeoutDeadlineNs_toNat hinf (h.resolve_left hinf)]
        exact UInt64.le_iff_toNat_le.mp hd
    | inr st =>
      rw [hw] at hret
      obtain ⟨rfl, rfl⟩ := hret
      unfold stThreadWait at hw
      split_ifs at hw with h1 h2 h3 h4 h5 <;> cases hw
      rw [h5]
      simpa [dueNs] using UInt64.le_iff_toNat_le.mp hle

/-! ## Locking -/

/-- Queueing does not touch the calls. -/
theorem addBlockingThread_call {n : Nat} {s s' : Mutex.State n} {th : Fin n}
    (h : Mutex.addBlockingThread s th = some s') : s'.call = s.call := by
  unfold Mutex.addBlockingThread at h
  split_ifs at h
  · exact Option.some.inj h ▸ rfl
  split at h
  · exact Option.some.inj h ▸ rfl
  · obtain ⟨x, -, rfl⟩ := Option.map_eq_some_iff.mp h
    cases x <;> rfl

/-- Thread 1 has the mutex. -/
def lockedByOne : Mutex.State 2 where
  locked := true
  owner := some 1
  blockingThreads := none
  next := fun _ => none
  state := fun _ => .running
  sleepUntil := fun _ => 0
  call := fun _ => .none
  holds := fun t => decide (t = 1)

theorem lockedByOne_reachable : Mutex.Reachable lockedByOne := by
  have hinit : Mutex.Reachable (n := 2)
      { lockedByOne with locked := false, owner := none, holds := fun _ => false } :=
    .init ⟨rfl, rfl, rfl, fun _ => rfl, fun _ => rfl⟩
  have hstep := (hinit.step (.enterLock 1) rfl).step (.round 1 0) rfl
  convert hstep using 1
  simp only [lockedByOne, Mutex.State.acquire, Mutex.State.mk.injEq, true_and]
  exact ⟨by decide, by decide⟩

/-- **A timed lock is in time exactly if its deadline fits.** -/
theorem lockInTime_iff (nowNs : UInt64) (timeoutMs : Int32) :
    LockInTime nowNs timeoutMs ↔ timeoutMs < 0 ∨ dueNs nowNs timeoutMs.toInt.toNat < 2 ^ 64 := by
  constructor
  · intro h
    by_contra hnot
    obtain ⟨hneg, hdue⟩ := not_or.mp hnot
    have hzero : timeoutMs ≠ 0 := by
      rintro rfl
      exact hdue (by simpa [dueNs] using nowNs.toNat_lt)
    have hcall : Mutex.timedCall timeoutMs nowNs = .timed _ := (if_neg hneg).trans (if_neg hzero)
    obtain ⟨s, hs, hlock, hblock, hs'⟩ :
        ∃ s, Mutex.step lockedByOne (.enterTimed 0 timeoutMs nowNs) = some s ∧
        s.locked = true ∧ s.blockingThreads = none ∧ s.call 0 = Mutex.timedCall timeoutMs nowNs :=
      ⟨_, rfl, rfl, rfl, rfl⟩
    obtain ⟨s', hround, hend⟩ : ∃ s', Mutex.step s (.round 0 threadWaitInfinite) = some s' ∧
        s'.call 0 = .none := by
      have hremove : Mutex.removeBlockingThread s 0 = some s := by
        rw [Mutex.removeBlockingThread, hblock]; rfl
      simp [Mutex.step, hs', hcall, Mutex.timedRound, hlock, le_infinite, hremove,
        Mutex.State.leave]
    exact hdue
      (Nat.lt_succ_of_le (h 2 s s' 0 threadWaitInfinite (lockedByOne_reachable.step _ hs) hs'
        (le_infinite _)
      hlock hround hend))
  · intro h n s s' me v _ hcall hle hlock hstep hend
    unfold Mutex.timedCall at hcall
    split_ifs at hcall with hneg hzero
    · -- a call without timeout goes on
      simp only [Mutex.step, hcall, Mutex.lockRound, hlock, Bool.not_true,
        if_neg Bool.false_ne_true] at hstep
      rw [addBlockingThread_call hstep, hcall] at hend
      cases hend
    · rw [hzero]
      simpa [dueNs] using UInt64.le_iff_toNat_le.mp hle
    · simp only [Mutex.step, hcall, Mutex.timedRound, hlock, Bool.not_true,
        if_neg Bool.false_ne_true] at hstep
      split_ifs at hstep with hd
      · have hms : timeoutMs.toInt.toNat.toUInt64.toNat = timeoutMs.toInt.toNat :=
          UInt64.toNat_ofNat_of_lt
            (show _ < 18446744073709551616 by have := timeoutMs.toInt_lt; omega)
        rw [← hms] at h ⊢
        rw [← deadline_toNat (h.resolve_left hneg)]
        exact UInt64.le_iff_toNat_le.mp hd
      · have hkept : s'.call me = s.call me := congrFun (addBlockingThread_call hstep) me
        rw [hkept, hcall] at hend
        cases hend

/-- **Timeouts that are kept.** -/
theorem timeouts_iff (nowNs : UInt64) :
    (∀ timeoutMs, SleepInTime nowNs timeoutMs ↔ dueNs nowNs timeoutMs.toNat < 2 ^ 64) ∧
    (∀ timeoutMs, WaitInTime nowNs timeoutMs ↔
      timeoutMs = threadWaitInfinite ∨ dueNs nowNs timeoutMs.toNat < 2 ^ 64) ∧
    (∀ timeoutMs, LockInTime nowNs timeoutMs ↔
      timeoutMs < 0 ∨ dueNs nowNs timeoutMs.toInt.toNat < 2 ^ 64) ∧ WaitSound nowNs :=
  ⟨sleepInTime_iff nowNs, waitInTime_iff nowNs, lockInTime_iff nowNs, waitSound nowNs⟩

end FoliOS.Strata.Sched
