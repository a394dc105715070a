import Mathlib.Data.List.Nodup
import FoliOS.Strata.Basic

/-!
# Strata — the scheduler (`scheduler/scheduler.c`)

The runnable thread with the smallest `sched_pass` runs next, and its pass goes up by
one. A thread that has not run for a while and becomes runnable catches up with the
smallest pass of the others, where the scheduler makes it runnable; a mutex that hands
over (`unblock_blocking_thread`) and a thread that ends its own sleep or wait write the
state only.

The run queue is the list of its threads. `added` is not in the source: a thread is
added once.
-/

namespace FoliOS.Strata.Sched

/-! ## State -/

/-- `THREAD_WAIT_INFINITE` -/
def threadWaitInfinite : UInt64 := 0xFFFFFFFFFFFFFFFF

/-- `UINT64_MAX` -/
def maxPass : UInt64 := 0xFFFFFFFFFFFFFFFF

/-- What the scheduler reads and writes of a thread. -/
structure Thread where
  state : ThreadState
  pass : UInt64
  runCount : UInt64
  sleepUntil : UInt64
  waitList : Option (List (Option Nat))
  waitTimeoutMs : UInt64

/-- `struct StScheduler_Data`, with the threads. -/
structure State where
  queue : List Nat
  current : Option Nat
  thread : Nat → Thread
  added : Nat → Bool

def State.setThread (s : State) (t : Nat) (v : Thread) : State :=
  { s with thread := Function.update s.thread t v }

def State.running (s : State) (t : Nat) : Bool := decide ((s.thread t).state = .running)

/-! ## Making threads runnable -/

/-- A round of `get_min_runnable_pass`. -/
def lowerPass (s : State) (exclude : Nat) (m : UInt64) (c : Nat) : UInt64 :=
  if c = exclude then m
  else if !s.running c then m
  else if (s.thread c).pass < m then (s.thread c).pass
  else m

/-- `get_min_runnable_pass` -/
def getMinRunnablePass (s : State) (exclude : Nat) : UInt64 :=
  s.queue.foldl (lowerPass s exclude) maxPass

/-- `catch_up_runnable_pass` -/
def catchUpRunnablePass (s : State) (t : Nat) : State :=
  if !s.running t then s
  else
    let m := getMinRunnablePass s t
    if m = maxPass then s
    else if (s.thread t).pass < m then s.setThread t { s.thread t with pass := m }
    else s

/-- `waiting_thread_is_ready` -/
def waitingThreadIsReady (s : State) (t : Nat) : Bool :=
  match (s.thread t).waitList with
  | none => true
  | some l => l.all fun
    | none => true
    | some w => decide ((s.thread w).state = .finished)

/-- `finish_waiting_thread`, but for the status it reports. -/
def finishWaitingThread (s : State) (t : Nat) : State :=
  catchUpRunnablePass
    (s.setThread t { s.thread t with
      state := .running, sleepUntil := 0, waitList := none, waitTimeoutMs := 0 }) t

/-- `update_runnable_state` -/
def updateRunnableState (s : State) (t : Nat) (nowNs : UInt64) : State :=
  match (s.thread t).state with
  | .pending => catchUpRunnablePass (s.setThread t { s.thread t with state := .running }) t
  | .sleeping =>
    if nowNs ≥ (s.thread t).sleepUntil then
      catchUpRunnablePass (s.setThread t { s.thread t with state := .running, sleepUntil := 0 }) t
    else s
  | .waiting =>
    if waitingThreadIsReady s t then finishWaitingThread s t
    else if (s.thread t).waitTimeoutMs ≠ threadWaitInfinite ∧ nowNs ≥ (s.thread t).sleepUntil then
      finishWaitingThread s t
    else s
  | _ => s

/-! ## Selection -/

/-- The order in which `select_next_runnable_thread` goes round the queue: from the thread
after the current one. -/
def scanOrder (s : State) : List Nat :=
  match s.current with
  | none => s.queue
  | some c =>
    match (s.queue.dropWhile (· ≠ c)).tail with
    | [] => s.queue
    | rest => rest ++ s.queue.take (s.queue.length - rest.length)

/-- The better of the best thread so far, with its pass, and the one at the cursor. -/
def better (s : State) (best : Option (Nat × UInt64)) (c : Nat) : Option (Nat × UInt64) :=
  if !s.running c then best
  else
    match best with
    | none => some (c, (s.thread c).pass)
    | some (b, p) => if (s.thread c).pass < p then some (c, (s.thread c).pass) else some (b, p)

/-- The loop of `select_next_runnable_thread`. -/
def scan (nowNs : UInt64) : List Nat → State → Option (Nat × UInt64) → State × Option (Nat × UInt64)
  | [], s, best => (s, best)
  | c :: cs, s, best =>
    let s := updateRunnableState s c nowNs
    scan nowNs cs s (better s best c)

/-- The accounting at the end of `select_next_runnable_thread`. -/
def State.charge (s : State) (t : Nat) : State :=
  s.setThread t { s.thread t with
    pass := (s.thread t).pass + 1
    runCount := (s.thread t).runCount + 1 }

/-- `select_next_runnable_thread` -/
def selectNextRunnableThread (s : State) (nowNs : UInt64) (updateAccounting : Bool) :
    State × Option Nat :=
  match scan nowNs (scanOrder s) s none with
  | (s, none) => (s, none)
  | (s, some (t, _)) => (if updateAccounting then s.charge t else s, some t)

/-- `StScheduler_GetNextThread` -/
def stSchedulerGetNextThread (s : State) (nowNs : UInt64) : State × Option Nat :=
  selectNextRunnableThread s nowNs true

/-! ## The queue -/

/-- `StScheduler_AddThread`, of a thread in state `v`. -/
def stSchedulerAddThread (s : State) (t : Nat) (v : ThreadState) : State :=
  let pass := match s.current with
    | some c => (s.thread c).pass
    | none => 0
  { s.setThread t ⟨v, pass, 0, 0, none, 0⟩ with
    queue := s.queue ++ [t]
    added := Function.update s.added t true }

/-- `StScheduler_RemoveThread` -/
def stSchedulerRemoveThread (s : State) (t : Nat) : State := { s with queue := s.queue.erase t }

/-! ## Runs -/

/-- The steps of a run. A call of `select_next_runnable_thread` is an `update` for each
thread of the queue in turn and, where it accounts, a `select`. -/
inductive Event where
  | addThread (t : Nat) (v : ThreadState)
  | removeThread (t : Nat)
  | update (t : Nat) (nowNs : UInt64)
  | select
  | switchTo (t : Nat)
  /-- A thread sleeps, waits, blocks or ends. -/
  | suspend (t : Nat) (v : ThreadState) (untilNs : UInt64) (waitList : Option (List (Option Nat)))
      (timeoutMs : UInt64)
  /-- A thread ends its own sleep, wait or timed lock. -/
  | resume (t : Nat)
  /-- `unblock_blocking_thread` -/
  | handOver (t : Nat)

/-- The thread a `select` chooses. -/
def selected (s : State) : Option Nat :=
  ((scanOrder s).foldl (better s) none).map Prod.fst

/-- One step; `none` if it is not possible. New threads are pending; the main thread, the
first in the queue, is already running. -/
def step (s : State) : Event → Option State
  | .addThread t v =>
    if s.added t = false ∧ (v = .pending ∨ s.queue = []) then some (stSchedulerAddThread s t v)
    else none
  | .removeThread t => some (stSchedulerRemoveThread s t)
  | .update t nowNs => some (updateRunnableState s t nowNs)
  | .select =>
    match selected s with
    | some t => some (s.charge t)
    | none => some s
  | .switchTo t => some { s with current := some t }
  | .suspend t v untilNs waitList timeoutMs =>
    if v = .running then none
    else some (s.setThread t { s.thread t with
      state := v, sleepUntil := untilNs, waitList, waitTimeoutMs := timeoutMs })
  | .resume t =>
    some (s.setThread t { s.thread t with
      state := .running, sleepUntil := 0, waitList := none, waitTimeoutMs := 0 })
  | .handOver t =>
    if (s.thread t).state = .blocking ∨ (s.thread t).state = .sleeping then
      some (s.setThread t { s.thread t with state := .running, sleepUntil := 0 })
    else some (s.setThread t { s.thread t with sleepUntil := 0 })

/-- No thread has been added yet. -/
def initialState : State := ⟨[], none, fun _ => ⟨.pending, 0, 0, 0, none, 0⟩, fun _ => false⟩

inductive Reachable : State → Prop where
  | init : Reachable initialState
  | step {s s' : State} (e : Event) : Reachable s → step s e = some s' → Reachable s'

end FoliOS.Strata.Sched
