import Mathlib.Data.Fintype.Card
import FoliOS.Lib.SList
import FoliOS.Strata.Basic

/-!
# Strata — the mutex (`mutex/mutex.c`)

A mutex keeps its waiters in a list through `mutex_blocking_next` of the threads. A
thread that finds it locked blocks or sleeps, joins the list and tries again when it
runs next; `StMutex_Unlock` takes the first waiter off the list and makes it run.

Each section under the spinlock is one step. The two loops over the list are given as
many rounds as there are threads: a walk that needs more never ends, and the
section has no result.
-/

namespace FoliOS.Strata.Mutex

open Function Lib

/-! ## State -/

/-- The call a thread is in: `StMutex_Lock`, the loop of `StMutex_LockWithTimeout`, or
`StMutex_TryLock`. -/
inductive Call where
  | none
  | lock
  | timed (deadlineNs : UInt64)
  | tryLock
  deriving DecidableEq

/-- The mutex and what it reads and writes of `n` threads. `call` and `holds` are where each
thread is: in which call, and whether between a successful lock and its unlock. -/
structure State (n : Nat) where
  locked : Bool
  owner : Option (Fin n)
  blockingThreads : Option (Fin n)
  next : Fin n → Option (Fin n)
  state : Fin n → ThreadState
  sleepUntil : Fin n → UInt64
  call : Fin n → Call
  holds : Fin n → Bool

variable {n : Nat}

def State.setThread (s : State n) (t : Fin n) (v : ThreadState) (untilNs : UInt64) : State n :=
  { s with
    state := update s.state t v
    sleepUntil := update s.sleepUntil t untilNs }

/-! ## The waiter list -/

/-- What the loop of `add_blocking_thread` finds: the thread itself, or the last waiter. -/
inductive Found (n : Nat) where
  | listed
  | last (t : Fin n)

/-- The loop of `add_blocking_thread`. -/
def findLast (next : Fin n → Option (Fin n)) (th : Fin n) : Nat → Fin n → Option (Found n)
  | 0, _ => none
  | fuel + 1, cur =>
    if cur = th then some .listed
    else
      match next cur with
      | none => some (.last cur)
      | some cur => findLast next th fuel cur

/-- `add_blocking_thread` -/
def addBlockingThread (s : State n) (th : Fin n) : Option (State n) :=
  if s.blockingThreads = some th then some s
  else
    match s.blockingThreads with
    | none => some { s with blockingThreads := some th, next := update s.next th none }
    | some head =>
      (findLast s.next th n head).map fun
        | .listed => s
        | .last t => { s with next := update (update s.next t (some th)) th none }

/-- `unblock_blocking_thread` -/
def unblockBlockingThread (s : State n) : State n :=
  match s.blockingThreads with
  | none => s
  | some th =>
    { s with
      blockingThreads := s.next th
      next := update s.next th none
      sleepUntil := update s.sleepUntil th 0
      state :=
        if s.state th = .blocking ∨ s.state th = .sleeping then update s.state th .running
        else s.state }

/-- Thread `cur`, which comes after `prev` if there is one, leaves the list. -/
def State.cut (s : State n) (prev : Option (Fin n)) (cur : Fin n) : State n :=
  match prev with
  | some p => { s with next := update (update s.next p (s.next cur)) cur none }
  | none => { s with blockingThreads := s.next cur, next := update s.next cur none }

/-- The loop of `remove_blocking_thread`. -/
def removeFrom (s : State n) (th : Fin n) : Nat → Option (Fin n) → Option (Fin n) → Option (State n)
  | _, _, none => some s
  | 0, _, some _ => none
  | fuel + 1, prev, some cur =>
    if cur = th then some (s.cut prev cur) else removeFrom s th fuel (some cur) (s.next cur)

/-- `remove_blocking_thread` -/
def removeBlockingThread (s : State n) (th : Fin n) : Option (State n) :=
  removeFrom s th n none s.blockingThreads

/-! ## The sections under the spinlock -/

/-- The mutex becomes the thread's, which leaves its call. -/
def State.acquire (s : State n) (th : Fin n) : State n :=
  { s with
    locked := true
    owner := some th
    call := update s.call th .none
    holds := update s.holds th true }

def State.leave (s : State n) (th : Fin n) : State n :=
  { s with call := update s.call th .none }

/-- A round of `StMutex_Lock`. -/
def lockRound (s : State n) (th : Fin n) : Option (State n) :=
  if !s.locked then (removeBlockingThread s th).map (·.acquire th)
  else addBlockingThread { s with state := update s.state th .blocking } th

/-- A round of `StMutex_LockWithTimeout`. -/
def timedRound (s : State n) (th : Fin n) (deadlineNs nowNs : UInt64) : Option (State n) :=
  if !s.locked then
    (removeBlockingThread s th).map fun s =>
      { s with
        next := update s.next th none
        sleepUntil := update s.sleepUntil th 0 }.acquire th
  else if nowNs ≥ deadlineNs then
    (removeBlockingThread s th).map fun s =>
      ({ s with next := update s.next th none }.setThread th .running 0).leave th
  else addBlockingThread (s.setThread th .sleeping deadlineNs) th

/-- The section of `StMutex_TryLock`. -/
def tryLockRound (s : State n) (th : Fin n) : State n :=
  if s.locked then s.leave th else s.acquire th

/-- The section of `StMutex_Unlock`. -/
def unlockSection (s : State n) (th : Fin n) : State n :=
  unblockBlockingThread
    { s with locked := false, owner := none, holds := update s.holds th false }

/-! ## Steps -/

/-- `round` is the next section of the thread's call; `elsewhere` is what a thread outside
the mutex code does to its own state (`StThread_Sleep`, `StThread_Wait` and the like). -/
inductive Event (n : Nat) where
  | enterLock (t : Fin n)
  | enterTimed (t : Fin n) (timeoutMs : Int32) (nowNs : UInt64)
  | enterTryLock (t : Fin n)
  | round (t : Fin n) (nowNs : UInt64)
  | unlock (t : Fin n)
  | wake (t : Fin n) (nowNs : UInt64) (ready : Bool)
  | elsewhere (t : Fin n) (v : ThreadState) (untilNs : UInt64)

/-- The call made by `StMutex_LockWithTimeout`. -/
def timedCall (timeoutMs : Int32) (nowNs : UInt64) : Call :=
  if timeoutMs < 0 then .lock
  else if timeoutMs = 0 then .tryLock
  else .timed (nowNs + timeoutMs.toInt.toNat.toUInt64 * 1000000)

/-- `update_runnable_state`; `ready` is whether a waiting thread's wait is over. -/
def updateRunnableState (s : State n) (t : Fin n) (nowNs : UInt64) (ready : Bool) : State n :=
  match s.state t with
  | .pending => { s with state := update s.state t .running }
  | .sleeping => if nowNs ≥ s.sleepUntil t then s.setThread t .running 0 else s
  | .waiting => if ready then s.setThread t .running 0 else s
  | _ => s

/-- One step; `none` if the event is not possible, or its section never ends. -/
def step (s : State n) : Event n → Option (State n)
  | .enterLock t =>
    if s.call t = .none then some { s with call := update s.call t .lock } else none
  | .enterTimed t timeoutMs nowNs =>
    if s.call t = .none then some { s with call := update s.call t (timedCall timeoutMs nowNs) }
    else none
  | .enterTryLock t =>
    if s.call t = .none then some { s with call := update s.call t .tryLock } else none
  | .round t nowNs =>
    match s.call t with
    | .none => none
    | .lock => lockRound s t
    | .timed deadlineNs => timedRound s t deadlineNs nowNs
    | .tryLock => some (tryLockRound s t)
  | .unlock t => if s.call t = .none ∧ s.holds t = true then some (unlockSection s t) else none
  | .wake t nowNs ready => some (updateRunnableState s t nowNs ready)
  | .elsewhere t v untilNs => if s.call t = .none then some (s.setThread t v untilNs) else none

/-- After `StMutex_Init`, with no thread in a call. -/
structure Initial (s : State n) : Prop where
  unlocked : s.locked = false
  owner    : s.owner = none
  empty    : s.blockingThreads = none
  calls    : ∀ t, s.call t = .none
  holds    : ∀ t, s.holds t = false

inductive Reachable : State n → Prop where
  | init {s : State n} : Initial s → Reachable s
  | step {s s' : State n} (e : Event n) : Reachable s → step s e = some s' → Reachable s'

end FoliOS.Strata.Mutex
