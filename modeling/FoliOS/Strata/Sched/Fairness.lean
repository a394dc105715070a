import Mathlib.Algebra.Order.BigOperators.Group.List
import Mathlib.Algebra.Order.Group.Nat
import FoliOS.Lib.Runs
import FoliOS.Strata.Sched.Model

/-!
# Strata — turns after becoming runnable

A thread that has caught up when it becomes runnable can run ahead of a waiting thread
only as far as their passes differ: each turn raises its pass, and a turn is only given
to a thread whose pass is not above the waiting one's (`selected_le`). The
scheduler's own wake-ups catch up (`update_caughtUp`); the other ways to become runnable
do not, and the bound `turns_bounded` needs the pass to be high enough there.

`getNextThread_run` ties the steps to `StScheduler_GetNextThread`.
-/

namespace FoliOS.Strata.Sched

open Lib

variable {s s' : State} {t u c : Nat} {m : Nat}

/-! ## Catching up -/

@[simp] theorem setThread_queue (s : State) (t : Nat) (v : Thread) :
    (s.setThread t v).queue = s.queue := rfl

@[simp] theorem setThread_self (s : State) (t : Nat) (v : Thread) :
    (s.setThread t v).thread t = v := by
  simp [State.setThread]

theorem setThread_of_ne (s : State) (v : Thread) (h : c ≠ t) :
    (s.setThread t v).thread c = s.thread c := by
  simp [State.setThread, h]

theorem running_congr (h : s'.thread c = s.thread c) : s'.running c = s.running c := by
  rw [State.running, State.running, h]

/-- A runnable thread of the queue other than `t`. -/
def Other (s : State) (t c : Nat) : Prop := c ∈ s.queue ∧ c ≠ t ∧ s.running c = true

theorem lowerPass_le (s : State) (t : Nat) (m : UInt64) (c : Nat) : lowerPass s t m c ≤ m := by
  unfold lowerPass
  split_ifs with h1 h2 h3
  · exact UInt64.le_refl m
  · exact UInt64.le_refl m
  · exact UInt64.le_of_lt h3
  · exact UInt64.le_refl m

theorem lowerPass_le_pass (h : c ≠ t) (hrun : s.running c = true) (m : UInt64) :
    lowerPass s t m c ≤ (s.thread c).pass := by
  unfold lowerPass
  rw [if_neg h, if_neg (by simp [hrun])]
  split
  · exact UInt64.le_refl _
  · rename_i hlt
    exact UInt64.not_lt.mp hlt

theorem le_lowerPass {b m : UInt64} (hm : b ≤ m)
    (hc : c ≠ t → s.running c = true → b ≤ (s.thread c).pass) : b ≤ lowerPass s t m c := by
  unfold lowerPass
  split_ifs with h1 h2 h3
  · exact hm
  · exact hm
  · exact hc h1 (by simpa using h2)
  · exact hm

theorem foldl_lowerPass_le (s : State) (t : Nat) (l : List Nat) :
    ∀ m : UInt64, l.foldl (lowerPass s t) m ≤ m ∧
      ∀ c ∈ l, c ≠ t → s.running c = true → l.foldl (lowerPass s t) m ≤ (s.thread c).pass := by
  induction l with
  | nil => exact fun m => ⟨UInt64.le_refl m, fun c hc => absurd hc List.not_mem_nil⟩
  | cons a l ih =>
    intro m
    obtain ⟨hle, hall⟩ := ih (lowerPass s t m a)
    refine ⟨UInt64.le_trans hle (lowerPass_le s t m a), fun c hc hne hrun => ?_⟩
    rcases List.mem_cons.mp hc with rfl | hc
    · exact UInt64.le_trans hle (lowerPass_le_pass hne hrun m)
    · exact hall c hc hne hrun

theorem le_foldl_lowerPass {b : UInt64} (l : List Nat)
    (hl : ∀ c ∈ l, c ≠ t → s.running c = true → b ≤ (s.thread c).pass) :
    ∀ m : UInt64, b ≤ m → b ≤ l.foldl (lowerPass s t) m := by
  induction l with
  | nil => exact fun m hm => hm
  | cons a l ih =>
    exact fun m hm => ih (fun c hc => hl c (List.mem_cons_of_mem a hc)) _
      (le_lowerPass hm (hl a List.mem_cons_self))

/-- No other runnable thread is below the minimum. -/
theorem getMinRunnablePass_le (h : Other s t c) : getMinRunnablePass s t ≤ (s.thread c).pass :=
  (foldl_lowerPass_le s t s.queue maxPass).2 c h.1 h.2.1 h.2.2

/-- A lower bound of the other runnable threads is one of the minimum. -/
theorem le_getMinRunnablePass {b : UInt64} (h : ∀ c, Other s t c → b ≤ (s.thread c).pass) :
    b ≤ getMinRunnablePass s t :=
  le_foldl_lowerPass s.queue (fun c hc hne hrun => h c ⟨hc, hne, hrun⟩) _
    (UInt64.le_iff_toNat_le.mpr (Nat.le_of_lt_succ b.toNat_lt))

/-- **`catch_up_runnable_pass`** writes the pass of its thread only, and leaves it at the
minimum or above. -/
theorem catchUpRunnablePass_spec (s : State) (t : Nat) :
    ∃ p, catchUpRunnablePass s t = s.setThread t { s.thread t with pass := p } ∧
    (s.thread t).pass ≤ p ∧
      (s.running t = true → getMinRunnablePass s t ≠ maxPass → getMinRunnablePass s t ≤ p) := by
  have hself : s = s.setThread t { s.thread t with pass := (s.thread t).pass } := by
    simp [State.setThread]
  unfold catchUpRunnablePass
  dsimp only
  split_ifs with h1 h2 h3
  · exact ⟨_, hself, UInt64.le_refl _, fun h => by simp [h] at h1⟩
  · exact ⟨_, hself, UInt64.le_refl _, fun _ h => absurd h2 h⟩
  · exact ⟨_, rfl, UInt64.le_of_lt h3, fun _ _ => UInt64.le_refl _⟩
  · exact ⟨_, hself, UInt64.le_refl _, fun _ _ => UInt64.not_lt.mp h3⟩

/-- The minimum over the others does not depend on the thread itself. -/
theorem getMinRunnablePass_setThread (s : State) (t : Nat) (v : Thread) :
    getMinRunnablePass (s.setThread t v) t = getMinRunnablePass s t := by
  have hround : lowerPass (s.setThread t v) t = lowerPass s t := by
    funext m c
    by_cases hc : c = t
    · simp [lowerPass, hc]
    · have hsame := setThread_of_ne s v hc
      simp only [lowerPass, hsame, running_congr hsame]
  rw [getMinRunnablePass, getMinRunnablePass, hround, setThread_queue]

/-- Only thread `t` is written and its pass is not lowered; if it becomes runnable, it is not
below the other runnable threads. -/
def CaughtUp (s : State) (t : Nat) (s' : State) : Prop :=
  ∃ v, s' = s.setThread t v ∧ (s.thread t).pass ≤ v.pass ∧
    ((s.thread t).state = .running → v = s.thread t) ∧
    ((s.thread t).state ≠ .running → v.state = .running → getMinRunnablePass s t ≠ maxPass →
      getMinRunnablePass s t ≤ v.pass)

theorem CaughtUp.refl (s : State) (t : Nat) : CaughtUp s t s :=
  ⟨s.thread t, by simp [State.setThread], UInt64.le_refl _, fun _ => rfl, fun h h' => absurd h' h⟩

/-- A thread that was not running, made runnable with a catch-up. -/
theorem catchUp_caughtUp {w : Thread} (hpass : w.pass = (s.thread t).pass)
    (hrun : w.state = .running)
    (hnot : (s.thread t).state ≠ .running) :
      CaughtUp s t (catchUpRunnablePass (s.setThread t w) t) := by
  obtain ⟨p, heq, hle, hmin⟩ := catchUpRunnablePass_spec (s.setThread t w) t
  rw [getMinRunnablePass_setThread] at hmin
  rw [setThread_self] at heq hle
  refine ⟨{ w with pass := p }, ?_, hpass ▸ hle, fun h => absurd h hnot, fun _ _ hne => ?_⟩
  · rw [heq]
    simp [State.setThread]
  · exact hmin (by simp [State.running, hrun]) hne

/-- **The scheduler's own wake-ups catch up.** -/
theorem update_caughtUp (s : State) (t : Nat) (nowNs : UInt64) :
    CaughtUp s t (updateRunnableState s t nowNs) := by
  unfold updateRunnableState
  split
  · rename_i hst
    exact catchUp_caughtUp rfl rfl (by simp [hst])
  · rename_i hst
    split
    · exact catchUp_caughtUp rfl rfl (by simp [hst])
    · exact CaughtUp.refl s t
  · rename_i hst
    split
    · exact catchUp_caughtUp rfl rfl (by simp [hst])
    · split
      · exact catchUp_caughtUp rfl rfl (by simp [hst])
      · exact CaughtUp.refl s t
  · exact CaughtUp.refl s t

/-! ## Selection -/

/-- The scan goes round the whole queue. -/
theorem scanOrder_perm (s : State) : (scanOrder s).Perm s.queue := by
  unfold scanOrder
  cases s.current with
  | none => exact List.Perm.refl _
  | some k =>
    dsimp only
    have hsuf : (s.queue.dropWhile (· ≠ k)).tail <:+ s.queue :=
      (List.tail_suffix _).trans (List.dropWhile_suffix _)
    split
    · exact List.Perm.refl _
    · generalize (s.queue.dropWhile (· ≠ k)).tail = rest at *
      refine List.perm_append_comm.trans (List.Perm.of_eq ?_)
      conv_rhs => rw [← List.take_append_drop (s.queue.length - rest.length) s.queue]
      rw [← List.suffix_iff_eq_drop.mp hsuf]

theorem mem_scanOrder : c ∈ scanOrder s ↔ c ∈ s.queue := (scanOrder_perm s).mem_iff

/-- Thread `t` is the first of a list among its runnable threads with the smallest pass. -/
def FirstLeast (s : State) (l : List Nat) (t : Nat) : Prop :=
  ∃ before after, l = before ++ t :: after ∧ s.running t = true ∧
    (∀ c ∈ before, s.running c = true → (s.thread t).pass < (s.thread c).pass) ∧
    ∀ c ∈ after, s.running c = true → (s.thread t).pass ≤ (s.thread c).pass

theorem FirstLeast.le {l : List Nat} (h : FirstLeast s l t) (hc : c ∈ l)
    (hrun : s.running c = true) : (s.thread t).pass ≤ (s.thread c).pass := by
  obtain ⟨before, after, rfl, -, hbefore, hafter⟩ := h
  rcases List.mem_append.mp hc with hc | hc
  · exact UInt64.le_of_lt (hbefore c hc hrun)
  · rcases List.mem_cons.mp hc with rfl | hc
    · exact UInt64.le_refl _
    · exact hafter c hc hrun

/-- **The choice of the scan.** -/
theorem foldl_better_cases (s : State) (l : List Nat) :
    (l.foldl (better s) none = none ∧ ∀ c ∈ l, s.running c = false) ∨
    ∃ t, l.foldl (better s) none = some (t, (s.thread t).pass) ∧ FirstLeast s l t := by
  induction l using List.reverseRecOn with
  | nil => exact .inl ⟨rfl, fun c hc => absurd hc List.not_mem_nil⟩
  | append_singleton l c ih =>
    rw [List.foldl_append, List.foldl_cons, List.foldl_nil]
    by_cases hrun : s.running c = true
    · rcases ih with ⟨heq, hnone⟩ | ⟨t, heq, ht⟩
      · refine .inr ⟨c, by simp [heq, better, hrun], l, [], rfl, hrun, fun d hd h => ?_, by simp⟩
        rw [hnone d hd] at h
        cases h
      · by_cases hlt : (s.thread c).pass < (s.thread t).pass
        · refine .inr ⟨c, by simp [heq, better, hrun, hlt], l, [], rfl, hrun,
            fun d hd h => ?_, by simp⟩
          exact UInt64.lt_of_lt_of_le hlt (ht.le hd h)
        · obtain ⟨before, after, rfl, hrunT, hbefore, hafter⟩ := ht
          refine .inr ⟨t, by simp [heq, better, hrun, hlt], before, after ++ [c], by simp, hrunT,
            hbefore, fun d hd h => ?_⟩
          rcases List.mem_append.mp hd with hd | hd
          · exact hafter d hd h
          · rw [List.mem_singleton.mp hd]
            exact UInt64.not_lt.mp hlt
    · have hfalse := Bool.eq_false_of_not_eq_true hrun
      have hsame : better s (l.foldl (better s) none) c = l.foldl (better s) none := by
        simp [better, hfalse]
      rw [hsame]
      rcases ih with ⟨heq, hnone⟩ | ⟨t, heq, before, after, rfl, hrunT, hbefore, hafter⟩
      · exact .inl ⟨heq, by simpa [or_imp, forall_and, hfalse] using hnone⟩
      · exact .inr ⟨t, heq, before, after ++ [c], by simp, hrunT,
          hbefore, by simpa [hfalse, or_imp, forall_and] using hafter⟩

/-- **The selected thread has the smallest pass.** -/
theorem selected_le (h : selected s = some t) (hu : u ∈ s.queue) (hrun : s.running u = true) :
    (s.thread t).pass ≤ (s.thread u).pass := by
  rcases foldl_better_cases s (scanOrder s) with ⟨heq, -⟩ | ⟨t', heq, ht⟩ <;>
    rw [selected, heq] at h
  · cases h
  · rw [← Option.some.inj h]
    exact ht.le (mem_scanOrder.mpr hu) hrun

/-! ## Steps -/

/-- The thread a step selects. -/
def picks (s : State) : Event → Option Nat
  | .select => selected s
  | _ => none

/-- A thread that is made runnable without a catch-up is not below all the others. -/
def Fair (s : State) : Event → Prop
  | .resume t => ∃ c, Other s t c ∧ (s.thread c).pass ≤ (s.thread t).pass
  | .handOver t => ∃ c, Other s t c ∧ (s.thread c).pass ≤ (s.thread t).pass
  | _ => True

/-- What a step can do. -/
inductive Effect (s : State) : Event → State → Prop where
  | added {d : Nat} {v : ThreadState} (hfresh : s.added d = false)
      (hv : v = .pending ∨ s.queue = []) :
      Effect s (.addThread d v) (stSchedulerAddThread s d v)
  | removed {d : Nat} : Effect s (.removeThread d) (stSchedulerRemoveThread s d)
  | updated {d : Nat} {nowNs : UInt64} {s' : State} (h : CaughtUp s d s') :
      Effect s (.update d nowNs) s'
  | charged {d : Nat} (hsel : selected s = some d) : Effect s .select (s.charge d)
  | idle {e : Event} {k : Option Nat} (hpick : picks s e = none) :
      Effect s e { s with current := k }
  /-- No catch-up: whether the pass is high enough is up to fairness. -/
  | wrote {e : Event} {d : Nat} {v : Thread} (hpick : picks s e = none)
      (hpass : v.pass = (s.thread d).pass)
      (hwake : v.state = .running → (s.thread d).state = .running ∨
        (Fair s e → ∃ c, Other s d c ∧ (s.thread c).pass ≤ (s.thread d).pass)) :
      Effect s e (s.setThread d v)

theorem step_effect {e : Event} (h : step s e = some s') : Effect s e s' := by
  cases e with
  | addThread d v =>
    obtain ⟨hguard, ⟨⟩⟩ := Option.ite_none_right_eq_some.mp h
    exact .added hguard.1 hguard.2
  | removeThread d =>
    cases h
    exact .removed
  | update d nowNs =>
    cases h
    exact .updated (update_caughtUp s d nowNs)
  | select =>
    rw [step] at h
    cases hsel : selected s with
    | none =>
      rw [hsel] at h
      cases h
      exact .idle (k := s.current) hsel
    | some d =>
      rw [hsel] at h
      cases h
      exact .charged hsel
  | switchTo d =>
    cases h
    exact .idle rfl
  | suspend d v w l ms =>
    obtain ⟨hv, ⟨⟩⟩ := Option.ite_none_left_eq_some.mp h
    exact .wrote rfl rfl fun hrun => absurd hrun hv
  | resume d =>
    cases h
    exact .wrote rfl rfl fun _ => .inr id
  | handOver d =>
    rw [step] at h
    split at h
    · cases h
      exact .wrote rfl rfl fun _ => .inr id
    · cases h
      exact .wrote rfl rfl .inl

/-- What a step does to a thread that has been added: only its selection and its own events
write it, and only its selection charges it. -/
theorem step_thread {e : Event} (hadded : s.added c = true) (h : step s e = some s') :
    s'.added c = true ∧
      ((picks s e = some c ∧ s' = s.charge c) ∨
       (picks s e ≠ some c ∧ (s.thread c).pass ≤ (s'.thread c).pass ∧
        (s.running c = true → s'.running c = true → (s'.thread c).pass = (s.thread c).pass))) := by
  -- a step that writes nothing of the pass
  have hkeep : ∀ s' : State, picks s e ≠ some c → (s'.thread c).pass = (s.thread c).pass →
      picks s e ≠ some c ∧ (s.thread c).pass ≤ (s'.thread c).pass ∧
        (s.running c = true → s'.running c = true → (s'.thread c).pass = (s.thread c).pass) :=
    fun s' hpick hpass => ⟨hpick, hpass ▸ UInt64.le_refl _, fun _ _ => hpass⟩
  have hother : ∀ d v, c ≠ d → ((s.setThread d v).thread c).pass = (s.thread c).pass :=
    fun d v hd => by rw [setThread_of_ne s v hd]
  cases step_effect h with
  | @added d v hfresh hv =>
    have hd : c ≠ d := fun heq => by rw [heq, hfresh] at hadded; simp at hadded
    refine ⟨?_, .inr (hkeep _ (by simp [picks]) (hother d _ hd))⟩
    simpa [stSchedulerAddThread, hd] using hadded
  | removed => exact ⟨hadded, .inr (hkeep _ (by simp [picks]) rfl)⟩
  | @updated d _ _ hcaught =>
    obtain ⟨v, rfl, hle, hrun, -⟩ := hcaught
    refine ⟨hadded, .inr ?_⟩
    by_cases hd : c = d
    · subst hd
      rw [setThread_self]
      exact ⟨by simp [picks], hle, fun h _ => by rw [hrun (by simpa [State.running] using h)]⟩
    · exact hkeep _ (by simp [picks]) (hother d v hd)
  | @charged d hsel =>
    refine ⟨hadded, ?_⟩
    by_cases hd : c = d
    · subst hd
      exact .inl ⟨hsel, rfl⟩
    · exact .inr (hkeep _ (by simpa [picks, hsel] using Ne.symm hd) (hother d _ hd))
  | idle hpick => exact ⟨hadded, .inr (hkeep _ (by simp [hpick]) rfl)⟩
  | @wrote _ d v hpick hpass hwake =>
    refine ⟨hadded, .inr (hkeep _ (by simp [hpick]) ?_)⟩
    by_cases hd : c = d
    · rw [hd, setThread_self, hpass]
    · exact hother d v hd

/-- Only two events write the queue. -/
theorem step_queue {e : Event} (h : step s e = some s') :
    (s'.queue = s.queue ∧ s'.added = s.added) ∨
    (∃ d v, e = .addThread d v ∧ s.added d = false ∧ s' = stSchedulerAddThread s d v) ∨
    ∃ d, e = .removeThread d ∧ s' = stSchedulerRemoveThread s d := by
  cases step_effect h with
  | @added d v hfresh hv => exact .inr (.inl ⟨d, v, rfl, hfresh, rfl⟩)
  | @removed d => exact .inr (.inr ⟨d, rfl, rfl⟩)
  | updated hcaught =>
    obtain ⟨v, rfl, -⟩ := hcaught
    exact .inl ⟨rfl, rfl⟩
  | charged hsel => exact .inl ⟨rfl, rfl⟩
  | idle hpick => exact .inl ⟨rfl, rfl⟩
  | wrote hpick hpass hwake => exact .inl ⟨rfl, rfl⟩

/-- A thread is in the queue once at most, and has been added if it is. -/
theorem reachable_queue (h : Reachable s) : s.queue.Nodup ∧ ∀ c ∈ s.queue, s.added c = true := by
  induction h with
  | init => exact ⟨List.nodup_nil, fun c hc => absurd hc List.not_mem_nil⟩
  | step e _ hstep ih =>
    obtain ⟨hnd, hin⟩ := ih
    rcases step_queue hstep with ⟨hq, ha⟩ | ⟨d, v, -, hfresh, rfl⟩ | ⟨d, -, rfl⟩
    · rw [hq, ha]
      exact ⟨hnd, hin⟩
    · refine ⟨hnd.append (List.nodup_singleton d) ?_, fun c hc => ?_⟩
      · intro c hc hd
        rw [List.mem_singleton.mp hd] at hc
        rw [hin d hc] at hfresh
        simp at hfresh
      · by_cases hcd : c = d
        · simp [stSchedulerAddThread, hcd]
        · rcases List.mem_append.mp hc with hc | hc
          · simpa [stSchedulerAddThread, hcd] using hin c hc
          · exact absurd (List.mem_singleton.mp hc) hcd
    · exact ⟨hnd.erase d, fun c hc => hin c (List.mem_of_mem_erase hc)⟩

/-! ## Turns -/

/-- How often a thread is selected. -/
def turns (t : Nat) : List Event → State → Nat
  | [], _ => 0
  | e :: es, s =>
    (if picks s e = some t then 1 else 0) +
      match step s e with
      | some s' => turns t es s'
      | none => 0

/-- Thread `u` stays runnable and is not selected. -/
def passedOver (u : Nat) : List Event → State → Bool
  | [], s => decide (u ∈ s.queue) && s.running u
  | e :: es, s => decide (u ∈ s.queue) && s.running u && decide (picks s e ≠ some u) &&
      match step s e with
      | some s' => passedOver u es s'
      | none => true

theorem passedOver_here {es : List Event} (h : passedOver u es s = true) :
    u ∈ s.queue ∧ s.running u = true := by
  cases es with
  | nil => simpa [passedOver] using h
  | cons e es =>
    simp only [passedOver, Bool.and_eq_true, decide_eq_true_eq] at h
    exact h.1.1

theorem charge_pass (h : (s.thread t).pass ≠ maxPass) :
    ((s.charge t).thread t).pass.toNat = (s.thread t).pass.toNat + 1 := by
  have hlt := (s.thread t).pass.toNat_lt
  have hne : (s.thread t).pass.toNat ≠ 2 ^ 64 - 1 := fun heq => h (UInt64.toNat_inj.mp heq)
  rw [State.charge, setThread_self]
  rw [UInt64.toNat_add, Nat.mod_eq_of_lt (by simp; omega)]
  rfl

/-- While `u` waits, every turn of `t` brings its pass closer to the one of `u`. -/
theorem turns_le (es : List Event) :
    ∀ s, s.added t = true → s.added u = true → u ≠ t → (s.thread u).pass ≠ maxPass →
    passedOver u es s = true →
      turns t es s = 0 ∨ (s.thread t).pass.toNat + turns t es s ≤ (s.thread u).pass.toNat + 1 := by
  induction es with
  | nil => exact fun s _ _ _ _ _ => .inl rfl
  | cons e es ih =>
    intro s ht hu hne hmax hp
    simp only [passedOver, Bool.and_eq_true, decide_eq_true_eq] at hp
    obtain ⟨⟨⟨hqueue, hrun⟩, hpick⟩, hp'⟩ := hp
    rw [turns]
    cases hstep : step s e with
    | none =>
      -- an impossible step selects nobody
      have hnone : picks s e ≠ some t := by
        cases e with
        | select =>
          simp only [step] at hstep
          split at hstep <;> simp at hstep
        | _ => simp [picks]
      exact .inl (by simp [hnone])
    | some s' =>
      rw [hstep] at hp'
      obtain ⟨hu', hcase⟩ := step_thread hu hstep
      have hpassU : (s'.thread u).pass = (s.thread u).pass := by
        rcases hcase with ⟨h, -⟩ | ⟨-, -, h⟩
        · exact absurd h hpick
        · exact h hrun (passedOver_here hp').2
      obtain ⟨ht', hcase⟩ := step_thread ht hstep
      have hih := ih s' ht' hu' hne (hpassU ▸ hmax) hp'
      rw [hpassU] at hih
      dsimp only
      rcases hcase with ⟨hsel, rfl⟩ | ⟨hsel, hle, -⟩
      · -- a turn of `t`
        have hle : (s.thread t).pass ≤ (s.thread u).pass := by
          cases e with
          | select => exact selected_le hsel hqueue hrun
          | _ => simp [picks] at hsel
        have hleNat := UInt64.le_iff_toNat_le.mp hle
        have hpass : (s.thread t).pass ≠ maxPass := by
          intro heq
          rw [heq] at hle
          exact hmax (UInt64.le_antisymm (UInt64.le_iff_toNat_le.mpr
            (Nat.le_of_lt_succ (s.thread u).pass.toNat_lt)) hle)
        rw [charge_pass hpass] at hih
        rw [if_pos hsel]
        omega
      · have hleNat := UInt64.le_iff_toNat_le.mp hle
        rw [if_neg hsel]
        omega

/-- The passes of the other runnable threads. -/
def otherPasses (s : State) (t : Nat) : Set Nat :=
  {p | ∃ c, Other s t c ∧ p = (s.thread c).pass.toNat}

theorem Other.setThread {v : Thread} (h : Other s t c) : Other (s.setThread t v) t c :=
  ⟨h.1, h.2.1, by rw [running_congr (setThread_of_ne s v h.2.1)]; exact h.2.2⟩

theorem Other.of_setThread {v : Thread} (h : Other (s.setThread t v) t c) : Other s t c :=
  ⟨h.1, h.2.1, by rw [← running_congr (setThread_of_ne s v h.2.1)]; exact h.2.2⟩

/-- A thread that becomes runnable by a fair step is not below the smallest other pass. -/
theorem wake_pass {e : Event} (hstep : step s e = some s') (hnot : s.running t = false)
    (hrun : s'.running t = true) (hu : Other s' t u) (hmax : (s'.thread u).pass ≠ maxPass)
    (hm : IsLeast (otherPasses s' t) m) (hfair : Fair s e) : m ≤ (s'.thread t).pass.toNat := by
  have hkeep : s'.thread t ≠ s.thread t := fun heq => by
    rw [running_congr heq, hnot] at hrun
    simp at hrun
  have hstate : (s.thread t).state ≠ .running := by simpa [State.running] using hnot
  -- a step that writes a thread writes `t`
  have hself : ∀ {d : Nat} {v : Thread}, s' = s.setThread d v → t = d := by
    rintro d v rfl
    by_contra hd
    exact hkeep (setThread_of_ne s v hd)
  cases step_effect hstep with
  | @added d v hfresh hv =>
    have hd : t = d := by
      by_contra hd
      exact hkeep (setThread_of_ne s _ hd)
    subst hd
    rcases hv with rfl | hempty
    · simp [State.running, stSchedulerAddThread] at hrun
    · have := hu.1
      simp [stSchedulerAddThread, hempty] at this
      exact absurd this hu.2.1
  | removed => exact absurd rfl hkeep
  | @updated d _ _ hcaught =>
    obtain ⟨v, rfl, -, -, hcatch⟩ := hcaught
    obtain rfl := hself rfl
    have hu' := hu.of_setThread
    have hmin : getMinRunnablePass s t ≠ maxPass := by
      intro hmin
      have hle := getMinRunnablePass_le hu'
      rw [hmin] at hle
      rw [setThread_of_ne s v hu.2.1] at hmax
      exact hmax (UInt64.le_antisymm (UInt64.le_iff_toNat_le.mpr
        (Nat.le_of_lt_succ (s.thread u).pass.toNat_lt)) hle)
    have hle := hcatch hstate (by simpa [State.running] using hrun) hmin
    obtain ⟨c, hc, rfl⟩ := hm.1
    rw [setThread_self]
    refine le_trans ?_ (UInt64.le_iff_toNat_le.mp hle)
    refine le_getMinRunnablePass fun d hd => ?_
    have := hm.2 ⟨d, hd.setThread, rfl⟩
    rw [setThread_of_ne s v hd.2.1] at this
    exact UInt64.le_iff_toNat_le.mpr this
  | @charged d hsel =>
    obtain rfl := hself rfl
    exact absurd (by simpa [State.running, State.charge] using hrun) hstate
  | idle hpick => exact absurd rfl hkeep
  | @wrote _ d v hpick hpass hwake =>
    obtain rfl := hself rfl
    obtain ⟨c, hc, hle⟩ :=
      (hwake (by simpa [State.running] using hrun)).resolve_left hstate hfair
    have hmem := hm.2 ⟨c, hc.setThread, rfl⟩
    rw [setThread_of_ne s v hc.2.1] at hmem
    rw [setThread_self, hpass]
    exact hmem.trans (UInt64.le_iff_toNat_le.mp hle)

/-- **No backlog of turns.** A thread `t` that becomes runnable by a fair step, when the
smallest pass of the other runnable threads is `m`, is selected at most `pass u - m + 1`
times while `u` stays runnable and waits. -/
theorem turns_bounded (s s' : State) (e : Event) (es : List Event) (t u m : Nat) (hs : Reachable s)
    (hstep : step s e = some s') (hnot : s.running t = false) (hrun : s'.running t = true)
    (ht : t ∈ s'.queue) (hne : u ≠ t) (hmax : (s'.thread u).pass ≠ maxPass)
    (hm : IsLeast (otherPasses s' t) m) (hfair : Fair s e) (hes : passedOver u es s' = true) :
    turns t es s' ≤ (s'.thread u).pass.toNat - m + 1 := by
  obtain ⟨huq, hurun⟩ := passedOver_here hes
  have hu : Other s' t u := ⟨huq, hne, hurun⟩
  have hadded := (reachable_queue (hs.step e hstep)).2
  have hwake := wake_pass hstep hnot hrun hu hmax hm hfair
  rcases turns_le es s' (hadded t ht) (hadded u huq) hne hmax hes with h | h <;> omega

/-- The main thread, and thread 1 off the processor while the main thread is selected until its
pass is 5. -/
def mainAlone (v : ThreadState) : List Event :=
  [.addThread 0 .running, .switchTo 0, .addThread 1 .pending, .update 1 0, .suspend 1 v 10 none 0,
    .select, .select, .select, .select, .select]

/-- With the main thread as the only other one, its pass is the smallest. -/
theorem isLeast_main (hq : s.queue = [0, 1]) (hrun : s.running 0 = true) :
    IsLeast (otherPasses s 1) (s.thread 0).pass.toNat := by
  refine ⟨⟨0, ⟨by simp [hq], by decide, hrun⟩, rfl⟩, ?_⟩
  rintro p ⟨c, ⟨hc, hne, -⟩, rfl⟩
  rw [hq] at hc
  have hc0 : c = 0 := by simpa [hne] using hc
  rw [hc0]

/-- The end of a sleep: thread 1 catches up and has one turn before the main thread. -/
theorem turns_bounded_sleeper :
    ∃ s s', Reachable s ∧ step s (.update 1 20) = some s' ∧ s'.running 1 = true ∧
      turns 1 [.select] s' ≤ 5 - 5 + 1 := by
  have hrun : ((mainAlone .sleeping).foldlM step initialState).bind (fun s =>
      (step s (.update 1 20)).map fun s' => (s'.queue, s.running 1, s'.running 1, s'.running 0,
        (s'.thread 0).pass, passedOver 0 [.select] s')) =
          some ([0, 1], false, true, true, 5, true) := by
    decide +kernel
  simp only [Option.bind_eq_some_iff, Option.map_eq_some_iff, Prod.mk.injEq] at hrun
  obtain ⟨s, hs, s', hs', hq, hnot, hrun1, hrun0, hpass, hes⟩ := hrun
  have hreach := foldlM_invariant (fun _ e _ => Reachable.step e) _ .init hs
  have hm := isLeast_main hq hrun0
  have hbound :=
    turns_bounded s s' (.update 1 20) [.select] 1 0 _ hreach hs' hnot hrun1 (by simp [hq])
    (by decide) (by rw [hpass]; decide) hm trivial hes
  rw [hpass] at hbound
  exact ⟨s, s', hreach, hs', hrun1, hbound⟩

/-- A mutex hands over to thread 1, whose pass is still 0: it has two turns and more where one
is allowed. -/
theorem handOver_diverges :
    ∃ s s' m, Reachable s ∧ step s (.handOver 1) = some s' ∧ s.running 1 = false ∧
    s'.running 1 = true ∧
      1 ∈ s'.queue ∧ IsLeast (otherPasses s' 1) m ∧ passedOver 0 [.select, .select] s' = true ∧
      ¬turns 1 [.select, .select] s' ≤ (s'.thread 0).pass.toNat - m + 1 := by
  have hrun : ((mainAlone .blocking).foldlM step initialState).bind (fun s =>
      (step s (.handOver 1)).map fun s' => (s'.queue, s.running 1, s'.running 1, s'.running 0,
        passedOver 0 [.select, .select] s', turns 1 [.select, .select] s')) =
          some ([0, 1], false, true, true, true, 2) := by
    decide +kernel
  simp only [Option.bind_eq_some_iff, Option.map_eq_some_iff, Prod.mk.injEq] at hrun
  obtain ⟨s, hs, s', hs', hq, hnot, hrun1, hrun0, hes, hturns⟩ := hrun
  refine ⟨s, s', _, foldlM_invariant (fun _ e _ => Reachable.step e) _ .init hs, hs', hnot,
    hrun1, by simp [hq], isLeast_main hq hrun0, hes, ?_⟩
  omega

/-! ## Waiting -/

/-- While `u` waits, each selection is a turn of another queued thread. -/
theorem selections_le {l : List Nat} (es : List Event) :
    ∀ s, es.foldlM step s = some s' → (∀ t v, .addThread t v ∉ es) → passedOver u es s = true →
      (∀ c ∈ s.queue, c = u ∨ c ∈ l) →
      es.countP (· matches .select) ≤ (l.map (turns · es s)).sum := by
  induction es with
  | nil => exact fun s _ _ _ _ => Nat.zero_le _
  | cons e es ih =>
    intro s hrun hnew hp hl
    rw [List.foldlM_cons] at hrun
    obtain ⟨s1, hstep, hrun⟩ := Option.bind_eq_some_iff.mp hrun
    simp only [passedOver, hstep, Bool.and_eq_true, decide_eq_true_eq] at hp
    obtain ⟨⟨⟨hqueue, hu⟩, hpick⟩, hp⟩ := hp
    have hl1 : ∀ c ∈ s1.queue, c = u ∨ c ∈ l := by
      rcases step_queue hstep with ⟨hq, -⟩ | ⟨d, v, rfl, -⟩ | ⟨d, -, rfl⟩
      · rwa [hq]
      · exact absurd List.mem_cons_self (hnew d v)
      · exact fun c hc => hl c (List.mem_of_mem_erase hc)
    have hrest := ih s1 hrun (fun t v h => hnew t v (List.mem_cons_of_mem e h)) hp hl1
    simp only [turns, hstep, List.sum_map_add, List.countP_cons]
    cases e with
    | select =>
      -- `u` is runnable, so there is a choice
      rcases foldl_better_cases s (scanOrder s) with ⟨-, hnone⟩ | ⟨t, heq, before, after, ho, -⟩
      · exact absurd (hnone u (mem_scanOrder.mpr hqueue)) (by simp [hu])
      have hsel : picks s .select = some t := by simp [picks, selected, heq]
      have ht : t ∈ l :=
        (hl t (mem_scanOrder.mp (by simp [ho]))).resolve_left fun h => hpick (h ▸ hsel)
      have hone : 1 ≤ (l.map fun x => if picks s .select = some x then 1 else 0).sum :=
        List.single_le_sum (by simp) 1 (List.mem_map.mpr ⟨t, ht, if_pos hsel⟩)
      rw [if_pos rfl]
      omega
    | _ => simpa [picks] using hrest

/-- **No starvation.** In a run that adds no thread, a runnable thread `u` waits for at most
`pass u + 1 - pass t` selections for each other thread `t` of the queue. -/
theorem selections_bounded (es : List Event) (hs : Reachable s)
    (hrun : es.foldlM step s = some s') (hnew : ∀ t v, .addThread t v ∉ es)
    (hmax : (s.thread u).pass ≠ maxPass) (hes : passedOver u es s = true) :
    es.countP (· matches .select) ≤
      ((s.queue.erase u).map fun t =>
        (s.thread u).pass.toNat + 1 - (s.thread t).pass.toNat).sum := by
  obtain ⟨hnd, hadded⟩ := reachable_queue hs
  refine (selections_le (l := s.queue.erase u) es s hrun hnew hes fun c hc => ?_).trans
    (List.sum_le_sum fun t ht => ?_)
  · exact or_iff_not_imp_left.mpr fun h => (List.mem_erase_of_ne h).mpr hc
  · obtain ⟨hne, hmem⟩ := hnd.mem_erase_iff.mp ht
    have := turns_le es s (hadded t hmem) (hadded u (passedOver_here hes).1) (Ne.symm hne) hmax hes
    omega

/-- A new thread has its turn first. -/
theorem selections_bounded_main : ∃ s :
    State, Reachable s ∧ [Event.select].countP (· matches .select) ≤
    ((s.queue.erase 0).map fun t => (s.thread 0).pass.toNat + 1 - (s.thread t).pass.toNat).sum := by
  have hs := Reachable.step (.update 1 0) (.step (.addThread 1 .pending)
    (.step (.switchTo 0) (.step (.addThread 0 .running) .init rfl) rfl) rfl) rfl
  exact ⟨_, hs, selections_bounded [.select] hs rfl (by simp) (by decide) (by decide)⟩

/-! ## `StScheduler_GetNextThread` -/

/-- `update_runnable_state` for each of a list of threads. -/
def updateAll (nowNs : UInt64) (l : List Nat) (s : State) : State :=
  l.foldl (fun s c => updateRunnableState s c nowNs) s

theorem updateAll_frame (nowNs : UInt64) (l : List Nat) :
    ∀ s, (updateAll nowNs l s).queue = s.queue ∧ (updateAll nowNs l s).current = s.current ∧
      ∀ c ∉ l, (updateAll nowNs l s).thread c = s.thread c := by
  induction l with
  | nil => exact fun s => ⟨rfl, rfl, fun _ _ => rfl⟩
  | cons a l ih =>
    intro s
    obtain ⟨v, heq, -⟩ := update_caughtUp s a nowNs
    obtain ⟨hq, hc, ht⟩ := ih (updateRunnableState s a nowNs)
    rw [heq] at hq hc ht
    refine ⟨?_, ?_, fun c hcl => ?_⟩
    · rw [updateAll, List.foldl_cons, heq]
      exact hq
    · rw [updateAll, List.foldl_cons, heq]
      exact hc
    · rw [updateAll, List.foldl_cons, heq]
      have hne : c ≠ a := fun h => hcl (h ▸ List.mem_cons_self)
      exact (ht c fun h => hcl (List.mem_cons_of_mem a h)).trans (setThread_of_ne s v hne)

theorem scanOrder_congr (hq : s'.queue = s.queue) (hc : s'.current = s.current) :
    scanOrder s' = scanOrder s := by
  simp only [scanOrder, hq, hc]

theorem better_congr (best : Option (Nat × UInt64)) (h : s'.thread c = s.thread c) :
    better s' best c = better s best c := by
  simp only [better, running_congr h, h]

/-- The scan is a round of updates and then a choice. -/
theorem scan_eq (nowNs : UInt64) (l : List Nat) :
    ∀ s best, l.Nodup →
      scan nowNs l s best = (updateAll nowNs l s, l.foldl (better (updateAll nowNs l s)) best) := by
  induction l with
  | nil => exact fun s best _ => rfl
  | cons a l ih =>
    intro s best hnd
    obtain ⟨ha, hnd⟩ := List.nodup_cons.mp hnd
    have hsame := (updateAll_frame nowNs l (updateRunnableState s a nowNs)).2.2 a ha
    rw [scan, ih _ _ hnd, List.foldl_cons]
    have hall : updateAll nowNs (a :: l) s = updateAll nowNs l (updateRunnableState s a nowNs) :=
      rfl
    rw [hall, better_congr best hsame]

theorem foldlM_update (nowNs : UInt64) (l : List Nat) :
    ∀ s, (l.map (Event.update · nowNs)).foldlM step s = some (updateAll nowNs l s) := by
  induction l with
  | nil => exact fun s => rfl
  | cons a l ih => exact fun s => ih (updateRunnableState s a nowNs)

/-- **`StScheduler_GetNextThread` is a run of steps**: an update for each thread of the queue,
then the selection. -/
theorem getNextThread_run (hs : Reachable s) (nowNs : UInt64) :
    ∃ s1, ((scanOrder s).map (Event.update · nowNs)).foldlM step s = some s1 ∧
      step s1 .select = some (stSchedulerGetNextThread s nowNs).1 ∧
      selected s1 = (stSchedulerGetNextThread s nowNs).2 := by
  have hnd : (scanOrder s).Nodup := (scanOrder_perm s).nodup_iff.mpr (reachable_queue hs).1
  obtain ⟨hq, hc, -⟩ := updateAll_frame nowNs (scanOrder s) s
  have horder : scanOrder (updateAll nowNs (scanOrder s) s) = scanOrder s := scanOrder_congr hq hc
  refine ⟨_, foldlM_update nowNs _ s, ?_⟩
  simp only [step, selected, stSchedulerGetNextThread, selectNextRunnableThread,
    scan_eq _ _ _ _ hnd, horder]
  cases (scanOrder s).foldl (better (updateAll nowNs (scanOrder s) s)) none with
  | none => exact ⟨rfl, rfl⟩
  | some b => exact ⟨rfl, rfl⟩

end FoliOS.Strata.Sched
