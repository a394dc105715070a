import Mathlib.Algebra.Group.Nat.Defs
import Mathlib.Order.Nat

/-!
# Strata — the HPET main counter (`arch/amd64/pc/hpet.c`, `time.c`)

`StHpetP_GetMainCounter` reads the counter register and, if that has 32 bits only,
extends the sample under a lock by the value it remembers; the result is read from
that variable again after the lock is released. Callers interleave at these points.
The mask `~UINT32_C(0xFFFFFFFF)` is computed in 32 bits and is 0, so that nothing is
left of the upper half (`extendCounter_eq`).

`run_bracketed_iff`: the calls of a run return a value between the tick counts at
their start and at their end exactly if every sample that is returned, reduced to the
width of the register, is not from before the call.
-/

namespace FoliOS.Strata.Time

/-! ## The code -/

/-- `get_raw_main_counter`, `now` ticks after `StHpetP_Init` has set the counter to 0. -/
def getRawMainCounter (is64bit : Bool) (now : Nat) : BitVec 64 :=
  if is64bit then BitVec.ofNat 64 now else (BitVec.ofNat 32 now).setWidth 64

/-- `~UINT32_C(0xFFFFFFFF)`, as an operand of a 64-bit `&`. -/
def upperMask : BitVec 64 := (~~~(0xFFFFFFFF : BitVec 32)).setWidth 64

/-- The locked section of `StHpetP_GetMainCounter`: the new `hpet_last_counter_value`. -/
def extendCounter (last raw : BitVec 64) : BitVec 64 :=
  let last := if raw.setWidth 32 < last.setWidth 32 then last + 1#64 <<< 32 else last
  (last &&& upperMask) ||| (raw.setWidth 32).setWidth 64

/-- `StTimeP_GetUptimeNanoseconds` from the counter value on. -/
def uptimeNanoseconds (startCounter : BitVec 64) (freq : Nat) (current : BitVec 64) : Nat :=
  (current - startCounter).toNat * 1000000000 / freq % 2 ^ 64

/-- Where a caller is in `StHpetP_GetMainCounter`, with the tick count at its start and
the one of its sample. -/
inductive Phase where
  | idle
  | entered (start : Nat)
  | sampled (start sample : Nat) (raw : BitVec 64)
  | stored (start : Nat)

/-- A call that has returned: tick counts at its start and end, and the value. -/
structure Completed where
  start : Nat
  value : BitVec 64
  stop : Nat
  deriving DecidableEq

/-- `lastAt` is the tick count of the sample in `hpet_last_counter_value`, `readAt` that of
the last read of the register. -/
structure State where
  now : Nat
  last : BitVec 64
  lastAt : Nat
  readAt : Nat
  phase : Nat → Phase
  completed : List Completed

/-- After `StHpetP_Init`. -/
def initialState : State := ⟨0, 0, 0, 0, fun _ => .idle, []⟩

inductive Event where
  | advance (ticks : Nat)
  | enter (i : Nat)
  | sample (i : Nat)
  | store (i : Nat)
  | finish (i : Nat)

def State.setPhase (s : State) (i : Nat) (p : Phase) : State :=
  { s with phase := Function.update s.phase i p }

/-- One atomic step. The counter advances by at most `2 ^ 32 - 1` ticks between reads. -/
def step (is64bit : Bool) (s : State) : Event → Option State
  | .advance ticks =>
    if s.now + ticks ≤ s.readAt + (2 ^ 32 - 1) then some { s with now := s.now + ticks } else none
  | .enter i =>
    match s.phase i with
    | .idle => some (s.setPhase i (.entered s.now))
    | _ => none
  | .sample i =>
    match s.phase i with
    | .entered start =>
      let raw := getRawMainCounter is64bit s.now
      let s := { s with readAt := s.now }.setPhase i (.sampled start s.now raw)
      some (if is64bit then { s with last := raw, lastAt := s.now } else s)
    | _ => none
  | .store i =>
    match s.phase i with
    | .sampled start sample raw =>
      if is64bit then none
      else some ({ s with last := extendCounter s.last raw, lastAt := sample }.setPhase i
        (.stored start))
    | _ => none
  | .finish i =>
    match s.phase i with
    | .sampled start _ raw =>
      -- the 64-bit path returns its own sample
      if is64bit then
        some ({ s with completed := ⟨start, raw, s.now⟩ :: s.completed }.setPhase i .idle)
      else none
    | .stored start =>
        some ({ s with completed := ⟨start, s.last, s.now⟩ :: s.completed }.setPhase i .idle)
    | _ => none

def run (is64bit : Bool) : List Event → State → Option State
  | [], s => some s
  | e :: es, s => (step is64bit s e).bind (run is64bit es)

/-! ## What is asked of it -/

/-- Every call has returned a value between the tick counts at its start and its end. -/
def Bracketed (s : State) : Prop :=
  ∀ c ∈ s.completed, c.start ≤ c.value.toNat ∧ c.value.toNat ≤ c.stop

/-- The width of the register. -/
def counterWidth (is64bit : Bool) : Nat := if is64bit then 64 else 32

/-- The sample a returning call gives back, reduced to the width of the register, is not
from before the call. -/
def Timely (is64bit : Bool) (s : State) : Event → Prop
  | .finish i =>
    match s.phase i with
    | .sampled start sample _ => start ≤ sample % 2 ^ counterWidth is64bit
    | .stored start => start ≤ s.lastAt % 2 ^ counterWidth is64bit
    | _ => True
  | _ => True

def TimelyRun (is64bit : Bool) : List Event → State → Prop
  | [], _ => True
  | e :: es, s => Timely is64bit s e ∧ ∀ s', step is64bit s e = some s' → TimelyRun is64bit es s'

/-- Uptime never goes back: `c₀` is the call that fixed the start of uptime, and `c₁` ended
before `c₂` began. -/
def UptimeMonotone (freq : Nat) (s : State) : Prop :=
  ∀ c₀ ∈ s.completed, ∀ c₁ ∈ s.completed, ∀ c₂ ∈ s.completed, c₀.stop ≤ c₁.start →
  c₁.stop ≤ c₂.start →
    uptimeNanoseconds c₀.value freq c₁.value ≤ uptimeNanoseconds c₀.value freq c₂.value

/-! ## Values -/

/-- The remembered upper half is masked away: the new value is the sample. -/
theorem extendCounter_eq (last raw : BitVec 64) :
    extendCounter last raw = (raw.setWidth 32).setWidth 64 := by
  have hmask : upperMask = 0#64 := by decide
  simp only [extendCounter, hmask, BitVec.and_zero, BitVec.zero_or]

theorem getRawMainCounter_toNat (is64bit : Bool) (now : Nat) :
    (getRawMainCounter is64bit now).toNat = now % 2 ^ counterWidth is64bit := by
  cases is64bit with
  | true => exact BitVec.toNat_ofNat now 64
  | false =>
    have hlt : now % 2 ^ 32 < 2 ^ 64 := (Nat.mod_lt _ (by decide)).trans (by decide)
    simp only [getRawMainCounter, counterWidth, Bool.false_eq_true, if_false, BitVec.toNat_setWidth,
      BitVec.toNat_ofNat]
    exact Nat.mod_eq_of_lt hlt

/-- Extending a sample of a 32-bit register changes nothing. -/
theorem extendCounter_raw (last : BitVec 64) (now : Nat) :
    extendCounter last (getRawMainCounter false now) = getRawMainCounter false now := by
  rw [extendCounter_eq]
  apply BitVec.eq_of_toNat_eq
  have hlt := Nat.mod_lt now (by decide : 0 < 2 ^ 32)
  have hraw : (getRawMainCounter false now).toNat = now % 2 ^ 32 :=
    getRawMainCounter_toNat false now
  rw [BitVec.toNat_setWidth, BitVec.toNat_setWidth, hraw, Nat.mod_mod,
    Nat.mod_eq_of_lt (hlt.trans (by decide))]

/-! ## Steps -/

variable {is64bit : Bool} {s s' : State} {e : Event}

/-- A caller's sample is the register at some tick between its start and now. -/
def Phase.Ok (is64bit : Bool) (now : Nat) : Phase → Prop
  | .idle => True
  | .entered start => start ≤ now
  | .sampled start sample raw => start ≤ now ∧ sample ≤ now ∧ raw = getRawMainCounter is64bit sample
  | .stored start => start ≤ now ∧ is64bit = false

/-- The remembered value is the register at tick `lastAt`. -/
structure Inv (is64bit : Bool) (s : State) : Prop where
  last   : s.last = getRawMainCounter is64bit s.lastAt
  past   : s.lastAt ≤ s.now
  phases : ∀ i, (s.phase i).Ok is64bit s.now
  ended  : ∀ c ∈ s.completed, c.stop ≤ s.now

theorem Phase.Ok.later {p : Phase} {now now' : Nat} (h : p.Ok is64bit now) (hle : now ≤ now') :
    p.Ok is64bit now' := by
  cases p with
  | idle => trivial
  | entered start => exact h.trans hle
  | sampled start sample raw => exact ⟨h.1.trans hle, h.2.1.trans hle, h.2.2⟩
  | stored start => exact ⟨h.1.trans hle, h.2⟩

theorem setPhase_ok {p : Phase} {i : Nat} (h : ∀ j, (s.phase j).Ok is64bit s.now)
    (hp : p.Ok is64bit s.now) (j : Nat) : ((s.setPhase i p).phase j).Ok is64bit s.now := by
  by_cases hj : j = i
  · subst hj
    simpa [State.setPhase] using hp
  · simpa [State.setPhase, hj] using h j

theorem initialState_inv (is64bit : Bool) : Inv is64bit initialState := by
  refine ⟨?_, le_rfl, fun _ => trivial, fun c h => absurd h List.not_mem_nil⟩
  cases is64bit <;> rfl

/-- **A step keeps the invariant**, and a call that returns gives back a sample that is
not younger than its end. -/
theorem step_inv (hI : Inv is64bit s) (h : step is64bit s e = some s') :
    Inv is64bit s' ∧ (s'.completed = s.completed ∧ Timely is64bit s e ∨
      ∃ c, s'.completed = c :: s.completed ∧ c.value.toNat ≤ c.stop ∧
        (Timely is64bit s e ↔ c.start ≤ c.value.toNat)) := by
  cases e with
  | advance ticks =>
    obtain ⟨-, ⟨⟩⟩ := Option.ite_none_right_eq_some.mp h
    have hle := Nat.le_add_right s.now ticks
    exact ⟨⟨hI.last, hI.past.trans hle, fun i => (hI.phases i).later hle,
      fun c hc => (hI.ended c hc).trans hle⟩, .inl ⟨rfl, trivial⟩⟩
  | enter i =>
    simp only [step] at h
    split at h
    · cases h
      exact ⟨⟨hI.last, hI.past, setPhase_ok hI.phases (le_refl s.now), hI.ended⟩,
        .inl ⟨rfl, trivial⟩⟩
    · simp at h
  | sample i =>
    have hp := hI.phases i
    simp only [step] at h
    split at h
    · rename_i start hphase
      rw [hphase] at hp
      cases h
      have hok : (Phase.sampled start s.now (getRawMainCounter is64bit s.now)).Ok is64bit s.now :=
        ⟨hp, le_rfl, rfl⟩
      cases is64bit with
      | true => exact ⟨⟨rfl, le_rfl, setPhase_ok hI.phases hok, hI.ended⟩, .inl ⟨rfl, trivial⟩⟩
      | false => exact ⟨⟨hI.last, hI.past, setPhase_ok hI.phases hok, hI.ended⟩,
          .inl ⟨rfl, trivial⟩⟩
    · simp at h
  | store i =>
    have hp := hI.phases i
    simp only [step] at h
    split at h
    · rename_i start sample raw hphase
      rw [hphase] at hp
      cases is64bit with
      | true => simp at h
      | false =>
        cases h
        refine ⟨⟨?_, hp.2.1, setPhase_ok hI.phases ⟨hp.1, rfl⟩, hI.ended⟩, .inl ⟨rfl, trivial⟩⟩
        show extendCounter s.last raw = getRawMainCounter false sample
        rw [hp.2.2, extendCounter_raw]
    · simp at h
  | finish i =>
    have hp := hI.phases i
    simp only [step] at h
    split at h
    · -- the 64-bit path
      rename_i start sample raw hphase
      rw [hphase] at hp
      cases is64bit with
      | false => simp at h
      | true =>
        cases h
        have hval : raw.toNat = sample % 2 ^ 64 := by
          rw [hp.2.2, getRawMainCounter_toNat, counterWidth, if_pos rfl]
        refine ⟨⟨hI.last, hI.past, setPhase_ok hI.phases trivial, fun c hc => ?_⟩,
          .inr ⟨_, rfl, ?_, ?_⟩⟩
        · rcases List.mem_cons.mp hc with rfl | hc
          · exact le_rfl
          · exact hI.ended c hc
        · exact hval ▸ (Nat.mod_le _ _).trans hp.2.1
        · simp only [Timely, hphase, counterWidth, if_true, hval]
    · -- the value is read from the shared variable
      rename_i start hphase
      cases h
      have hval : s.last.toNat = s.lastAt % 2 ^ counterWidth is64bit := by
        rw [hI.last, getRawMainCounter_toNat]
      refine ⟨⟨hI.last, hI.past, setPhase_ok hI.phases trivial, fun c hc => ?_⟩,
        .inr ⟨_, rfl, ?_, ?_⟩⟩
      · rcases List.mem_cons.mp hc with rfl | hc
        · exact le_rfl
        · exact hI.ended c hc
      · exact hval ▸ (Nat.mod_le _ _).trans hI.past
      · simp only [Timely, hphase, hval]
    · simp at h

theorem run_bracketed {evs : List Event} :
    ∀ s s', Inv is64bit s → run is64bit evs s = some s' →
      (Bracketed s' ↔ Bracketed s ∧ TimelyRun is64bit evs s) := by
  induction evs with
  | nil =>
    intro s s' _ h
    cases h
    simp [TimelyRun]
  | cons e es ih =>
    intro s s' hI h
    simp only [run, Option.bind_eq_some_iff] at h
    obtain ⟨s1, hstep, h⟩ := h
    obtain ⟨hI1, hone⟩ := step_inv hI hstep
    have hrest : (∀ s2, step is64bit s e = some s2 → TimelyRun is64bit es s2) ↔
        TimelyRun is64bit es s1 := by
      simp [hstep]
    have hbr : Bracketed s1 ↔ Bracketed s ∧ Timely is64bit s e := by
      rcases hone with ⟨hsame, ht⟩ | ⟨c, hnew, hle, ht⟩
      · simp only [Bracketed, hsame, ht, and_true]
      · rw [ht, and_comm]
        simp only [Bracketed, hnew, List.forall_mem_cons, hle, and_true]
    rw [ih s1 s' hI1 h, hbr, TimelyRun, hrest, and_assoc]

/-! ## Uptime -/

theorem uptimeNanoseconds_mono {freq : Nat} {v0 v1 v2 : BitVec 64} (h0 : v0.toNat ≤ v1.toNat)
    (h1 : v1.toNat ≤ v2.toNat) (hlt : v2.toNat * 1000000000 / freq < 2 ^ 64) :
    uptimeNanoseconds v0 freq v1 ≤ uptimeNanoseconds v0 freq v2 := by
  have hsub : ∀ v : BitVec 64, v0.toNat ≤ v.toNat → (v - v0).toNat = v.toNat - v0.toNat :=
    fun v hv => BitVec.toNat_sub_of_le hv
  have hle :
      (v1.toNat - v0.toNat) * 1000000000 / freq ≤ (v2.toNat - v0.toNat) * 1000000000 / freq :=
    Nat.div_le_div_right (Nat.mul_le_mul_right _ (Nat.sub_le_sub_right h1 _))
  have hlt2 : (v2.toNat - v0.toNat) * 1000000000 / freq < 2 ^ 64 :=
    (Nat.div_le_div_right (Nat.mul_le_mul_right _ (Nat.sub_le _ _))).trans_lt hlt
  rw [uptimeNanoseconds, uptimeNanoseconds, hsub v1 h0, hsub v2 (h0.trans h1),
    Nat.mod_eq_of_lt hlt2, Nat.mod_eq_of_lt (hle.trans_lt hlt2)]
  exact hle

theorem Bracketed.uptimeMonotone {freq : Nat} (h : Bracketed s)
    (hlt : ∀ c ∈ s.completed, c.stop * 1000000000 / freq < 2 ^ 64) : UptimeMonotone freq s := by
  intro c0 h0 c1 h1 c2 h2 h01 h12
  obtain ⟨-, hv0⟩ := h c0 h0
  obtain ⟨hs1, hv1⟩ := h c1 h1
  obtain ⟨hs2, hv2⟩ := h c2 h2
  have hfits : c2.value.toNat * 1000000000 / freq < 2 ^ 64 :=
    (Nat.div_le_div_right (Nat.mul_le_mul_right _ hv2)).trans_lt (hlt c2 h2)
  exact uptimeNanoseconds_mono (by omega) (by omega) hfits

/-- **When the counter can be trusted.** In every interleaving of any number of callers, the
calls return values between the tick counts at their start and end exactly if every
return is timely; and then uptime never goes back while the ticks are few enough for 64 bits
of nanoseconds. -/
theorem run_bracketed_iff (is64bit : Bool) (freq : Nat) (evs : List Event) (s : State)
    (h : run is64bit evs initialState = some s) :
    (Bracketed s ↔ TimelyRun is64bit evs initialState) ∧
      (TimelyRun is64bit evs initialState →
        (∀ c ∈ s.completed, c.stop * 1000000000 / freq < 2 ^ 64) → UptimeMonotone freq s) := by
  have hiff : Bracketed s ↔ TimelyRun is64bit evs initialState := by
    rw [run_bracketed initialState s (initialState_inv is64bit) h]
    exact and_iff_right fun c hc => absurd hc List.not_mem_nil
  exact ⟨hiff, fun ht hlt => (hiff.mpr ht).uptimeMonotone hlt⟩

/-- One whole call of caller `i`, with nothing in between. -/
def wholeCall (i : Nat) : List Event := [.enter i, .sample i, .store i, .finish i]

/-- Two callers of a 32-bit counter whose samples are stored in the order they were taken. -/
theorem run_bracketed_iff_two :
    ∃ s, run false
      ([.advance 5, .enter 0, .enter 1, .sample 0, .advance 2, .store 0, .sample 1, .store 1,
        .finish 0, .finish 1]) initialState = some s ∧ Bracketed s ∧ UptimeMonotone 14318180 s := by
  have ht :
      TimelyRun false [.advance 5, .enter 0, .enter 1, .sample 0, .advance 2, .store 0, .sample 1,
      .store 1, .finish 0, .finish 1] initialState := by
    simp [TimelyRun, Timely, step, initialState, State.setPhase, counterWidth]
  have hrun :
      (run false [.advance 5, .enter 0, .enter 1, .sample 0, .advance 2, .store 0, .sample 1,
      .store 1, .finish 0, .finish 1] initialState).map State.completed =
        some [⟨5, 7, 7⟩, ⟨5, 7, 7⟩] := by
    decide +kernel
  obtain ⟨s, hs, hdone⟩ := Option.map_eq_some_iff.mp hrun
  obtain ⟨hiff, hmono⟩ := run_bracketed_iff false 14318180 _ s hs
  exact ⟨s, hs, hiff.mpr ht, hmono ht (by rw [hdone]; decide)⟩

/-- A 32-bit counter that wraps: the call right after the wrap returns 0, and uptime goes
back. -/
theorem wrapped_counter_diverges :
    ∃ s, run false (wholeCall 0 ++ [.advance (2 ^ 32 - 1)] ++ wholeCall 0 ++ [.advance 1] ++
      wholeCall 0)
        initialState = some s ∧ ¬Bracketed s ∧ ¬UptimeMonotone 14318180 s := by
  have hrun :
      (run false (wholeCall 0 ++ [.advance (2 ^ 32 - 1)] ++ wholeCall 0 ++ [.advance 1] ++
        wholeCall 0)
      initialState).map State.completed =
        some [⟨2 ^ 32, 0, 2 ^ 32⟩, ⟨2 ^ 32 - 1, 0xFFFFFFFF, 2 ^ 32 - 1⟩, ⟨0, 0, 0⟩] := by
          decide +kernel
  obtain ⟨s, hs, hdone⟩ := Option.map_eq_some_iff.mp hrun
  refine ⟨s, hs, fun h => ?_, fun h => ?_⟩
  · exact absurd (h ⟨2 ^ 32, 0, 2 ^ 32⟩ (by simp [hdone])) (by decide)
  · exact absurd (h ⟨0, 0, 0⟩ (by simp [hdone]) ⟨2 ^ 32 - 1, 0xFFFFFFFF, 2 ^ 32 - 1⟩
      (by simp [hdone])
      ⟨2 ^ 32, 0, 2 ^ 32⟩ (by simp [hdone]) (by decide) (by decide)) (by decide)

end FoliOS.Strata.Time
