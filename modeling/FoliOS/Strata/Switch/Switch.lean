import FoliOS.Strata.Switch.XState

/-!
# Strata — switching threads (`StThreadP_Switch`, `arch/amd64/pc/thread.c`)

A switch skips the `CR3` load, either `MSR` write or the FPU save where a comparison with
what is remembered says that nothing would change. `Inv` is what makes those comparisons
right: `CR3` holds the root of `current_asp`, every other thread is resumed in the state it was
switched out with, and the `MSR`s hold the bases of the running thread, or 0. The latter is
where the comparison goes wrong: `_StThreadP_UserThreadEntry` (`thread.S`), where a user thread
starts, loads `%fs` and `%gs` from a descriptor of base 0 whatever the stored bases are.

Threads, processes and address spaces are numbered. The accounting of run time in
`StScheduler_SwitchCurrentThread` and the page table frames that
`StAddressSpaceP_Switch` puts back into their cache are left out.

Main result: `run_switch`. `entry_clears_base` is a run in which a base gets lost.
-/

namespace FoliOS.Strata.Switch

open Function

/-! ## State -/

/-- `enum StThread_Type` -/
inductive ThreadType where
  | main
  | kernel
  | module
  | user
  deriving DecidableEq

/-- What a switch reads and writes of a `struct StThread`. -/
structure Thread where
  type : ThreadType
  process : Nat
  kmodeStackBaseVpn : BitVec 64
  kmodeStackPageCount : BitVec 64
  kmodeStackPtr : BitVec 64
  fsBase : BitVec 64
  gsBase : BitVec 64
  xstateBuffer : Option XStateBuffer

/-- What stays fixed: the address spaces and what boot found out about the processor. -/
structure Env where
  baseAsp : Nat
  /-- `asp->platform_data.root_table_pfn` -/
  rootTablePfn : Nat → BitVec 64
  /-- `process->address_space` -/
  addressSpace : Nat → Nat
  features : CpuFeatures
  cleanXstateBuffer : XStateBuffer

/-- The threads, the data of the CPU and its registers. -/
structure Machine where
  threads : Nat → Thread
  currentThread : Nat
  currentAsp : Nat
  kernelRsp : BitVec 64
  ctxswitchCount : Nat
  rsp0Low : BitVec 32
  rsp0High : BitVec 32
  cr3 : BitVec 64
  msrFsBase : BitVec 64
  msrKernelGsBase : BitVec 64
  regs : Regs

def Machine.setThread (s : Machine) (t : Nat) (th : Thread) : Machine :=
  { s with threads := update s.threads t th }

/-- `PAGE_TO_ADDR`, `FRAME_TO_ADDR` -/
def pageToAddr (p : BitVec 64) : BitVec 64 := p * 4096

/-- The top of a thread's kernel stack. -/
def Thread.kstackTop (th : Thread) : BitVec 64 :=
  pageToAddr (th.kmodeStackBaseVpn + th.kmodeStackPageCount)

/-! ## The functions -/

variable (env : Env)

/-- `StAddressSpaceP_Switch` -/
def addressSpaceSwitch (s : Machine) (asp : Nat) : StStatus × Machine :=
  (.success, { s with cr3 := pageToAddr (env.rootTablePfn asp), currentAsp := asp })

/-- `StP_SetTssStack` -/
def setTssStack (s : Machine) (kstack : BitVec 64) : Machine :=
  { s with rsp0High := (kstack >>> 32).setWidth 32, rsp0Low := kstack.setWidth 32 }

/-- The stack pointer the TSS holds. -/
def Machine.tssStack (s : Machine) : BitVec 64 := s.rsp0High ++ s.rsp0Low

/-- `StThreadP_SetFsBase` -/
def setFsBase (s : Machine) (th : Nat) (fsBase : BitVec 64) : StStatus × Machine :=
  let s := s.setThread th { s.threads th with fsBase := fsBase }
  if th = s.currentThread then (.success, { s with msrFsBase := fsBase }) else (.success, s)

/-- `StThreadP_SetGsBase` -/
def setGsBase (s : Machine) (th : Nat) (gsBase : BitVec 64) : StStatus × Machine :=
  let s := s.setThread th { s.threads th with gsBase := gsBase }
  if th = s.currentThread then (.success, { s with msrKernelGsBase := gsBase }) else (.success, s)

/-- `_StThreadP_UserThreadEntry`, where a user thread starts: the loads of `%fs` and, between
`swapgs` and the return to user mode, of `%gs` leave the base of the user data descriptor in both
registers. The next entry to the kernel swaps the latter into `MSR_KERNEL_GS_BASE`. -/
def userThreadEntry (s : Machine) : Machine := { s with msrFsBase := 0, msrKernelGsBase := 0 }

/-- The first part of `StThreadP_Switch`: the stack pointer and the registers of the
thread that is left. -/
def saveCurrent (s : Machine) (ctx inUse : BitVec 64) (alloc : StStatus) : StStatus × Machine :=
  let current := s.threads s.currentThread
  match saveThreadFpuSimdState env.features inUse alloc s.regs current.xstateBuffer with
  | (status, buffer) =>
    (status, s.setThread s.currentThread
      { current with kmodeStackPtr := ctx - 8, xstateBuffer := buffer })

/-- The address space part of `StThreadP_Switch`. -/
def switchAsp (s : Machine) (next currentAsp : Nat) : StStatus × Machine :=
  if (s.threads next).type = .user then
    addressSpaceSwitch env s (env.addressSpace (s.threads next).process)
  else if currentAsp ≠ env.baseAsp then addressSpaceSwitch env s env.baseAsp
  else (.success, s)

/-- The part of `StThreadP_Switch` that loads the registers of `next`. -/
def loadNext (s : Machine) (current next : Nat) : Machine :=
  let th := s.threads next
  let s := { s with
    regs := restoreThreadFpuSimdState env.features env.cleanXstateBuffer th.xstateBuffer s.regs }
  let s := { setTssStack s th.kstackTop with kernelRsp := th.kstackTop }
  let s := if th.fsBase ≠ (s.threads current).fsBase then { s with msrFsBase := th.fsBase } else s
  if th.gsBase ≠ (s.threads current).gsBase then { s with msrKernelGsBase := th.gsBase } else s

/-- `StScheduler_SwitchCurrentThread` for a thread that exists. -/
def schedulerSwitchCurrentThread (s : Machine) (th : Nat) : StStatus × Machine :=
  (.success, { s with currentThread := th })

/-- `StThreadP_Switch`, interrupted at `ctx`. `inUse` is what `XSAVE` reports and `alloc` what
the pool returns if a save area is asked for. The result is the status, the machine and, on
success, `*next_stack_ptr`. -/
def switch (s : Machine) (next : Nat) (ctx inUse : BitVec 64) (alloc : StStatus) :
    StStatus × Machine × Option (BitVec 64) :=
  let currentAsp := s.currentAsp
  let current := s.currentThread
  match saveCurrent env s ctx inUse alloc with
  | (status, s) =>
    if checkSuccess status = false then (status, s, none)
    else
      match switchAsp env s next currentAsp with
      | (status, s) =>
        if checkSuccess status = false then (status, s, none)
        else
          match schedulerSwitchCurrentThread (loadNext env s current next) next with
          | (status, s) =>
            if checkSuccess status = false then (status, s, none)
            else
              (.success, { s with ctxswitchCount := s.ctxswitchCount + 1 },
                some (s.threads next).kmodeStackPtr)

/-! ## Runs -/

/-- Boot: every base and both `MSR`s are 0, no thread has a save area, the base address
space is loaded, and the clean image has been taken. -/
structure Start (s : Machine) : Prop where
  fsBases : ∀ t, (s.threads t).fsBase = 0
  gsBases : ∀ t, (s.threads t).gsBase = 0
  msrFs   : s.msrFsBase = 0
  msrGs   : s.msrKernelGsBase = 0
  buffers : ∀ t, (s.threads t).xstateBuffer = none
  asp     : s.currentAsp = env.baseAsp
  cr3     : s.cr3 = pageToAddr (env.rootTablePfn env.baseAsp)
  clean   : ∃ r inUse inUseClean, Reports inUseClean (cleanRegs env.features r) ∧
    env.cleanXstateBuffer = (initializeFpuSimdState env.features inUse inUseClean r).1

/-- What is kept of the past of a run: the registers each thread had when it was last switched out,
the user threads that have started, and whether the start of one has cleared a base since the `MSR`
was last written. -/
structure History where
  out : Nat → Option Regs
  started : Nat → Bool
  fsCleared : Bool
  gsCleared : Bool

/-- A switch from a thread to another with the same base does not write the `MSR`. -/
def History.switched (p : History) (s : Machine) (next : Nat) : History :=
  { p with
    out := update p.out s.currentThread (some s.regs)
    fsCleared := p.fsCleared &&
      decide ((s.threads next).fsBase = (s.threads s.currentThread).fsBase)
    gsCleared := p.gsCleared &&
      decide ((s.threads next).gsBase = (s.threads s.currentThread).gsBase) }

/-- A run on one CPU. -/
inductive Run : Machine → History → Prop where
  | start {s : Machine} (h : Start env s) : Run s ⟨fun _ => none, fun _ => false, false, false⟩
  | compute {s : Machine} {p : History} (h : Run s p) (r : Regs) : Run { s with regs := r } p
  | enter {s : Machine} {p : History} (h : Run s p)
      (huser : (s.threads s.currentThread).type = .user)
        (hnew : p.started s.currentThread = false) :
      Run (userThreadEntry s)
        { p with
          started := update p.started s.currentThread true, fsCleared := true, gsCleared := true }
  | setFsBase {s : Machine} {p : History} (h : Run s p) (th : Nat) (fsBase : BitVec 64) :
      Run (setFsBase s th fsBase).2
        { p with fsCleared := p.fsCleared && decide (th ≠ s.currentThread) }
  | setGsBase {s : Machine} {p : History} (h : Run s p) (th : Nat) (gsBase : BitVec 64) :
      Run (setGsBase s th gsBase).2
        { p with gsCleared := p.gsCleared && decide (th ≠ s.currentThread) }
  | switched {s s' : Machine} {p : History} {next : Nat} {ctx inUse : BitVec 64}
      {alloc status : StStatus} {nextStackPtr : Option (BitVec 64)} (h : Run s p)
      (hr : Reports inUse s.regs)
      (hs : switch env s next ctx inUse alloc = (status, s', nextStackPtr))
      (hst : checkSuccess status = true) : Run s' (p.switched s next)
  | failed {s s' : Machine} {p : History} {next : Nat} {ctx inUse : BitVec 64}
      {alloc status : StStatus} {nextStackPtr : Option (BitVec 64)} (h : Run s p)
      (hr : Reports inUse s.regs)
      (hs : switch env s next ctx inUse alloc = (status, s', nextStackPtr))
      (hst : checkSuccess status = false) : Run s' p

/-- The state a thread is to be resumed in: the one it was last switched out with, or the
clean initial state. -/
def resumeState (out : Nat → Option Regs) (t : Nat) : Regs := (out t).getD initial

/-- The address space of a thread: that of its process, or the base one. -/
def Thread.asp (th : Thread) : Nat :=
  if th.type = .user then env.addressSpace th.process else env.baseAsp

/-- Everything a switch has to load for thread `n`, whose registers were `r`. -/
structure Loaded (s : Machine) (n : Nat) (r : Regs) : Prop where
  current   : s.currentThread = n
  fs        : s.msrFsBase = (s.threads n).fsBase
  gs        : s.msrKernelGsBase = (s.threads n).gsBase
  asp       : s.currentAsp = (s.threads n).asp env
  cr3       : s.cr3 = pageToAddr (env.rootTablePfn ((s.threads n).asp env))
  tss       : s.tssStack = (s.threads n).kstackTop
  kernelRsp : s.kernelRsp = (s.threads n).kstackTop
  fpu       : SameState env.features s.regs r

/-- The CPU is as it was. -/
structure Untouched (s s' : Machine) : Prop where
  current   : s'.currentThread = s.currentThread
  fs        : s'.msrFsBase = s.msrFsBase
  gs        : s'.msrKernelGsBase = s.msrKernelGsBase
  asp       : s'.currentAsp = s.currentAsp
  cr3       : s'.cr3 = s.cr3
  tss       : s'.tssStack = s.tssStack
  kernelRsp : s'.kernelRsp = s.kernelRsp
  fpu       : s'.regs = s.regs

/-- What an `MSR` holds: the stored base, unless a start has cleared it. -/
def held (cleared : Bool) (base : BitVec 64) : BitVec 64 := if cleared then 0 else base

/-- What every state of a run keeps. -/
structure Inv (s : Machine) (p : History) : Prop where
  fs    : s.msrFsBase = held p.fsCleared (s.threads s.currentThread).fsBase
  gs    : s.msrKernelGsBase = held p.gsCleared (s.threads s.currentThread).gsBase
  cr3   : s.cr3 = pageToAddr (env.rootTablePfn s.currentAsp)
  clean : CleanImage env.features env.cleanXstateBuffer
  saved : ∀ t, t ≠ s.currentThread → ∀ r, SameState env.features
    (restoreThreadFpuSimdState env.features env.cleanXstateBuffer (s.threads t).xstateBuffer r)
    (resumeState p.out t)

/-- A base that the switch to `next` leaves cleared: it takes the stored one for what the `MSR`
holds. -/
def Lost (cleared : Bool) (base base' : BitVec 64) : Prop :=
  cleared = true ∧ base' = base ∧ base ≠ 0

/-! ## The effect of one switch -/

variable {env} {s s' : Machine} {p : History} {next : Nat} {ctx inUse : BitVec 64}
  {alloc status : StStatus} {nextStackPtr : Option (BitVec 64)}

theorem setTssStack_tssStack (s : Machine) (kstack : BitVec 64) :
    (setTssStack s kstack).tssStack = kstack := by
  simp only [Machine.tssStack, setTssStack]
  ext i hi
  simp only [BitVec.getElem_append, BitVec.getElem_setWidth, BitVec.getLsbD_ushiftRight]
  split
  next => exact BitVec.getLsbD_eq_getElem hi
  next h => rw [show 32 + (i - 32) = i by omega]; exact BitVec.getLsbD_eq_getElem hi

/-- The thread that is left, with its stack pointer and save area. -/
def Thread.left (th : Thread) (ctx : BitVec 64) (buffer : Option XStateBuffer) : Thread :=
  { th with kmodeStackPtr := ctx - 8, xstateBuffer := buffer }

/-- A successful switch. The comparisons it makes are right where the `MSR`s and `CR3` hold
what is remembered. -/
structure Switched (env : Env) (s s' : Machine) (next : Nat) (ctx : BitVec 64)
    (buffer : Option XStateBuffer) : Prop where
  threads   : s'.threads =
    update s.threads s.currentThread ((s.threads s.currentThread).left ctx buffer)
  current   : s'.currentThread = next
  asp       : s'.currentAsp = (s'.threads next).asp env
  cr3       : s.cr3 = pageToAddr (env.rootTablePfn s.currentAsp) →
    s'.cr3 = pageToAddr (env.rootTablePfn s'.currentAsp)
  fs        : s'.msrFsBase =
    if (s.threads next).fsBase = (s.threads s.currentThread).fsBase then s.msrFsBase
    else (s.threads next).fsBase
  gs        : s'.msrKernelGsBase =
    if (s.threads next).gsBase = (s.threads s.currentThread).gsBase then s.msrKernelGsBase
    else (s.threads next).gsBase
  tss       : s'.tssStack = (s'.threads next).kstackTop
  kernelRsp : s'.kernelRsp = (s'.threads next).kstackTop
  regs      : s'.regs = restoreThreadFpuSimdState env.features env.cleanXstateBuffer
    (s'.threads next).xstateBuffer s.regs

/-- `switchAsp` ends in the address space of `next`, and with it in `CR3`. -/
theorem switchAsp_eq (env : Env) (s : Machine) (next : Nat) :
    ∃ cr3, switchAsp env s next s.currentAsp =
        (.success, { s with cr3 := cr3, currentAsp := (s.threads next).asp env }) ∧
      (s.cr3 = pageToAddr (env.rootTablePfn s.currentAsp) →
        cr3 = pageToAddr (env.rootTablePfn ((s.threads next).asp env))) := by
  unfold switchAsp Thread.asp
  by_cases hu : (s.threads next).type = .user
  · rw [if_pos hu, if_pos hu]
    exact ⟨_, rfl, fun _ => rfl⟩
  · rw [if_neg hu, if_neg hu]
    by_cases hb : s.currentAsp = env.baseAsp
    · rw [if_neg (not_not.mpr hb)]
      exact ⟨s.cr3, by rw [← hb], fun h => by rw [← hb]; exact h⟩
    · rw [if_pos hb]
      exact ⟨_, rfl, fun _ => rfl⟩

/-- `loadNext` in one piece. -/
theorem loadNext_eq (env : Env) (s : Machine) (current next : Nat) :
    loadNext env s current next =
      { setTssStack s (s.threads next).kstackTop with
        kernelRsp := (s.threads next).kstackTop
        regs := restoreThreadFpuSimdState env.features env.cleanXstateBuffer
          (s.threads next).xstateBuffer s.regs
        msrFsBase := if (s.threads next).fsBase = (s.threads current).fsBase
          then s.msrFsBase else (s.threads next).fsBase
        msrKernelGsBase := if (s.threads next).gsBase = (s.threads current).gsBase
          then s.msrKernelGsBase else (s.threads next).gsBase } := by
  by_cases hf : (s.threads next).fsBase = (s.threads current).fsBase <;>
    by_cases hg : (s.threads next).gsBase = (s.threads current).gsBase <;>
      simp [loadNext, setTssStack, hf, hg]

/-- A base that is only written where it differs from the remembered one. -/
theorem written_eq {cleared : Bool} {msr base base' : BitVec 64} (h : msr = held cleared base) :
    (if base' = base then msr else base') = held (cleared && decide (base' = base)) base' := by
  unfold held at *
  by_cases heq : base' = base
  · simp [heq, h]
  · simp [heq]

theorem written_iff {cleared : Bool} {msr base base' : BitVec 64} (h : msr = held cleared base) :
    (if base' = base then msr else base') = base' ↔ ¬ Lost cleared base base' := by
  rw [written_eq h, held, Lost]
  by_cases heq : base' = base
  · cases cleared <;> simp [heq]
    exact eq_comm
  · simp [heq]

/-- The thread that is left keeps its bases. -/
theorem left_bases (s : Machine) (ctx : BitVec 64) (buffer : Option XStateBuffer) (t : Nat) :
    (update s.threads s.currentThread ((s.threads s.currentThread).left ctx buffer) t).fsBase =
        (s.threads t).fsBase ∧
      (update s.threads s.currentThread ((s.threads s.currentThread).left ctx buffer) t).gsBase =
        (s.threads t).gsBase := by
  by_cases ht : t = s.currentThread
  · subst ht
    rw [update_self]
    exact ⟨rfl, rfl⟩
  · rw [update_of_ne ht]
    exact ⟨rfl, rfl⟩

/-- **`StThreadP_Switch` in one piece**: either the save fails and nothing but the thread that
stays has changed, or everything is loaded. -/
theorem switch_effect (h : switch env s next ctx inUse alloc = (status, s', nextStackPtr)) :
    ∃ st buffer,
      saveThreadFpuSimdState env.features inUse alloc s.regs
        (s.threads s.currentThread).xstateBuffer = (st, buffer) ∧
      checkSuccess status = checkSuccess st ∧
      (checkSuccess st = false → s' = s.setThread s.currentThread
        ((s.threads s.currentThread).left ctx buffer)) ∧
      (checkSuccess st = true → Switched env s s' next ctx buffer) := by
  obtain ⟨st, buffer, hsave⟩ : ∃ st buffer,
      saveThreadFpuSimdState env.features inUse alloc s.regs
        (s.threads s.currentThread).xstateBuffer = (st, buffer) := ⟨_, _, rfl⟩
  have hcur : saveCurrent env s ctx inUse alloc = (st, s.setThread s.currentThread
      ((s.threads s.currentThread).left ctx buffer)) := by
    simp only [saveCurrent, hsave, Thread.left]
  refine ⟨st, buffer, hsave, ?_⟩
  simp only [switch, hcur] at h
  cases hst : checkSuccess st with
  | false =>
    rw [if_pos hst] at h
    obtain ⟨rfl, rfl, -⟩ : st = status ∧ _ = s' ∧ _ = nextStackPtr := by simpa using h
    exact ⟨hst, fun _ => rfl, fun h => absurd h (by decide)⟩
  | true =>
    rw [if_neg (by simp [hst])] at h
    set s1 := s.setThread s.currentThread ((s.threads s.currentThread).left ctx buffer) with hs1
    have hbases : ∀ t, (s1.threads t).fsBase = (s.threads t).fsBase ∧
        (s1.threads t).gsBase = (s.threads t).gsBase := left_bases s ctx buffer
    obtain ⟨cr3, hasp, hcr3⟩ := switchAsp_eq env s1 next
    rw [show s.currentAsp = s1.currentAsp from rfl, hasp] at h
    simp only [checkSuccess, loadNext_eq, schedulerSwitchCurrentThread] at h
    obtain ⟨rfl, rfl, -⟩ : StStatus.success = status ∧ _ = s' ∧ _ = nextStackPtr := by
      simpa using h
    refine ⟨rfl, fun h => absurd h (by decide),
      fun _ => ⟨rfl, rfl, rfl, hcr3, ?_, ?_, ?_, rfl, rfl⟩⟩
    · simp only [(hbases _).1]
      rfl
    · simp only [(hbases _).2]
      rfl
    · exact setTssStack_tssStack s1 _

/-! ## The invariant -/

theorem Start.inv (h : Start env s) : Inv env s ⟨fun _ => none, fun _ => false, false, false⟩ := by
  obtain ⟨r, inUse, inUseClean, hr, hclean⟩ := h.clean
  have himage : CleanImage env.features env.cleanXstateBuffer :=
    hclean ▸ initialize_cleanImage hr
  refine ⟨by rw [h.msrFs, h.fsBases]; rfl, by rw [h.msrGs, h.gsBases]; rfl, by rw [h.cr3, h.asp],
    himage, ?_⟩
  intro t _ r'
  rw [h.buffers]
  exact himage r'

/-- A thread that keeps its save area. -/
theorem xstateBuffer_update {th : Nat} {new : Thread}
    (hnew : new.xstateBuffer = (s.threads th).xstateBuffer) (t : Nat) :
    (update s.threads th new t).xstateBuffer = (s.threads t).xstateBuffer := by
  rcases eq_or_ne t th with rfl | ht
  · rw [update_self, hnew]
  · rw [update_of_ne ht]

section

variable (hi : Inv env s p)
include hi

/-- Changes that touch neither save areas nor the address space nor which thread runs. -/
theorem Inv.of_bases {p' : History} (hcur : s'.currentThread = s.currentThread)
    (hasp : s'.currentAsp = s.currentAsp) (hcr3 : s'.cr3 = s.cr3)
    (hbuf : ∀ t, (s'.threads t).xstateBuffer = (s.threads t).xstateBuffer)
    (hout : p'.out = p.out)
    (hfs : s'.msrFsBase = held p'.fsCleared (s'.threads s'.currentThread).fsBase)
    (hgs : s'.msrKernelGsBase = held p'.gsCleared (s'.threads s'.currentThread).gsBase) :
    Inv env s' p' := by
  refine ⟨hfs, hgs, by rw [hcr3, hasp, hi.cr3], hi.clean, fun t ht r => ?_⟩
  rw [hbuf, hout]
  exact hi.saved t (hcur ▸ ht) r

theorem Inv.setFsBase (th : Nat) (fsBase : BitVec 64) : Inv env (setFsBase s th fsBase).2
    { p with fsCleared := p.fsCleared && decide (th ≠ s.currentThread) } := by
  unfold Switch.setFsBase
  dsimp only [Machine.setThread]
  by_cases hcur : th = s.currentThread
  · subst hcur
    rw [if_pos rfl]
    exact hi.of_bases rfl rfl rfl (xstateBuffer_update rfl) rfl (by simp [held])
      (by simpa using hi.gs)
  · rw [if_neg hcur]
    have hne : s.currentThread ≠ th := fun h => hcur h.symm
    exact hi.of_bases rfl rfl rfl (xstateBuffer_update rfl) rfl
      (by simpa [hne, hcur] using hi.fs)
      (by simpa [hne, hcur] using hi.gs)

theorem Inv.setGsBase (th : Nat) (gsBase : BitVec 64) : Inv env (setGsBase s th gsBase).2
    { p with gsCleared := p.gsCleared && decide (th ≠ s.currentThread) } := by
  unfold Switch.setGsBase
  dsimp only [Machine.setThread]
  by_cases hcur : th = s.currentThread
  · subst hcur
    rw [if_pos rfl]
    exact hi.of_bases rfl rfl rfl (xstateBuffer_update rfl) rfl (by simpa using hi.fs)
      (by simp [held])
  · rw [if_neg hcur]
    have hne : s.currentThread ≠ th := fun h => hcur h.symm
    exact hi.of_bases rfl rfl rfl (xstateBuffer_update rfl) rfl
      (by simpa [hne, hcur] using hi.fs)
      (by simpa [hne, hcur] using hi.gs)

variable (hr : Reports inUse s.regs) {st : StStatus} {buffer : Option XStateBuffer}
  (hsave : saveThreadFpuSimdState env.features inUse alloc s.regs
    (s.threads s.currentThread).xstateBuffer = (st, buffer))
  (hst : checkSuccess st = true) (h : Switched env s s' next ctx buffer)
include hr hsave hst h

/-- After a successful switch every thread's area brings back the state it was last switched
out with; for the thread just left that is the state it had. -/
theorem Inv.resumes (t : Nat) (r : Regs) :
    SameState env.features
      (restoreThreadFpuSimdState env.features env.cleanXstateBuffer (s'.threads t).xstateBuffer r)
      (resumeState (p.switched s next).out t) := by
  rw [h.threads, History.switched]
  by_cases ht : t = s.currentThread
  · subst ht
    simp only [update_self, resumeState, Option.getD_some, Thread.left]
    exact restoreThread_saveThread hi.clean hr hsave hst r
  · simp only [update_of_ne ht, resumeState]
    exact hi.saved t ht r

/-- **A successful switch loads everything** but a base that is lost. -/
theorem Inv.loaded_iff : Loaded env s' next (resumeState (p.switched s next).out next) ↔
    ¬ Lost p.fsCleared (s.threads s.currentThread).fsBase (s.threads next).fsBase ∧
      ¬ Lost p.gsCleared (s.threads s.currentThread).gsBase (s.threads next).gsBase := by
  have hbases : (s'.threads next).fsBase = (s.threads next).fsBase ∧
      (s'.threads next).gsBase = (s.threads next).gsBase := by
    rw [h.threads]
    exact left_bases s ctx buffer next
  rw [← written_iff hi.fs, ← written_iff hi.gs, ← h.fs, ← h.gs]
  refine ⟨fun hl => ⟨hl.fs.trans hbases.1, hl.gs.trans hbases.2⟩, fun hb => ?_⟩
  exact ⟨h.current, hb.1.trans hbases.1.symm, hb.2.trans hbases.2.symm, h.asp,
    by rw [h.cr3 hi.cr3, h.asp], h.tss, h.kernelRsp,
    h.regs ▸ hi.resumes hr hsave hst h next s.regs⟩

end

/-- A switch that fails leaves the CPU as it was. -/
theorem untouched_of_failed (h : switch env s next ctx inUse alloc = (status, s', nextStackPtr))
    (hst : checkSuccess status = false) : Untouched s s' := by
  obtain ⟨st, buffer, -, heq, hfail, -⟩ := switch_effect h
  obtain rfl := hfail (heq ▸ hst)
  exact ⟨rfl, rfl, rfl, rfl, rfl, rfl, rfl, rfl⟩

theorem Inv.failed (hi : Inv env s p)
    (h : switch env s next ctx inUse alloc = (status, s', nextStackPtr))
    (hst : checkSuccess status = false) : Inv env s' p := by
  obtain ⟨st, buffer, -, heq, hfail, -⟩ := switch_effect h
  obtain rfl := hfail (heq ▸ hst)
  refine ⟨?_, ?_, hi.cr3, hi.clean, fun t ht r => ?_⟩
  · simpa [Machine.setThread, Thread.left] using hi.fs
  · simpa [Machine.setThread, Thread.left] using hi.gs
  · have hbuf : update s.threads s.currentThread
        ((s.threads s.currentThread).left ctx buffer) t = s.threads t :=
      update_of_ne ht _ _
    simpa only [Machine.setThread, hbuf] using hi.saved t ht r

theorem Inv.switched (hi : Inv env s p) (hr : Reports inUse s.regs)
    (h : switch env s next ctx inUse alloc = (status, s', nextStackPtr))
    (hst : checkSuccess status = true) : Inv env s' (p.switched s next) := by
  obtain ⟨st, buffer, hsave, heq, -, hok⟩ := switch_effect h
  have hst' : checkSuccess st = true := heq ▸ hst
  have hsw := hok hst'
  refine ⟨?_, ?_, hsw.cr3 hi.cr3, hi.clean, fun t _ => hi.resumes hr hsave hst' hsw t⟩
  · rw [hsw.fs, written_eq hi.fs, hsw.current, hsw.threads, (left_bases s ctx buffer next).1]
    rfl
  · rw [hsw.gs, written_eq hi.gs, hsw.current, hsw.threads, (left_bases s ctx buffer next).2]
    rfl

theorem Run.inv (h : Run env s p) : Inv env s p := by
  induction h with
  | start h => exact h.inv
  | compute _ r ih => exact ⟨ih.fs, ih.gs, ih.cr3, ih.clean, ih.saved⟩
  | enter _ _ _ ih => exact ⟨rfl, rfl, ih.cr3, ih.clean, ih.saved⟩
  | setFsBase _ th v ih => exact ih.setFsBase th v
  | setGsBase _ th v ih => exact ih.setGsBase th v
  | switched _ hr hs hst ih => exact ih.switched hr hs hst
  | failed _ _ hs hst ih => exact ih.failed hs hst

/-- **In every run, a switch that succeeds loads everything of the next thread**: the bases,
the address space, the kernel stack and the registers it was last switched out with, or the
clean ones. The exception is a base that the start of a user thread has cleared and that the next
thread has too. A switch that fails leaves the CPU as it was. -/
theorem run_switch (hrun : Run env s p) (hr : Reports inUse s.regs)
    (h : switch env s next ctx inUse alloc = (status, s', nextStackPtr)) :
    (checkSuccess status = true →
      (Loaded env s' next (resumeState (p.switched s next).out next) ↔
        ¬ Lost p.fsCleared (s.threads s.currentThread).fsBase (s.threads next).fsBase ∧
          ¬ Lost p.gsCleared (s.threads s.currentThread).gsBase (s.threads next).gsBase)) ∧
      (checkSuccess status = false → Untouched s s') := by
  refine ⟨fun hst => ?_, untouched_of_failed h⟩
  obtain ⟨st, buffer, hsave, heq, -, hok⟩ := switch_effect h
  have hst' : checkSuccess st = true := heq ▸ hst
  exact hrun.inv.loaded_iff hr hsave hst' (hok hst')

/-! ## A user thread that is left before it uses the FPU -/

def twoEnv : Env where
  baseAsp := 0
  rootTablePfn := fun asp => if asp = 0 then 1 else 2
  addressSpace := fun _ => 1
  features := ⟨true, true⟩
  cleanXstateBuffer := (initializeFpuSimdState ⟨true, true⟩ 0 0 initial).1

/-- The main thread runs, every other is a user thread. -/
def twoThreads : Machine where
  threads := fun t => ⟨if t = 0 then .main else .user, 0, 16, 4, 0, 0, 0, none⟩
  currentThread := 0
  currentAsp := 0
  kernelRsp := 0
  ctxswitchCount := 0
  rsp0Low := 0
  rsp0High := 0
  cr3 := 4096
  msrFsBase := 0
  msrKernelGsBase := 0
  regs := { initial with mxcsr := 0x9FC0 }

def twoThreadsSet : Machine := (setFsBase twoThreads 1 0x7000).2

theorem twoThreads_start : Start twoEnv twoThreads := by
  refine ⟨fun _ => rfl, fun _ => rfl, rfl, rfl, fun _ => rfl, rfl, by decide, initial, 0, 0,
    ?_, rfl⟩
  exact ⟨fun _ => rfl, fun _ => ⟨rfl, rfl⟩, fun _ => rfl⟩

/-- The switch to thread 1, with and without memory for the save area of the main thread. -/
theorem run_switch_user :
    Loaded twoEnv (switch twoEnv twoThreadsSet 1 0x8000 7 .success).2.1 1 initial ∧
      Untouched twoThreadsSet
        (switch twoEnv twoThreadsSet 1 0x8000 7 .insufficientMemory).2.1 := by
  have hr : Reports 7 twoThreadsSet.regs :=
    ⟨fun h => absurd h (by decide), fun h => absurd h (by decide), fun h => absurd h (by decide)⟩
  have hpair (alloc : StStatus) : switch twoEnv twoThreadsSet 1 0x8000 7 alloc =
      ((switch twoEnv twoThreadsSet 1 0x8000 7 alloc).1,
        (switch twoEnv twoThreadsSet 1 0x8000 7 alloc).2.1,
        (switch twoEnv twoThreadsSet 1 0x8000 7 alloc).2.2) := rfl
  have hok : checkSuccess (switch twoEnv twoThreadsSet 1 0x8000 7 .success).1 = true := by
    decide +kernel
  have hfail : checkSuccess (switch twoEnv twoThreadsSet 1 0x8000 7 .insufficientMemory).1 =
      false := by decide +kernel
  have hrun := Run.setFsBase (.start twoThreads_start) 1 0x7000
  exact ⟨((run_switch hrun hr (hpair .success)).1 hok).mpr
      ⟨fun hl => absurd hl.1 (by decide), fun hl => absurd hl.1 (by decide)⟩,
    (run_switch hrun hr (hpair .insufficientMemory)).2 hfail⟩

/-- **A base gets lost.** Threads 1 and 2 are given the base 0x7000 before they run. Thread 1
starts, which clears it, and the switch to thread 2 finds the two stored bases equal. -/
theorem entry_clears_base :
    let s := (setFsBase (setFsBase twoThreads 1 0x7000).2 2 0x7000).2
    let s1 := userThreadEntry (switch twoEnv s 1 0x8000 7 .success).2.1
    let s2 := (switch twoEnv s1 2 0x8000 7 .success).2.1
    (∃ p, Run twoEnv s2 p) ∧ s2.currentThread = 2 ∧
      (s2.threads 2).fsBase = 0x7000 ∧ s2.msrFsBase = 0 := by
  intro s s1 s2
  have hr : ∀ r : Regs, Reports 7 r := fun r =>
    ⟨fun h => absurd h (by decide), fun h => absurd h (by decide), fun h => absurd h (by decide)⟩
  have hs := Run.setFsBase (.setFsBase (.start twoThreads_start) 1 0x7000) 2 0x7000
  have h1 := Run.switched hs (hr _) (Prod.ext rfl (Prod.ext rfl rfl) :
    switch twoEnv s 1 0x8000 7 .success = (_, _, _)) (by decide +kernel)
  have h2 := h1.enter (by decide +kernel) rfl
  have h3 := Run.switched h2 (hr _) (Prod.ext rfl (Prod.ext rfl rfl) :
    switch twoEnv s1 2 0x8000 7 .success = (_, _, _)) (by decide +kernel)
  exact ⟨⟨_, h3⟩, by decide +kernel, by decide +kernel, by decide +kernel⟩

end FoliOS.Strata.Switch
