import FoliOS.Strata.Basic

/-!
# Strata — saved FPU and SIMD state (`arch/amd64/pc/thread.c`)

`save_thread_fpu_simd_state` gives a thread a save area only once `XSAVE` reports one of
the managed components as used; a thread without one is resumed from the clean image
taken at boot.

The x87 data registers are a stack of tagged registers: an empty one has no contents.
`MXCSR` belongs to the SSE component. Which components `XSAVE` reports as used is the
processor's choice, and every save takes it as an argument; `Reports` is the one thing
asked of it.

Main results: `restore_save` and `restoreThread_saveThread`.
-/

namespace FoliOS.Strata.Switch

variable {st : StStatus}

/-! ## Registers and save areas -/

structure X87 where
  fcw : BitVec 16
  fsw : BitVec 16
  fop : BitVec 16
  fip : BitVec 64
  fdp : BitVec 64
  st : Fin 8 → Option (BitVec 80)

structure Regs where
  x87 : X87
  xmm : Fin 16 → BitVec 128
  mxcsr : BitVec 32
  ymmHigh : Fin 16 → BitVec 128

/-- `union StA_XStateBuffer`: the `FXSAVE` area, the header word at
`XSTATE_HEADER_OFFSET` and the AVX area. -/
structure XStateBuffer where
  x87 : X87
  xmm : Fin 16 → BitVec 128
  mxcsr : BitVec 32
  xstateBv : BitVec 64
  ymmHigh : Fin 16 → BitVec 128

/-- The initial configuration of every component. -/
def initial : Regs where
  x87 := ⟨0x37F, 0, 0, 0, 0, fun _ => none⟩
  xmm := fun _ => 0
  mxcsr := 0x1F80
  ymmHigh := fun _ => 0

/-- An area cleared by `memset`. -/
def zeroBuffer : XStateBuffer where
  x87 := ⟨0, 0, 0, 0, 0, fun _ => none⟩
  xmm := fun _ => 0
  mxcsr := 0
  xstateBv := 0
  ymmHigh := fun _ => 0

/-! ## Instructions -/

/-- `fxsave64` -/
def fxSave (r : Regs) (b : XStateBuffer) : XStateBuffer :=
  { b with x87 := r.x87, xmm := r.xmm, mxcsr := r.mxcsr }

/-- `fxrstor64` -/
def fxRestore (b : XStateBuffer) (r : Regs) : Regs :=
  { r with x87 := b.x87, xmm := b.xmm, mxcsr := b.mxcsr }

/-- `xsave64`: every component of `mask` is written, and of the header word the bits of
`mask` become those of `inUse`. `MXCSR` goes with SSE and with AVX. -/
def xSave (inUse mask : BitVec 64) (r : Regs) (b : XStateBuffer) : XStateBuffer where
  x87 := if mask.getLsbD 0 then r.x87 else b.x87
  xmm := if mask.getLsbD 1 then r.xmm else b.xmm
  mxcsr := if mask.getLsbD 1 || mask.getLsbD 2 then r.mxcsr else b.mxcsr
  xstateBv := b.xstateBv &&& ~~~mask ||| inUse &&& mask
  ymmHigh := if mask.getLsbD 2 then r.ymmHigh else b.ymmHigh

/-- `xrstor64`: a component of `mask` that the header word leaves out is put into its
initial configuration; `MXCSR` is loaded in either case. -/
def xRestore (b : XStateBuffer) (mask : BitVec 64) (r : Regs) : Regs where
  x87 := if mask.getLsbD 0 then if b.xstateBv.getLsbD 0 then b.x87 else initial.x87 else r.x87
  xmm := if mask.getLsbD 1 then if b.xstateBv.getLsbD 1 then b.xmm else initial.xmm else r.xmm
  mxcsr := if mask.getLsbD 1 || mask.getLsbD 2 then b.mxcsr else r.mxcsr
  ymmHigh :=
    if mask.getLsbD 2 then if b.xstateBv.getLsbD 2 then b.ymmHigh else initial.ymmHigh
    else r.ymmHigh

/-- `fninit`: every data register is tagged empty. -/
def fnInit (r : Regs) : Regs := { r with x87 := ⟨0x37F, 0, 0, 0, 0, fun _ => none⟩ }

/-- `ldmxcsr` -/
def ldMxcsr (v : BitVec 32) (r : Regs) : Regs := { r with mxcsr := v }

/-- `StA_ZeroXmmRegisters` -/
def zeroXmmRegisters (r : Regs) : Regs := { r with xmm := fun _ => 0 }

/-- `vzeroall` -/
def vzeroAll (r : Regs) : Regs := { r with xmm := fun _ => 0, ymmHigh := fun _ => 0 }

/-! ## The kernel's save and restore -/

/-- The two bits of `g_p_cpu_features` that are read. -/
structure CpuFeatures where
  hasXsave : Bool
  hasAvx : Bool

variable (f : CpuFeatures)

/-- `xsave_context_enabled` -/
def xsaveContextEnabled : Bool := f.hasXsave

/-- `avx_context_enabled` -/
def avxContextEnabled : Bool := xsaveContextEnabled f && f.hasAvx

/-- `xstate_mask` -/
def xstateMask : BitVec 64 :=
  if xsaveContextEnabled f then if avxContextEnabled f then 0x7 else 0x3 else 0

/-- `save_fpu_simd_state` -/
def saveFpuSimdState (inUse : BitVec 64) (r : Regs) (b : XStateBuffer) : XStateBuffer :=
  if xsaveContextEnabled f then xSave inUse (xstateMask f) r b else fxSave r b

/-- `restore_fpu_simd_state` -/
def restoreFpuSimdState (b : XStateBuffer) (r : Regs) : Regs :=
  if xsaveContextEnabled f then xRestore b (xstateMask f) r else fxRestore b r

/-- `allocate_xstate_buffer`, where `alloc` is what the pool returns. -/
def allocateXstateBuffer (alloc : StStatus) : StStatus × Option XStateBuffer :=
  if checkSuccess alloc then (.success, some zeroBuffer) else (alloc, none)

/-- `ensure_xstate_buffer` -/
def ensureXstateBuffer (alloc : StStatus) (b : Option XStateBuffer) :
    StStatus × Option XStateBuffer :=
  match b with
  | some b => (.success, some b)
  | none => allocateXstateBuffer alloc

/-- `save_thread_fpu_simd_state`: the status and the thread's save area afterwards. -/
def saveThreadFpuSimdState (inUse : BitVec 64) (alloc : StStatus) (r : Regs)
    (b : Option XStateBuffer) : StStatus × Option XStateBuffer :=
  if xsaveContextEnabled f && b.isNone then
    let scratch := saveFpuSimdState f inUse r zeroBuffer
    if scratch.xstateBv &&& xstateMask f = 0 then (.success, none)
    else
      match allocateXstateBuffer alloc with
      | (st, some _) => (st, some scratch)
      | (st, none) => (st, none)
  else
    match ensureXstateBuffer alloc b with
    | (st, some b) => (st, some (saveFpuSimdState f inUse r b))
    | (st, none) => (st, none)

/-- `restore_thread_fpu_simd_state` -/
def restoreThreadFpuSimdState (clean : XStateBuffer) (b : Option XStateBuffer) (r : Regs) : Regs :=
  restoreFpuSimdState f (b.getD clean) r

/-- The registers `StThreadP_InitializeFpuSimdState` takes the clean image of. -/
def cleanRegs (r : Regs) : Regs :=
  let r := ldMxcsr 0x1F80 (fnInit r)
  if avxContextEnabled f then vzeroAll r else zeroXmmRegisters r

/-- `StThreadP_InitializeFpuSimdState`: the clean image and the registers afterwards. -/
def initializeFpuSimdState (inUse inUseClean : BitVec 64) (r : Regs) : XStateBuffer × Regs :=
  let saved := saveFpuSimdState f inUse r zeroBuffer
  let r := cleanRegs f r
  let clean := saveFpuSimdState f inUseClean r zeroBuffer
  (clean, restoreFpuSimdState f saved r)

/-! ## What a save keeps -/

/-- `XSAVE` reports a component as unused only when it is in its initial configuration. -/
structure Reports (inUse : BitVec 64) (r : Regs) : Prop where
  x87 : inUse.getLsbD 0 = false → r.x87 = initial.x87
  sse : inUse.getLsbD 1 = false → r.xmm = initial.xmm ∧ r.mxcsr = initial.mxcsr
  avx : inUse.getLsbD 2 = false → r.ymmHigh = initial.ymmHigh

/-- The same FPU, SSE and, where the processor has it, AVX state. -/
structure SameState (r r' : Regs) : Prop where
  x87   : r.x87 = r'.x87
  xmm   : r.xmm = r'.xmm
  mxcsr : r.mxcsr = r'.mxcsr
  avx   : avxContextEnabled f = true → r.ymmHigh = r'.ymmHigh

variable {f} {inUse : BitVec 64} {alloc : StStatus} {r : Regs}

theorem SameState.symm {r' : Regs} (h : SameState f r r') : SameState f r' r :=
  ⟨h.x87.symm, h.xmm.symm, h.mxcsr.symm, fun ha => (h.avx ha).symm⟩

theorem SameState.trans {r1 r2 r3 : Regs} (h : SameState f r1 r2) (h' : SameState f r2 r3) :
    SameState f r1 r3 :=
  ⟨h.x87.trans h'.x87, h.xmm.trans h'.xmm, h.mxcsr.trans h'.mxcsr,
    fun ha => (h.avx ha).trans (h'.avx ha)⟩

/-- The components of `xstate_mask`: x87 and SSE always, AVX where it is enabled. -/
theorem xstateMask_bits (hx : xsaveContextEnabled f = true) :
    (xstateMask f).getLsbD 0 = true ∧ (xstateMask f).getLsbD 1 = true ∧
      (xstateMask f).getLsbD 2 = avxContextEnabled f := by
  unfold xstateMask
  rw [if_pos hx]
  cases avxContextEnabled f <;> decide

/-- The header word says of a saved component what the processor reported. -/
theorem xSave_xstateBv {mask : BitVec 64} {i : Nat} (hi : mask.getLsbD i = true)
    (b : XStateBuffer) : (xSave inUse mask r b).xstateBv.getLsbD i = inUse.getLsbD i := by
  simp [xSave, hi]

/-- **A restore undoes a save**, whatever the area and the registers held before. -/
theorem restore_save (hr : Reports inUse r) (b : XStateBuffer) (r' : Regs) :
    SameState f (restoreFpuSimdState f (saveFpuSimdState f inUse r b) r') r := by
  unfold restoreFpuSimdState saveFpuSimdState
  by_cases hx : xsaveContextEnabled f = true
  · obtain ⟨h0, h1, h2⟩ := xstateMask_bits hx
    rw [if_pos hx, if_pos hx]
    constructor
    · simp only [xRestore, xSave_xstateBv h0, h0, if_true]
      split
      next => simp only [xSave, h0, if_true]
      next hu => exact (hr.x87 (Bool.eq_false_iff.mpr hu)).symm
    · simp only [xRestore, xSave_xstateBv h1, h1, if_true]
      split
      next => simp only [xSave, h1, if_true]
      next hu => exact (hr.sse (Bool.eq_false_iff.mpr hu)).1.symm
    · simp only [xRestore, xSave, h1, Bool.true_or, if_true]
    · intro ha
      replace h2 := h2.trans ha
      simp only [xRestore, xSave_xstateBv h2, h2, if_true]
      split
      next => simp only [xSave, h2, if_true]
      next hu => exact (hr.avx (Bool.eq_false_iff.mpr hu)).symm
  · rw [if_neg hx, if_neg hx]
    refine ⟨rfl, rfl, rfl, fun ha => ?_⟩
    simp [avxContextEnabled, hx] at ha

/-- The clean image resumes a thread in the initial configuration. -/
def CleanImage (f : CpuFeatures) (clean : XStateBuffer) : Prop :=
  ∀ r, SameState f (restoreFpuSimdState f clean r) initial

theorem cleanRegs_same (r : Regs) : SameState f (cleanRegs f r) initial := by
  unfold cleanRegs
  cases ha : avxContextEnabled f with
  | true => exact ⟨rfl, rfl, rfl, fun _ => rfl⟩
  | false => exact ⟨rfl, rfl, rfl, fun h => absurd (ha.symm.trans h) (by decide)⟩

theorem initialize_cleanImage {inUseClean : BitVec 64} (hr : Reports inUseClean (cleanRegs f r)) :
    CleanImage f (initializeFpuSimdState f inUse inUseClean r).1 := fun r' =>
  (restore_save hr zeroBuffer r').trans (cleanRegs_same r)

/-- A thread all of whose components are reported as unused is in the initial
configuration. -/
theorem initial_of_unused (hx : xsaveContextEnabled f = true) (hr : Reports inUse r)
    (h : (saveFpuSimdState f inUse r zeroBuffer).xstateBv &&& xstateMask f = 0) :
    SameState f r initial := by
  obtain ⟨h0, h1, h2⟩ := xstateMask_bits hx
  have hunused : ∀ i, (xstateMask f).getLsbD i = true → inUse.getLsbD i = false := by
    intro i hi
    have hbit := congrArg (fun w => BitVec.getLsbD w i) h
    simpa [saveFpuSimdState, hx, xSave_xstateBv hi, hi] using hbit
  obtain ⟨hxmm, hmxcsr⟩ := hr.sse (hunused 1 h1)
  exact ⟨hr.x87 (hunused 0 h0), hxmm, hmxcsr, fun ha => hr.avx (hunused 2 (h2.trans ha))⟩

theorem allocateXstateBuffer_none (h : allocateXstateBuffer alloc = (st, none)) :
    checkSuccess st = false := by
  unfold allocateXstateBuffer at h
  split at h
  next => cases h
  next ha =>
    cases h
    simpa using ha

variable {b b' : Option XStateBuffer}

/-- A successful save leaves the state in the thread's area, or leaves the thread without
one because no component is in use. -/
theorem saveThread_cases (h : saveThreadFpuSimdState f inUse alloc r b = (st, b'))
    (hst : checkSuccess st = true) :
    (b' = none ∧ xsaveContextEnabled f = true ∧
        (saveFpuSimdState f inUse r zeroBuffer).xstateBv &&& xstateMask f = 0) ∨
      ∃ area, b' = some (saveFpuSimdState f inUse r area) := by
  unfold saveThreadFpuSimdState at h
  by_cases hlazy : (xsaveContextEnabled f && b.isNone) = true
  · rw [if_pos hlazy] at h
    by_cases hbv : (saveFpuSimdState f inUse r zeroBuffer).xstateBv &&& xstateMask f = 0
    · rw [if_pos hbv] at h
      rw [Bool.and_eq_true] at hlazy
      exact .inl ⟨(Prod.mk.inj h).2.symm, hlazy.1, hbv⟩
    · rw [if_neg hbv] at h
      split at h
      next => exact .inr ⟨zeroBuffer, (Prod.mk.inj h).2.symm⟩
      next st1 hnone =>
        cases h
        exact absurd (allocateXstateBuffer_none hnone) (by simp [hst])
  · rw [if_neg hlazy] at h
    split at h
    next st1 area _ => exact .inr ⟨area, (Prod.mk.inj h).2.symm⟩
    next st1 hnone =>
      cases h
      cases b with
      | some area => cases hnone
      | none => exact absurd (allocateXstateBuffer_none hnone) (by simp [hst])

/-- **What `save_thread_fpu_simd_state` saved, `restore_thread_fpu_simd_state` brings back**,
with or without a save area. -/
theorem restoreThread_saveThread {clean : XStateBuffer} (hclean : CleanImage f clean)
    (hr : Reports inUse r) (h : saveThreadFpuSimdState f inUse alloc r b = (st, b'))
    (hst : checkSuccess st = true) (r' : Regs) :
    SameState f (restoreThreadFpuSimdState f clean b' r') r := by
  obtain ⟨rfl, hx, hunused⟩ | ⟨area, rfl⟩ := saveThread_cases h hst
  · exact (hclean r').trans (initial_of_unused hx hr hunused).symm
  · exact restore_save hr area r'

end FoliOS.Strata.Switch
