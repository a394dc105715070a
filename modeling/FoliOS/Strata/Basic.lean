import Mathlib.Data.BitVec
import Mathlib.Data.Nat.Bitwise
import Mathlib.Data.Nat.Log

/-!
# Strata — shared vocabulary

Status codes (`strata/status.h`), thread states (`strata/thread.h`), page constants,
the two rounding macros (`strata/macros.h`) and the flag words of the memory
managers. Machine integers are `Nat`s; where the C code computes in a fixed width
the width is written out.
-/

namespace FoliOS.Strata

/-- The `STATUS_*` codes the modelled functions return. -/
inductive StStatus where
  | success
  | alreadyPerformed
  | unknownError
  | invalidValue
  | notSupported
  | entryNotFound
  | notImplemented
  | conflictingState
  | wrongElementType
  | duplicateEntry
  | sizeCheckFailure
  | bufferTooSmall
  | pageNotPresent
  | insufficientSpace
  | notAllocated
  | notPermitted
  | systemCorrupted
  | tooLarge
  | invalidHandle
  | resourceBusy
  | insufficientMemory
  | endOfList
  | invalidFormat
  | threadNotFinished
  | invalidThread
  | notADirectory
  | tooManyLinks
  deriving DecidableEq, Repr

/-- `CHECK_SUCCESS`: the failure bit is clear. -/
def checkSuccess : StStatus → Bool
  | .success | .alreadyPerformed => true
  | _ => false

/-- `enum StThread_State` -/
inductive ThreadState where
  | pending
  | running
  | blocking
  | waiting
  | sleeping
  | finished
  deriving DecidableEq, Repr

/-- `PAGE_SIZE` -/
def pageSize : Nat := 4096

/-- One more than the largest page number of a 64-bit address. -/
def pageLimit : Nat := 2 ^ 52

/-- `ALIGN(v, a)` computed in `w`-bit unsigned arithmetic: `(v + a - 1) & ~(a - 1)`. -/
def align (w v a : Nat) : Nat := (v + a - 1) % 2 ^ w &&& (2 ^ w - a)

/-- `ALIGN_DIV(v, a)` computed in `w`-bit unsigned arithmetic. -/
def alignDiv (w v a : Nat) : Nat := (v + a - 1) % 2 ^ w / a

/-- Masking off the low `k` bits rounds down to a multiple of `2 ^ k`. -/
theorem and_high_mask {w k x : Nat} (hk : k ≤ w) (hx : x < 2 ^ w) :
    x &&& (2 ^ w - 2 ^ k) = x / 2 ^ k * 2 ^ k := by
  have hmask : 2 ^ w - 2 ^ k = (2 ^ (w - k) - 1) * 2 ^ k := by
    rw [Nat.sub_mul, ← pow_add, Nat.sub_add_cancel hk, one_mul]
  apply Nat.eq_of_testBit_eq
  intro i
  rw [hmask, Nat.testBit_and, Nat.testBit_mul_two_pow, Nat.testBit_mul_two_pow,
    Nat.testBit_two_pow_sub_one, Nat.testBit_div_two_pow]
  by_cases hi : k ≤ i
  · rw [Nat.sub_add_cancel hi]
    by_cases hiw : i < w
    · simp [hi, show i - k < w - k by omega]
    · have hbit : x.testBit i = false :=
        Nat.testBit_lt_two_pow (hx.trans_le (Nat.pow_le_pow_right (by decide) (by omega)))
      simp [hbit]
  · simp [hi]

/-- Without overflow `ALIGN` rounds up to the next multiple. -/
theorem align_eq {w k v : Nat} (hk : k ≤ w) (hv : v + 2 ^ k - 1 < 2 ^ w) :
    align w v (2 ^ k) = (v + 2 ^ k - 1) / 2 ^ k * 2 ^ k := by
  rw [align, Nat.mod_eq_of_lt hv, and_high_mask hk hv]

/-! ## Allocation and mapping flags (`strata/mm/types.h`, `mm/internal.h`) -/

abbrev AllocFlags := BitVec 32
abbrev MapFlags := BitVec 32

/-- `flags & mask`, read as a truth value. -/
def hasFlag (flags mask : BitVec 32) : Bool := decide (flags &&& mask ≠ 0)

-- StMm_MapFlags
def mfWritable : MapFlags := 0x1
def mfUser : MapFlags := 0x2
def mfNoCache : MapFlags := 0x4
def mfWritethruCache : MapFlags := 0x8
def mfNoExecute : MapFlags := 0x10
def mfGlobal : MapFlags := 0x20
def mfPoolLargeAlloc : MapFlags := 0x40
def mfPoolSubpool : MapFlags := 0x80
def mfImmediate : MapFlags := 0x10000
def mfZeroFill : MapFlags := 0x20000
def mfGuard : MapFlags := 0x80000
def mfGuardGrowDown : MapFlags := 0x100000

-- StMm_AllocFlags
def afPmmBelowMask : AllocFlags := 0x7
def afAlignMask : AllocFlags := 0x3F0
def afVmmAllocTopdown : AllocFlags := 0x20000
def afVmmReservationMap : AllocFlags := 0x10000000
def afVmmReservationSparse : AllocFlags := 0x20000000
def afVmmReservationOnDemand : AllocFlags := 0x40000000

end FoliOS.Strata
