import FoliOS.Lib.Bitmap
import FoliOS.Strata.Paging.Model
import Mathlib.Tactic.IntervalCases

/-!
# Strata — the bits of a page-table entry

What reading and writing the fields of an entry does: the frame field and the
flag bits do not overlap, and the flags a leaf entry is written with are the
flags that are read back from it.
-/

namespace FoliOS.Strata.Paging

open Lib

variable {k j pfn : Nat}

section

variable (e : Word)
include e

/-- A test of one bit. -/
theorem hasBit_twoPow (hk : k < 64) : hasBit e (BitVec.twoPow 64 k) = e.getLsbD k := by
  have hzero := and_bit_eq_zero_iff (v := e) hk
  cases hbit : e.getLsbD k with
  | false => exact decide_eq_false (not_not.mpr (hzero.mpr hbit))
  | true => exact decide_eq_true fun h => by simp [hzero.mp h] at hbit

-- the single-bit masks are powers of two
theorem hasBit_P : hasBit e pteP = e.getLsbD 0 :=
  hasBit_twoPow e (k := 0) (by omega)
theorem hasBit_PS : hasBit e ptePS = e.getLsbD 7 :=
  hasBit_twoPow e (k := 7) (by omega)

end

theorem getLsbD_pteBaseMask (hj : j < 64) : pteBaseMask.getLsbD j = decide (12 ≤ j ∧ j < 52) := by
  interval_cases j <;> rfl

/-! ## The frame field -/

/-- The bits of an entry with a new frame. -/
theorem getLsbD_withFrame (e : Word) (hpfn : pfn < 2 ^ 40) (hj : j < 64) :
    (withFrame e pfn).getLsbD j =
      if 12 ≤ j ∧ j < 52 then pfn.testBit (j - 12) else e.getLsbD j := by
  unfold withFrame
  rw [BitVec.getLsbD_or, BitVec.getLsbD_and, BitVec.getLsbD_not, getLsbD_pteBaseMask hj,
    BitVec.getLsbD_shiftLeft, BitVec.getLsbD_ofNat]
  by_cases hin : 12 ≤ j ∧ j < 52
  · simp only [hin, and_self, decide_true, Bool.not_true, Bool.and_false, Bool.false_or, hj,
      Bool.true_and, if_true, pteBaseShift, show ¬(j < 12) by omega, decide_false, Bool.not_false,
      show j - 12 < 64 by omega]
  · simp only [hin, decide_false, Bool.not_false, hj, decide_true, Bool.true_and, Bool.and_true,
      if_false, pteBaseShift]
    by_cases hlow : j < 12
    · simp [hlow]
    · -- above the field, a frame number below 2^40 has no bit left
      have : pfn.testBit (j - 12) = false :=
        Nat.testBit_lt_two_pow (lt_of_lt_of_le hpfn (Nat.pow_le_pow_right (by omega) (by omega)))
      simp [this]

/-- The frame of an entry from its bits. -/
theorem frameOf_eq_testBit (e : Word) {f : Nat} (hf : f < 2 ^ 40)
    (h : ∀ j, 12 ≤ j → j < 52 → e.getLsbD j = f.testBit (j - 12)) : frameOf e = f := by
  unfold frameOf
  have heq : (e &&& pteBaseMask) >>> pteBaseShift = BitVec.ofNat 64 f := by
    apply BitVec.eq_of_getLsbD_eq
    intro i hi
    rw [BitVec.getLsbD_ushiftRight, BitVec.getLsbD_and, BitVec.getLsbD_ofNat]
    simp only [pteBaseShift, hi, decide_true, Bool.true_and]
    by_cases hlt : i < 40
    · rw [h (12 + i) (by omega) (by omega), getLsbD_pteBaseMask (by omega)]
      simp [show 12 + i < 52 by omega]
    · have hz : f.testBit i = false :=
        Nat.testBit_lt_two_pow (lt_of_lt_of_le hf (Nat.pow_le_pow_right (by omega) (by omega)))
      rw [hz]
      by_cases h64 : 12 + i < 64
      · rw [getLsbD_pteBaseMask h64]
        simp [show ¬(12 + i < 52) by omega]
      · simp [BitVec.getLsbD_of_ge pteBaseMask (12 + i) (by omega)]
  rw [heq, BitVec.toNat_ofNat]
  exact Nat.mod_eq_of_lt (lt_trans hf (by decide))

/-- **The frame put into an entry is read back.** -/
theorem frameOf_withFrame (e : Word) (hpfn : pfn < 2 ^ 40) : frameOf (withFrame e pfn) = pfn := by
  refine frameOf_eq_testBit _ hpfn fun j h1 h2 => ?_
  rw [getLsbD_withFrame e hpfn (by omega), if_pos ⟨h1, h2⟩]

theorem frameOf_lt (e : Word) : frameOf e < 2 ^ 40 := by
  unfold frameOf
  rw [BitVec.toNat_ushiftRight, Nat.shiftRight_eq_div_pow, BitVec.toNat_and]
  have : e.toNat &&& pteBaseMask.toNat ≤ pteBaseMask.toNat := Nat.and_le_right
  have hmask : pteBaseMask.toNat = 0x000FFFFFFFFFF000 := rfl
  simp only [pteBaseShift]
  omega

/-- The frame depends on the base field only. -/
theorem frameOf_congr {e e' : Word} (h : e &&& pteBaseMask = e' &&& pteBaseMask) :
    frameOf e = frameOf e' := by
  unfold frameOf
  rw [h]

/-! ## Entries of inner tables -/

@[simp] theorem isPresent_or_US (e : Word) : isPresent (e ||| pteUS) = isPresent e := by
  unfold isPresent
  rw [hasBit_P, hasBit_P, BitVec.getLsbD_or, show pteUS.getLsbD 0 = false from rfl, Bool.or_false]

@[simp] theorem isHuge_or_US (e : Word) : isHuge (e ||| pteUS) = isHuge e := by
  unfold isHuge
  rw [hasBit_PS, hasBit_PS, BitVec.getLsbD_or, show pteUS.getLsbD 7 = false from rfl, Bool.or_false]

@[simp] theorem frameOf_or_US (e : Word) : frameOf (e ||| pteUS) = frameOf e := by
  refine frameOf_congr ?_
  have hdisj : pteUS &&& pteBaseMask = 0 := rfl
  rw [BitVec.and_comm, BitVec.and_or_distrib_left, BitVec.and_comm pteBaseMask pteUS, hdisj,
    BitVec.and_comm]
  exact BitVec.or_zero

section

variable (hpfn : pfn < 2 ^ 40) (user : Bool)
include hpfn user

/-- The bits of the entry for a new table. -/
theorem getLsbD_tableEntry (hj : j < 64) :
    (tableEntry pfn user).getLsbD j =
      if 12 ≤ j ∧ j < 52 then pfn.testBit (j - 12)
      else decide (j = 0) || decide (j = 1) || (user && decide (j = 2)) := by
  have hP : pteP.getLsbD j = decide (j = 0) := by interval_cases j <;> rfl
  have hRW : pteRW.getLsbD j = decide (j = 1) := by interval_cases j <;> rfl
  have hUS : pteUS.getLsbD j = decide (j = 2) := by interval_cases j <;> rfl
  have hz : (0 : Word).getLsbD j = false := BitVec.getLsbD_zero
  have hset : (withFrame 0 pfn ||| pteP ||| pteRW).getLsbD j =
      if 12 ≤ j ∧ j < 52 then pfn.testBit (j - 12) else decide (j = 0) || decide (j = 1) := by
    rw [BitVec.getLsbD_or, BitVec.getLsbD_or, getLsbD_withFrame _ hpfn hj, hP, hRW, hz]
    split
    · simp [show j ≠ 0 by omega, show j ≠ 1 by omega]
    · rw [Bool.false_or]
  unfold tableEntry
  cases user with
  | false =>
    simp only [Bool.false_eq_true, if_false]
    rw [BitVec.getLsbD_and, BitVec.getLsbD_not, hUS, hset]
    by_cases h2 : j = 2
    · subst h2; rfl
    · simp [h2, hj]
  | true =>
    simp only [if_true]
    rw [BitVec.getLsbD_or, hUS, hset]
    split
    · simp [show j ≠ 2 by omega]
    · rw [Bool.true_and]

/-- A table entry is present. -/
theorem isPresent_tableEntry : isPresent (tableEntry pfn user) = true := by
  unfold isPresent
  rw [hasBit_P, getLsbD_tableEntry hpfn user (by omega)]
  rfl

/-- A table entry is no page. -/
theorem isHuge_tableEntry : isHuge (tableEntry pfn user) = false := by
  unfold isHuge
  rw [hasBit_PS, getLsbD_tableEntry hpfn user (by omega)]
  cases user <;> rfl

/-- A table entry leads to its table. -/
theorem frameOf_tableEntry : frameOf (tableEntry pfn user) = pfn := by
  refine frameOf_eq_testBit _ hpfn fun j h1 h2 => ?_
  rw [getLsbD_tableEntry hpfn user (by omega), if_pos ⟨h1, h2⟩]

end

@[simp] theorem isPresent_zero : isPresent 0 = false := rfl

/-! ## Leaf entries -/

/-- The flags a leaf entry can carry. -/
def visibleFlags (hasNx : Bool) : MapFlags :=
  mfWritable ||| mfUser ||| mfNoCache ||| mfWritethruCache ||| mfPoolLargeAlloc |||
    mfPoolSubpool |||
    (if hasNx then mfNoExecute else 0)

/-- The bits of a new leaf. -/
theorem getLsbD_template (hasNx : Bool) (mf : MapFlags) : let e := pteTemplate hasNx mf
    e.getLsbD 0 = true ∧ e.getLsbD 1 = hasFlag mf mfWritable ∧ e.getLsbD 2 = hasFlag mf mfUser ∧
    e.getLsbD 3 = hasFlag mf mfWritethruCache ∧ e.getLsbD 4 = hasFlag mf mfNoCache ∧
    e.getLsbD 7 = false ∧ e.getLsbD 8 = false ∧ e.getLsbD 9 = hasFlag mf mfPoolLargeAlloc ∧
    e.getLsbD 10 = hasFlag mf mfPoolSubpool ∧
    e.getLsbD 63 = (hasNx && hasFlag mf mfNoExecute) := by
  simp only [pteTemplate, mapflagsToPtePrivateBits]
  cases hasFlag mf mfWritable <;> cases hasFlag mf mfUser <;> cases hasFlag mf mfNoCache <;>
    cases hasFlag mf mfWritethruCache <;> cases hasFlag mf mfPoolLargeAlloc <;>
    cases hasFlag mf mfPoolSubpool <;> cases hasNx <;> cases hasFlag mf mfNoExecute <;> decide

/-- A leaf entry with its frame. -/
theorem hasBit_leaf (hasNx : Bool) (mf : MapFlags) (hpfn : pfn < 2 ^ 40) (hk : k < 64)
    (hout : ¬(12 ≤ k ∧ k < 52)) :
      hasBit (withFrame (pteTemplate hasNx mf) pfn) (BitVec.twoPow 64 k) =
      (pteTemplate hasNx mf).getLsbD k := by
  rw [hasBit_twoPow _ hk, getLsbD_withFrame _ hpfn hk, if_neg hout]

/-- A new leaf is present. -/
theorem isPresent_leaf (hasNx : Bool) (mf : MapFlags) (hpfn : pfn < 2 ^ 40) :
    isPresent (withFrame (pteTemplate hasNx mf) pfn) = true :=
  (hasBit_leaf (k := 0) hasNx mf hpfn (by omega) (by omega)).trans (getLsbD_template hasNx mf).1

/-- A single-bit flag that is copied when set. -/
theorem pick_flag (mf : MapFlags) {m : MapFlags} (hm : m = BitVec.twoPow 32 k) :
    (if hasFlag mf m then m else 0) = mf &&& m := by
  subst hm
  unfold hasFlag
  rw [BitVec.and_twoPow]
  cases mf.getLsbD k with
  | false => simp
  | true => by_cases h0 : BitVec.twoPow 32 k = 0#32 <;> simp [h0]

/-- The flags read back from a leaf entry are those it was written with. -/
theorem pteToMapflags_leaf (hasNx : Bool) (mf : MapFlags) (hpfn : pfn < 2 ^ 40) :
    pteToMapflags hasNx (withFrame (pteTemplate hasNx mf) pfn) = mf &&& visibleFlags hasNx := by
  obtain ⟨-, h1, h2, h3, h4, -, h8, h9, h10, h63⟩ := getLsbD_template hasNx mf
  have hbit := fun k => hasBit_leaf (k := k) hasNx mf hpfn
  have hRW : hasBit _ pteRW = _ := (hbit 1 (by omega) (by omega)).trans h1
  have hUS : hasBit _ pteUS = _ := (hbit 2 (by omega) (by omega)).trans h2
  have hPWT : hasBit _ ptePWT = _ := (hbit 3 (by omega) (by omega)).trans h3
  have hPCD : hasBit _ ptePCD = _ := (hbit 4 (by omega) (by omega)).trans h4
  have hG : hasBit _ pteG = _ := (hbit 8 (by omega) (by omega)).trans h8
  have hSW0 : hasBit _ pteSW0 = _ := (hbit 9 (by omega) (by omega)).trans h9
  have hSW1 : hasBit _ pteSW1 = _ := (hbit 10 (by omega) (by omega)).trans h10
  have hXD : hasBit _ pteXD = _ := (hbit 63 (by omega) (by omega)).trans h63
  have hW := pick_flag mf (show mfWritable = BitVec.twoPow 32 0 from rfl)
  have hU := pick_flag mf (show mfUser = BitVec.twoPow 32 1 from rfl)
  have hC := pick_flag mf (show mfNoCache = BitVec.twoPow 32 2 from rfl)
  have hT := pick_flag mf (show mfWritethruCache = BitVec.twoPow 32 3 from rfl)
  have hX := pick_flag mf (show mfNoExecute = BitVec.twoPow 32 4 from rfl)
  have hL := pick_flag mf (show mfPoolLargeAlloc = BitVec.twoPow 32 6 from rfl)
  have hS := pick_flag mf (show mfPoolSubpool = BitVec.twoPow 32 7 from rfl)
  unfold pteToMapflags visibleFlags
  rw [hRW, hUS, hPCD, hPWT, hG, hXD, hSW0, hSW1, hW, hU, hC, hT, hL, hS]
  cases hasNx with
  | false =>
    simp only [Bool.false_and, Bool.false_eq_true, if_false, BitVec.and_or_distrib_left]
    simp
  | true =>
    simp only [Bool.true_and, Bool.false_eq_true, if_false, if_true, hX,
      BitVec.and_or_distrib_left]
    ac_rfl

end FoliOS.Strata.Paging
