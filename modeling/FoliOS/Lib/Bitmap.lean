import Mathlib.Data.Finset.Card

/-!
# Bitmaps over an array of machine words

A bitmap of `w`-bit words is a function `Nat → BitVec w`; bit `k` lives in word
`k / w` at position `k % w`. The allocator code sets and clears one bit by a
word update, and searches by skipping full words and counting trailing zeros;
this file relates those word operations to the bits themselves and to the
number of set bits among the first `n`.
-/

namespace FoliOS.Lib

open Function

variable {b i n : Nat}

variable {w : Nat}

/-- Bit `k` of a bitmap of `w`-bit words. -/
def getBit (bm : Nat → BitVec w) (k : Nat) : Bool := (bm (k / w)).getLsbD (k % w)

/-- `bm[i] |= 1 << b` -/
def setWordBit (bm : Nat → BitVec w) (i b : Nat) : Nat → BitVec w :=
  update bm i (bm i ||| 1#w <<< b)

/-- `bm[i] &= ~(1 << b)` -/
def clearWordBit (bm : Nat → BitVec w) (i b : Nat) : Nat → BitVec w :=
  update bm i (bm i &&& ~~~(1#w <<< b))

/-- Position of the lowest set bit; `w` when there is none. -/
def ctz (v : BitVec w) : Nat := ((List.range w).find? fun i => v.getLsbD i).getD w

/-- The number of set bits among the first `n`. -/
def countBits (bm : Nat → BitVec w) (n : Nat) : Nat :=
  ((Finset.range n).filter fun k => getBit bm k = true).card

/-! ## Single-bit masks -/

theorem getLsbD_one_shiftLeft (b j : Nat) :
    (1#w <<< b).getLsbD j = (decide (b < w) && decide (b = j)) := by
  rw [← BitVec.twoPow_eq, BitVec.getLsbD_twoPow]

/-- `(1 << b) - 1` has the bits below `b`. -/
theorem getLsbD_lowMask {j : Nat} (hj : j < w) : (1#w <<< b - 1#w).getLsbD j = decide (j < b) := by
  by_cases hb : b < w
  · have hlt : 2 ^ b < 2 ^ w := Nat.pow_lt_pow_right (by decide) hb
    have hle : 1#w ≤ BitVec.twoPow w b := by
      rw [BitVec.le_def, BitVec.toNat_twoPow, Nat.mod_eq_of_lt hlt]
      exact (Nat.mod_le 1 _).trans (Nat.two_pow_pos b)
    rw [← BitVec.twoPow_eq, BitVec.getLsbD, BitVec.toNat_sub_of_le hle, BitVec.toNat_twoPow,
      Nat.mod_eq_of_lt hlt, BitVec.toNat_ofNat, Nat.mod_eq_of_lt (Nat.one_lt_two_pow (by omega))]
    exact Nat.testBit_two_pow_sub_one b j
  · rw [BitVec.shiftLeft_eq_zero (by omega), BitVec.zero_sub, BitVec.neg_one_eq_allOnes,
      BitVec.getLsbD_allOnes, decide_eq_true hj, decide_eq_true (by omega)]

/-- `v & (1 << b)`, read as a truth value. -/
theorem and_bit_eq_zero_iff {v : BitVec w} (hb : b < w) :
    v &&& 1#w <<< b = 0 ↔ v.getLsbD b = false := by
  rw [← BitVec.twoPow_eq, BitVec.and_twoPow]
  cases v.getLsbD b with
  | false => simp
  | true =>
    refine ⟨fun h => ?_, fun h => absurd h (by simp)⟩
    have := congrArg (fun x => x.getLsbD b) h
    simp [hb] at this

/-- A bit index is a word index and a position in the word. -/
private theorem bit_index_eq {j : Nat} (hb : b < w) : j = i * w + b ↔ j / w = i ∧ j % w = b := by
  constructor
  · rintro rfl
    have hw : 0 < w := by omega
    exact ⟨by rw [Nat.add_comm, Nat.add_mul_div_right _ _ hw, Nat.div_eq_of_lt hb, Nat.zero_add],
      by rw [Nat.add_comm, Nat.add_mul_mod_self_right, Nat.mod_eq_of_lt hb]⟩
  · rintro ⟨rfl, rfl⟩
    rw [Nat.mul_comm]
    exact (Nat.div_add_mod j w).symm

/-- Setting a word's bit sets exactly that bit of the bitmap. -/
theorem getBit_setWordBit (bm : Nat → BitVec w) (hb : b < w) (j : Nat) :
    getBit (setWordBit bm i b) j = (decide (j = i * w + b) || getBit bm j) := by
  unfold getBit setWordBit
  by_cases hi : j / w = i
  · rw [hi, update_self, BitVec.getLsbD_or, getLsbD_one_shiftLeft, Bool.or_comm]
    simp [hb, bit_index_eq hb, hi, eq_comm]
  · simp [bit_index_eq hb, hi]

/-- Clearing a word's bit clears exactly that bit of the bitmap. -/
theorem getBit_clearWordBit (bm : Nat → BitVec w) (hb : b < w) (j : Nat) :
    getBit (clearWordBit bm i b) j = (!decide (j = i * w + b) && getBit bm j) := by
  unfold getBit clearWordBit
  have hw : 0 < w := by omega
  by_cases hi : j / w = i
  · rw [hi, update_self, BitVec.getLsbD_and, BitVec.getLsbD_not,
      getLsbD_one_shiftLeft, Bool.and_comm]
    simp [hb, bit_index_eq hb, hi, eq_comm, Nat.mod_lt j hw]
  · simp [bit_index_eq hb, hi]

/-! ## Searching -/

/-- The lowest set bit of a non-zero word is set, and every lower bit is clear. -/
theorem ctz_spec {v : BitVec w} (hv : v ≠ 0) :
    ctz v < w ∧ v.getLsbD (ctz v) = true ∧ ∀ j < ctz v, v.getLsbD j = false := by
  cases hf : (List.range w).find? fun i => v.getLsbD i with
  | none =>
    refine absurd (BitVec.eq_of_getLsbD_eq fun i hi => ?_) hv
    have := List.find?_eq_none.mp hf i (List.mem_range.mpr hi)
    simpa using this
  | some i =>
    have hctz : ctz v = i := by simp [ctz, hf]
    rw [hctz]
    refine ⟨List.mem_range.mp (List.mem_of_find?_eq_some hf),
      List.find?_some hf, fun j hj => ?_⟩
    obtain ⟨-, hmin⟩ := List.find?_range_eq_some.mp hf
    simpa using hmin.2 j hj

/-- The first clear bit of a word that is not full. -/
theorem ctz_not_spec {v : BitVec w} (hv : v ≠ BitVec.allOnes w) :
    ctz (~~~v) < w ∧ v.getLsbD (ctz (~~~v)) = false := by
  have hne : ~~~v ≠ 0 := by
    intro h
    apply hv
    have : ~~~(~~~v) = ~~~(0#w) := by rw [h]; rfl
    simpa using this
  obtain ⟨hlt, hbit, -⟩ := ctz_spec hne
  exact ⟨hlt, by simpa [hlt] using hbit⟩

/-! ## Counting -/

theorem countBits_le (bm : Nat → BitVec w) (n : Nat) : countBits bm n ≤ n := by
  have := Finset.card_filter_le (Finset.range n) fun k => getBit bm k = true
  simpa [countBits] using this

/-- A count below the capacity leaves a clear bit. -/
theorem exists_clear_of_countBits_lt {bm : Nat → BitVec w} (h : countBits bm n < n) :
    ∃ k < n, getBit bm k = false := by
  by_contra hcon
  push Not at hcon
  have hall : (Finset.range n).filter (fun k => getBit bm k = true) = Finset.range n := by
    refine Finset.filter_true_of_mem fun k hk => ?_
    have := hcon k (Finset.mem_range.mp hk)
    simpa using this
  rw [countBits, hall, Finset.card_range] at h
  exact lt_irrefl n h

/-- A set bit makes the count positive. -/
theorem countBits_pos {bm : Nat → BitVec w} {k : Nat} (hk : k < n) (hbit : getBit bm k = true) :
    0 < countBits bm n :=
  Finset.card_pos.mpr ⟨k, by simp [hk, hbit]⟩

theorem countBits_setWordBit {bm : Nat → BitVec w} (hb : b < w) (hk : i * w + b < n)
    (hbit : getBit bm (i * w + b) = false) :
    countBits (setWordBit bm i b) n = countBits bm n + 1 := by
  have hins : (Finset.range n).filter (fun k => getBit (setWordBit bm i b) k = true) =
      insert (i * w + b) ((Finset.range n).filter fun k => getBit bm k = true) := by
    ext k
    simp only [Finset.mem_filter, Finset.mem_insert, Finset.mem_range,
      getBit_setWordBit bm hb, Bool.or_eq_true, decide_eq_true_eq]
    constructor
    · rintro ⟨hkn, rfl | hset⟩
      · exact .inl rfl
      · exact .inr ⟨hkn, hset⟩
    · rintro (rfl | ⟨hkn, hset⟩)
      · exact ⟨hk, .inl rfl⟩
      · exact ⟨hkn, .inr hset⟩
  rw [countBits, hins, Finset.card_insert_of_notMem (by simp [hbit]), countBits]

theorem countBits_clearWordBit {bm : Nat → BitVec w} (hb : b < w) (hk : i * w + b < n)
    (hbit : getBit bm (i * w + b) = true) :
    countBits (clearWordBit bm i b) n + 1 = countBits bm n := by
  have hers : (Finset.range n).filter (fun k => getBit (clearWordBit bm i b) k = true) =
      ((Finset.range n).filter fun k => getBit bm k = true).erase (i * w + b) := by
    ext k
    simp only [Finset.mem_filter, Finset.mem_erase, Finset.mem_range,
      getBit_clearWordBit bm hb, Bool.and_eq_true, Bool.not_eq_true', decide_eq_false_iff_not]
    tauto
  have hmem : i * w + b ∈ (Finset.range n).filter fun k => getBit bm k = true := by
    simp [hk, hbit]
  rw [countBits, hers, countBits, Finset.card_erase_of_mem hmem]
  have := Finset.card_pos.mpr ⟨_, hmem⟩
  omega

end FoliOS.Lib
