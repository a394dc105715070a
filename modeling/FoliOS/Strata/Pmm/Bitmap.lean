import Mathlib.Tactic.IntervalCases
import FoliOS.Lib.Buddy
import FoliOS.Strata.Pmm.Model

/-!
# Strata — the buddy bitmap of an entry

The 63 bits of a bitmap entry are a buddy tree of height 5 over its 32 frames:
node `i` of level `o` is bit `levelPos o + i`. `BitmapOk` says that the tree is
sound; it is kept by `allocate_from_bitmap_entry` (`allocateFromBitmapEntry_ok`) and by
`free_to_bitmap_entry` (`freeToBitmapEntry_ok`), and makes
`find_free_frame_idx_bitmap_entry` exact (`findFree_some`, `findFree_none`).
-/

namespace FoliOS.Strata.Pmm

open Lib

variable {o' i' : Nat} {b' : Bitmap}

/-- The bit of node `i` of level `o`. -/
def node (b : Bitmap) (o i : Nat) : Bool := b.getLsbD (levelPos o + i)

/-- The bits of an entry are a sound tree, and the tag bit is clear. -/
structure BitmapOk (b : Bitmap) : Prop where
  sound : Buddy.Sound 5 (node b)
  tag   : b.getLsbD 63 = false

variable {b : Bitmap} {o i k p : Nat}

theorem node_zero (b : Bitmap) (p : Nat) : node b 0 p = b.getLsbD p := by
  rw [node, levelPos, Nat.zero_add]

/-- The nodes of level `o` lie between those of the level below and of the level above. -/
theorem node_pos_lt (ho : o ≤ 5) (hi : i < 2 ^ (5 - o)) :
    levelPos o + i < 63 ∧ (o < 5 → levelPos o + i < levelPos (o + 1)) := by
  interval_cases o <;> simp only [levelPos] at * <;> omega

theorem levelPos_mono (h : o < o') (ho' : o' ≤ 5) : levelPos (o + 1) ≤ levelPos o' := by
  interval_cases o' <;> interval_cases o <;> decide

section

variable (ho : o ≤ 5) (hi : i < 2 ^ (5 - o)) (ho' : o' ≤ 5) (hi' : i' < 2 ^ (5 - o'))
include ho hi ho' hi'

/-- Different nodes have different bits. -/
theorem node_pos_inj : levelPos o' + i' = levelPos o + i ↔ o' = o ∧ i' = i := by
  refine ⟨fun h => ?_, fun h => by rw [h.1, h.2]⟩
  rcases Nat.lt_trichotomy o o' with hlt | rfl | hlt
  · have := (node_pos_lt ho hi).2 (by omega)
    have := levelPos_mono hlt ho'
    omega
  · exact ⟨rfl, by omega⟩
  · have := (node_pos_lt ho' hi').2 (by omega)
    have := levelPos_mono hlt ho
    omega

theorem node_or_bit :
    node (b ||| 1#64 <<< (levelPos o + i)) o' i' = (node b o' i' || decide (o' = o ∧ i' = i)) := by
  have hpos := (node_pos_lt ho hi).1
  rw [node, BitVec.getLsbD_or, getLsbD_one_shiftLeft, node]
  congr 1
  rw [decide_eq_true (by omega : levelPos o + i < 64), Bool.true_and, decide_eq_decide, eq_comm,
    node_pos_inj ho hi ho' hi']

theorem node_and_not_bit : node (b &&& ~~~(1#64 <<< (levelPos o + i))) o' i' =
      (node b o' i' && !decide (o' = o ∧ i' = i)) := by
  have hpos := (node_pos_lt ho hi).1
  have hpos' := (node_pos_lt ho' hi').1
  rw [node, BitVec.getLsbD_and, BitVec.getLsbD_not, getLsbD_one_shiftLeft, node,
    decide_eq_true (by omega : levelPos o' + i' < 64), Bool.true_and,
    decide_eq_true (by omega : levelPos o + i < 64), Bool.true_and]
  congr 2
  rw [decide_eq_decide, eq_comm, node_pos_inj ho hi ho' hi']

end

/-! ## The masks -/

/-- The table of masks, checked against the tree: the mask of a run has the nodes inside it. -/
theorem runMask_table :
    ((List.range 32).all fun k => (List.range 6).all fun o =>
      let m := (runMask k o).getD 0
      (runMask k o).isSome && !m.getLsbD 63 && (List.range 6).all fun o' =>
        (List.range (2 ^ (5 - o'))).all
        fun i => node m o' i == (decide (o' ≤ o) && decide (i / 2 ^ (o - o') = k / 2 ^ o))) =
          true := by
  decide +kernel

theorem runMask_spec (hk : k < 32) (ho : o ≤ 5) :
    ∃ m, runMask k o = some m ∧ m.getLsbD 63 = false ∧ ∀ o' i, o' ≤ 5 → i < 2 ^ (5 - o') →
      (node m o' i = true ↔ o' ≤ o ∧ Buddy.Meets o' i o (k / 2 ^ o)) := by
  have h := runMask_table
  simp only [List.all_eq_true, List.mem_range] at h
  have h := h k hk o (by omega)
  cases hm : runMask k o with
  | none => simp [hm] at h
  | some m =>
    simp only [hm, Option.getD_some, Bool.and_eq_true, List.all_eq_true, List.mem_range] at h
    refine ⟨m, rfl, by simpa using h.1.2, fun o' i ho' hi => ?_⟩
    have hbit := h.2 o' (by omega) i hi
    rw [beq_iff_eq] at hbit
    rw [hbit, Bool.and_eq_true, decide_eq_true_eq, decide_eq_true_eq]
    refine and_congr_right fun hle => ?_
    rw [Buddy.meets_iff_of_le hle]

theorem levelMask_table :
    ((List.range 6).all fun o => (levelMask o).isSome && (List.range 64).all fun p =>
      ((levelMask o).getD 0).getLsbD p ==
        (decide (levelPos o ≤ p) && decide (p < levelPos o + 2 ^ (5 - o)))) = true := by
  decide +kernel

theorem levelMask_spec (ho : o ≤ 5) :
    ∃ m, levelMask o = some m ∧ ∀ p, p < 64 →
      (m.getLsbD p = true ↔ levelPos o ≤ p ∧ p < levelPos o + 2 ^ (5 - o)) := by
  have h := levelMask_table
  simp only [List.all_eq_true, List.mem_range] at h
  have h := h o (by omega)
  cases hm : levelMask o with
  | none => simp [hm] at h
  | some m =>
    simp only [hm, Option.getD_some, Bool.and_eq_true, List.all_eq_true, List.mem_range] at h
    refine ⟨m, rfl, fun p hp => ?_⟩
    have hbit := h.2 p hp
    rw [beq_iff_eq] at hbit
    rw [hbit, Bool.and_eq_true, decide_eq_true_eq, decide_eq_true_eq]

/-! ## Taking a run -/

/-- Bits other than those of inner nodes stay as they are. -/
theorem getLsbD_propagateUp_of_tag (set : Bool) :
    ∀ n o idx b, o + n ≤ 5 → idx < 2 ^ (5 - o) →
      (propagateUp set n o idx b).getLsbD 63 = b.getLsbD 63 := by
  intro n
  induction n with
  | zero => exact fun _ _ _ _ _ => rfl
  | succ n ih =>
    intro o idx b ho hidx
    have hidx' : idx / 2 < 2 ^ (5 - (o + 1)) := by
      rw [show 5 - o = 5 - (o + 1) + 1 by omega, pow_succ] at hidx
      omega
    have hpos := (node_pos_lt (by omega : o + 1 ≤ 5) hidx').1
    have hne : ¬(levelPos (o + 1) + idx / 2 = 63) := by omega
    unfold propagateUp
    dsimp only
    split_ifs
    · rw [ih _ _ _ (by omega) hidx', BitVec.getLsbD_or, getLsbD_one_shiftLeft]
      simp [hne]
    · rw [ih _ _ _ (by omega) hidx', BitVec.getLsbD_and, BitVec.getLsbD_not, getLsbD_one_shiftLeft]
      simp [hne]
    · rfl

/-- Going up with `set` sets the nodes above. -/
theorem node_propagateUp_set :
    ∀ n o idx b, o + n = 5 → idx < 2 ^ (5 - o) → ∀ o' i, o' ≤ 5 → i < 2 ^ (5 - o') →
      (node (propagateUp true n o idx b) o' i = true ↔
        node b o' i = true ∨ (o < o' ∧ idx / 2 ^ (o' - o) = i)) := by
  intro n
  induction n with
  | zero =>
    intro o idx b ho hidx o' i ho' hi
    exact ⟨.inl, fun h => h.resolve_right (by omega)⟩
  | succ n ih =>
    intro o idx b ho hidx o' i ho' hi
    have hidx' : idx / 2 < 2 ^ (5 - (o + 1)) := by
      rw [show 5 - o = 5 - (o + 1) + 1 by omega, pow_succ] at hidx
      omega
    rw [propagateUp, if_pos rfl, ih _ _ _ (by omega) hidx' o' i ho' hi,
      node_or_bit (by omega) hidx' ho' hi, Bool.or_eq_true, decide_eq_true_eq, or_assoc]
    refine or_congr_right ?_
    constructor
    · rintro (⟨rfl, rfl⟩ | ⟨hlt, heq⟩)
      · exact ⟨by omega, by rw [Nat.add_sub_cancel_left, pow_one]⟩
      · refine ⟨by omega, ?_⟩
        rw [← heq, Nat.div_div_eq_div_mul, ← pow_succ', show o' - (o + 1) + 1 = o' - o by omega]
    · rintro ⟨hlt, heq⟩
      by_cases hcase : o' = o + 1
      · subst hcase
        rw [Nat.add_sub_cancel_left, pow_one] at heq
        exact .inl ⟨rfl, heq.symm⟩
      · refine .inr ⟨by omega, ?_⟩
        rw [← heq, Nat.div_div_eq_div_mul, ← pow_succ', show o' - (o + 1) + 1 = o' - o by omega]

/-- The frames of an aligned run are those of its node. -/
theorem div_eq_iff_mem (hk : k % 2 ^ o = 0) : p / 2 ^ o = k / 2 ^ o ↔ k ≤ p ∧ p < k + 2 ^ o := by
  have hpos := Nat.two_pow_pos o
  have hmul : k / 2 ^ o * 2 ^ o = k := Nat.div_mul_cancel (Nat.dvd_of_mod_eq_zero hk)
  rw [Nat.div_eq_iff hpos, hmul]
  omega

theorem node_lt (ho : o ≤ 5) (hp : p < 32) : p / 2 ^ o < 2 ^ (5 - o) :=
  (Buddy.node_lt_iff ho).mpr hp

/-- **Allocation keeps the tree sound**, and takes exactly the frames of the run. -/
theorem allocateFromBitmapEntry_ok (hb : BitmapOk b) (ho : o ≤ 5) (hk : k % 2 ^ o = 0)
    (hend : k + 2 ^ o ≤ 32) :
    BitmapOk (allocateFromBitmapEntry b k o) ∧ ∀ p, p < 32 →
      ((allocateFromBitmapEntry b k o).getLsbD p = true ↔
        b.getLsbD p = true ∨ (k ≤ p ∧ p < k + 2 ^ o)) := by
  have hk32 : k < 32 := by
    omega
  obtain ⟨m, hm, htag, hmask⟩ := runMask_spec hk32 ho
  have halloc :
      allocateFromBitmapEntry b k o = propagateUp true (5 - o) o (k / 2 ^ o) (b ||| m) := by
    rw [allocateFromBitmapEntry, hm]
  have hbits : ∀ o' i, o' ≤ 5 → i < 2 ^ (5 - o') →
      (node (allocateFromBitmapEntry b k o) o' i = true ↔
        node b o' i = true ∨ Buddy.Meets o' i o (k / 2 ^ o)) := by
    intro o' i ho' hi
    rw [halloc, node_propagateUp_set _ _ _ _ (by omega) (node_lt ho hk32) o' i ho' hi, node,
      BitVec.getLsbD_or, Bool.or_eq_true, or_assoc]
    refine or_congr_right ?_
    have hmi := hmask o' i ho' hi
    rw [node] at hmi
    rw [hmi]
    -- below the run the mask sets the nodes, above it the climb does
    by_cases hle : o' ≤ o
    · simp only [hle, true_and, show ¬o < o' by omega, false_and, or_false]
    · rw [Buddy.meets_comm, Buddy.meets_iff_of_le (by omega : o ≤ o')]
      simp only [hle, false_and, show o < o' by omega, true_and, false_or]
  refine ⟨⟨hb.sound.mark hbits, ?_⟩, fun p hp => ?_⟩
  · rw [halloc, getLsbD_propagateUp_of_tag _ _ _ _ _ (by omega) (node_lt ho hk32),
      BitVec.getLsbD_or, hb.tag, htag]
    rfl
  · have h := hbits 0 p (by omega) (by simpa using hp)
    rwa [node_zero, node_zero, Buddy.meets_zero, div_eq_iff_mem hk] at h

/-! ## Finding a run -/

theorem getLsbD_inverted {m : Bitmap} (hp : p < 64) :
    (~~~b &&& m).getLsbD p = (!b.getLsbD p && m.getLsbD p) := by
  rw [BitVec.getLsbD_and, BitVec.getLsbD_not, decide_eq_true hp, Bool.true_and]

/-- What is found is a clear node of that level. -/
theorem findFree_node (h : findFreeFrameIdxBitmapEntry b o = some k) :
    o ≤ 5 ∧ ∃ i < 2 ^ (5 - o), k = i * 2 ^ o ∧ node b o i = false := by
  have ho : o ≤ 5 := by
    by_contra hgt
    have hnone : levelMask o = none := by
      unfold levelMask
      split <;> first | omega | rfl
    rw [findFreeFrameIdxBitmapEntry, hnone] at h
    simp at h
  obtain ⟨m, hm, hmask⟩ := levelMask_spec ho
  rw [findFreeFrameIdxBitmapEntry, hm] at h
  dsimp only at h
  split_ifs at h with hzero
  obtain ⟨hlt, hbit, -⟩ := ctz_spec hzero
  rw [getLsbD_inverted hlt, Bool.and_eq_true] at hbit
  obtain ⟨hclear, hin⟩ := hbit
  obtain ⟨hlo, hhi⟩ := (hmask _ hlt).mp hin
  obtain ⟨i, hi⟩ : ∃ i, ctz (~~~b &&& m) = levelPos o + i := ⟨_, (Nat.add_sub_cancel' hlo).symm⟩
  rw [hi] at h hclear hhi
  rw [Nat.add_sub_cancel_left, Option.some.injEq] at h
  exact ⟨ho, i, by omega, h.symm, by simpa [node] using hclear⟩

/-- What is found lies inside the entry. -/
theorem findFree_bounds (h : findFreeFrameIdxBitmapEntry b o = some k) :
    o ≤ 5 ∧ k % 2 ^ o = 0 ∧ k + 2 ^ o ≤ 32 := by
  obtain ⟨ho, i, hi, rfl, -⟩ := findFree_node h
  have hend : (i + 1) * 2 ^ o ≤ 2 ^ (5 - o) * 2 ^ o := Nat.mul_le_mul_right _ hi
  rw [← pow_add, Nat.sub_add_cancel ho, Nat.add_mul, Nat.one_mul] at hend
  exact ⟨ho, Nat.mul_mod_left _ _, hend⟩

/-- What is found is aligned, inside the entry and free. -/
theorem findFree_some (hb : BitmapOk b) (h : findFreeFrameIdxBitmapEntry b o = some k) :
    o ≤ 5 ∧ k % 2 ^ o = 0 ∧ k + 2 ^ o ≤ 32 ∧ ∀ p, k ≤ p → p < k + 2 ^ o → b.getLsbD p = false := by
  obtain ⟨-, halign, hend⟩ := findFree_bounds h
  obtain ⟨ho, i, hi, rfl, hclear⟩ := findFree_node h
  refine ⟨ho, halign, hend, fun p hp hp' => ?_⟩
  have hdiv : p / 2 ^ o = i := by
    rw [Nat.div_eq_iff (Nat.two_pow_pos o)]
    omega
  rw [← Bool.not_eq_true, ← node_zero]
  intro htaken
  rw [(hb.sound o i ho hi).mpr ⟨p, hdiv, htaken⟩] at hclear
  cases hclear

/-- A search fails only if every aligned run has a taken frame. -/
theorem findFree_none (hb : BitmapOk b) (ho : o ≤ 5) (h : findFreeFrameIdxBitmapEntry b o = none)
    (hi : i < 2 ^ (5 - o)) : ∃ p, p / 2 ^ o = i ∧ b.getLsbD p = true := by
  obtain ⟨m, hm, hmask⟩ := levelMask_spec ho
  rw [findFreeFrameIdxBitmapEntry, hm] at h
  dsimp only at h
  split_ifs at h with hzero
  have hpos := (node_pos_lt ho hi).1
  have hbit : (~~~b &&& m).getLsbD (levelPos o + i) = false := by
    rw [hzero]
    exact BitVec.getLsbD_zero
  rw [getLsbD_inverted (by omega), (hmask _ (by omega)).mpr ⟨by omega, by omega⟩] at hbit
  obtain ⟨p, hp, htaken⟩ := (hb.sound o i ho hi).mp (by simpa [node] using hbit)
  exact ⟨p, hp, by rwa [node_zero] at htaken⟩

/-! ## Giving a run back -/

/-- Going up with `clear` restores the nodes above, and touches no frame. -/
theorem propagateUp_clear {q : Nat} (hq : q < 32) :
    ∀ n o b, o + n = 5 → Buddy.Climbing 5 (node b) q o →
      Buddy.Sound 5 (node (propagateUp false n o (q / 2 ^ o) b)) ∧
        ∀ p < 32, (propagateUp false n o (q / 2 ^ o) b).getLsbD p = b.getLsbD p := by
  intro n
  induction n with
  | zero =>
    intro o b ho hc
    obtain rfl : o = 5 := by omega
    exact ⟨hc.top, fun _ _ => rfl⟩
  | succ n ih =>
    intro o b ho hc
    have hidx : q / 2 ^ (o + 1) < 2 ^ (5 - (o + 1)) := node_lt (by omega) hq
    have hsib : (q / 2 ^ o) ^^^ 1 < 2 ^ (5 - o) := by
      have hlt := node_lt (by omega : o ≤ 5) hq
      have hhalf := (Buddy.half_eq_iff ((q / 2 ^ o) ^^^ 1) (q / 2 ^ o)).mpr (.inr rfl)
      rw [show 5 - o = 5 - (o + 1) + 1 by omega, pow_succ] at hlt ⊢
      omega
    have hpos := (node_pos_lt (by omega : o ≤ 5) hsib).1
    rw [propagateUp, if_neg (by simp), ← Buddy.div_pow_succ]
    by_cases hz : b &&& 1#64 <<< (levelPos o + (q / 2 ^ o ^^^ 1)) = 0
    · rw [if_pos hz]
      have hstep : Buddy.Climbing 5
          (node (b &&& ~~~(1#64 <<< (levelPos (o + 1) + q / 2 ^ (o + 1))))) q (o + 1) := by
        refine hc.step (by omega) hq ((and_bit_eq_zero_iff (by omega)).mp hz) ?_
          fun o' i ho' hi hne => ?_
        · rw [node_and_not_bit (by omega) hidx (by omega) hidx]
          simp
        · rw [node_and_not_bit (by omega) hidx ho' hi, decide_eq_false hne]
          simp
      obtain ⟨hsound, hsame⟩ := ih (o + 1) _ (by omega) hstep
      refine ⟨hsound, fun p hp => (hsame p hp).trans ?_⟩
      rw [← node_zero, node_and_not_bit (by omega) hidx (by omega) (by simpa using hp),
        decide_eq_false (by omega), node_zero]
      simp
    · rw [if_neg hz]
      rw [and_bit_eq_zero_iff (by omega), Bool.not_eq_false] at hz
      exact ⟨hc.stop (by omega) hq hz, fun _ _ => rfl⟩

/-- **Freeing keeps the tree sound**, and gives back exactly the frames of the run. -/
theorem freeToBitmapEntry_ok (hb : BitmapOk b) (ho : o ≤ 5) (hk : k % 2 ^ o = 0)
    (hend : k + 2 ^ o ≤ 32) (htaken : b.getLsbD k = true) :
    BitmapOk (freeToBitmapEntry b k o) ∧ ∀ p, p < 32 →
      ((freeToBitmapEntry b k o).getLsbD p = true ↔
        b.getLsbD p = true ∧ ¬(k ≤ p ∧ p < k + 2 ^ o)) := by
  have hk32 : k < 32 := by
    omega
  obtain ⟨m, hm, htag, hmask⟩ := runMask_spec hk32 ho
  have hfree : freeToBitmapEntry b k o = propagateUp false (5 - o) o (k / 2 ^ o) (b &&& ~~~m) := by
    rw [freeToBitmapEntry, hm]
  have hbits : ∀ o' i, o' ≤ 5 → i < 2 ^ (5 - o') →
      (node (b &&& ~~~m) o' i = true ↔
        node b o' i = true ∧ ¬(o' ≤ o ∧ Buddy.Meets o' i o (k / 2 ^ o))) := by
    intro o' i ho' hi
    have hpos := (node_pos_lt ho' hi).1
    have hmi := hmask o' i ho' hi
    rw [node] at hmi
    rw [node, BitVec.getLsbD_and, BitVec.getLsbD_not, decide_eq_true (by omega), Bool.true_and,
      Bool.and_eq_true, Bool.not_eq_true', ← Bool.not_eq_true, hmi, node]
  have hclimb : Buddy.Climbing 5 (node (b &&& ~~~m)) k o := by
    refine hb.sound.climb ho hk32 ?_ (fun o' i ho' hi => ?_) fun o' i hlt ho' hi => ?_
    · exact (hb.sound o _ ho (node_lt ho hk32)).mpr ⟨k, rfl, by rwa [node_zero]⟩
    · rw [hbits o' i (by omega) hi]
      simp only [ho', true_and]
    · have h := hbits o' i ho' hi
      simp only [show ¬o' ≤ o by omega, false_and, not_false_eq_true, and_true] at h
      rwa [Bool.eq_iff_iff]
  obtain ⟨hsound, hsame⟩ := propagateUp_clear hk32 (5 - o) o _ (by omega) hclimb
  rw [hfree]
  refine ⟨⟨hsound, ?_⟩, fun p hp => ?_⟩
  · rw [getLsbD_propagateUp_of_tag _ _ _ _ _ (by omega) (node_lt ho hk32), BitVec.getLsbD_and,
      hb.tag]
    rfl
  · have h := hbits 0 p (by omega) (by simpa using hp)
    rw [node_zero, node_zero, Buddy.meets_zero, div_eq_iff_mem hk] at h
    rw [hsame p hp, h]
    simp only [Nat.zero_le, true_and]

/-! ## Free and fully allocated entries -/

/-- Every bit but the tag is a node. -/
theorem exists_node (hp : p < 63) : ∃ o i, o ≤ 5 ∧ i < 2 ^ (5 - o) ∧ p = levelPos o + i := by
  by_cases h0 : p < 32
  · exact ⟨0, p, by omega, h0, by simp [levelPos]⟩
  by_cases h1 : p < 48
  · exact ⟨1, p - 32, by omega, by simp; omega, by simp [levelPos]; omega⟩
  by_cases h2 : p < 56
  · exact ⟨2, p - 48, by omega, by simp; omega, by simp [levelPos]; omega⟩
  by_cases h3 : p < 60
  · exact ⟨3, p - 56, by omega, by simp; omega, by simp [levelPos]; omega⟩
  by_cases h4 : p < 62
  · exact ⟨4, p - 60, by omega, by simp; omega, by simp [levelPos]; omega⟩
  · exact ⟨5, p - 62, by omega, by simp; omega, by simp [levelPos]; omega⟩

/-- A sound tree is determined by the frames. -/
theorem BitmapOk.ext (hb : BitmapOk b) (hb' : BitmapOk b')
    (h : ∀ p < 32, b.getLsbD p = b'.getLsbD p) : b = b' := by
  refine BitVec.eq_of_getLsbD_eq fun p hp => ?_
  by_cases htag : p = 63
  · rw [htag, hb.tag, hb'.tag]
  · obtain ⟨o, i, ho, hi, rfl⟩ := exists_node (by omega : p < 63)
    have hn := (hb.sound o i ho hi).iff
    have hn' := (hb'.sound o i ho hi).iff
    rw [node] at hn hn'
    rw [Bool.eq_iff_iff, hn, hn']
    refine exists_congr fun q => and_congr_right fun hq => ?_
    rw [node_zero, node_zero, h q (Buddy.page_lt ho hi hq)]

theorem bmpFree_ok : BitmapOk bmpFree := by
  refine ⟨fun o i _ _ => ?_, by decide⟩
  simp [Buddy.Exact, node, bmpFree]

/-! ## Runs of an entry -/

/-- A call on an entry: a run of `2 ^ order` frames at the place found for an alignment, or a
run given back. -/
inductive EntryCall where
  | allocate (alignOrder order : Nat)
  | free (index order : Nat)
  deriving DecidableEq, Repr

/-- One call on an entry and its live runs; a run that is freed is live. -/
def entryStep : Bitmap × List (Nat × Nat) → EntryCall → Option (Bitmap × List (Nat × Nat))
  | (b, live), .allocate a o =>
    if o ≤ a then
      (findFreeFrameIdxBitmapEntry b a).map fun k => (allocateFromBitmapEntry b k o, (k, o) :: live)
    else none
  | (b, live), .free k o =>
    if (k, o) ∈ live then some (freeToBitmapEntry b k o, live.erase (k, o)) else none

/-- The calls of a list, from a free entry. -/
def entryRun (calls : List EntryCall) : Option (Bitmap × List (Nat × Nat)) :=
  calls.foldlM entryStep (bmpFree, [])

/-- Frame `p` is in a run. -/
def InRun (r : Nat × Nat) (p : Nat) : Prop := r.1 ≤ p ∧ p < r.1 + 2 ^ r.2

/-- What holds between calls: the live runs are aligned and apart, and their frames are the taken
ones. -/
structure EntryOk (b : Bitmap) (live : List (Nat × Nat)) : Prop where
  bitmap : BitmapOk b
  fits   : ∀ r ∈ live, r.2 ≤ 5 ∧ r.1 % 2 ^ r.2 = 0 ∧ r.1 + 2 ^ r.2 ≤ 32
  apart  : live.Pairwise fun r r' => ∀ p, InRun r p → ¬ InRun r' p
  taken  : ∀ p, p < 32 → (b.getLsbD p = true ↔ ∃ r ∈ live, InRun r p)

section EntryRuns

variable {live : List (Nat × Nat)} {a : Nat}

/-- A run at the place found for an alignment fits, and its frames are free. -/
theorem findFree_run (hb : BitmapOk b) (hle : o ≤ a)
    (h : findFreeFrameIdxBitmapEntry b a = some k) :
    o ≤ 5 ∧ k % 2 ^ o = 0 ∧ k + 2 ^ o ≤ 32 ∧ ∀ p, InRun (k, o) p → b.getLsbD p = false := by
  obtain ⟨ha, halign, hend, hfree⟩ := findFree_some hb h
  have hpow : 2 ^ o ≤ 2 ^ a := Nat.pow_le_pow_right (by decide) hle
  refine ⟨by omega, ?_, by omega, fun p hp => hfree p hp.1 ?_⟩
  · exact Nat.mod_eq_zero_of_dvd ((Nat.pow_dvd_pow 2 hle).trans (Nat.dvd_of_mod_eq_zero halign))
  · exact lt_of_lt_of_le hp.2 (Nat.add_le_add_left hpow k)

theorem EntryOk.allocate (hI : EntryOk b live) (hle : o ≤ a)
    (h : findFreeFrameIdxBitmapEntry b a = some k) :
    EntryOk (allocateFromBitmapEntry b k o) ((k, o) :: live) := by
  obtain ⟨ho, halign, hend, hfree⟩ := findFree_run hI.bitmap hle h
  obtain ⟨hok, hbits⟩ := allocateFromBitmapEntry_ok hI.bitmap ho halign hend
  refine ⟨hok, ?_, ?_, fun p hp => ?_⟩
  · rintro r (_ | ⟨_, hr⟩)
    · exact ⟨ho, halign, hend⟩
    · exact hI.fits r hr
  · refine List.pairwise_cons.mpr ⟨fun r hr p hp hp' => ?_, hI.apart⟩
    have hlt : p < 32 := lt_of_lt_of_le hp.2 hend
    have htaken := (hI.taken p hlt).mpr ⟨r, hr, hp'⟩
    rw [hfree p hp] at htaken
    cases htaken
  · rw [hbits p hp, hI.taken p hp, List.exists_mem_cons_iff]
    exact or_comm

theorem EntryOk.free (hI : EntryOk b live) (hmem : (k, o) ∈ live) :
    EntryOk (freeToBitmapEntry b k o) (live.erase (k, o)) := by
  obtain ⟨ho, halign, hend⟩ := hI.fits _ hmem
  have hpos := Nat.two_pow_pos o
  have hfirst : b.getLsbD k = true :=
    (hI.taken k (by omega)).mpr ⟨_, hmem, le_rfl, Nat.lt_add_of_pos_right hpos⟩
  obtain ⟨hok, hbits⟩ := freeToBitmapEntry_ok hI.bitmap ho halign hend hfirst
  have hsub : live.erase (k, o) ⊆ live := List.erase_subset
  have hperm := List.perm_cons_erase hmem
  have hapart : ∀ r ∈ live.erase (k, o), ∀ p, InRun (k, o) p → ¬ InRun r p :=
    (List.pairwise_cons.mp ((hperm.pairwise_iff fun h p hp hp' => h p hp' hp).mp hI.apart)).1
  refine ⟨hok, fun r hr => hI.fits r (hsub hr), hI.apart.sublist List.erase_sublist, fun p hp => ?_⟩
  rw [hbits p hp, hI.taken p hp]
  constructor
  · rintro ⟨⟨r, hr, hin⟩, hout⟩
    rcases List.mem_cons.mp (hperm.mem_iff.mp hr) with rfl | hr
    · exact absurd hin hout
    · exact ⟨r, hr, hin⟩
  · rintro ⟨r, hr, hin⟩
    exact ⟨⟨r, hsub hr, hin⟩, fun hout => hapart r hr p hout hin⟩

theorem EntryOk.step {live' : List (Nat × Nat)} {call : EntryCall} (hI : EntryOk b live)
    (h : entryStep (b, live) call = some (b', live')) : EntryOk b' live' := by
  cases call with
  | allocate a o =>
    rw [entryStep] at h
    split at h
    next hle =>
      obtain ⟨k, hk, heq⟩ := Option.map_eq_some_iff.mp h
      cases heq
      exact hI.allocate hle hk
    next => cases h
  | free k o =>
    rw [entryStep] at h
    split at h
    next hmem =>
      cases h
      exact hI.free hmem
    next => cases h

theorem entryRun_ok {calls : List EntryCall} {res : Bitmap × List (Nat × Nat)}
    (h : entryRun calls = some res) : EntryOk res.1 res.2 := by
  have hfold : ∀ (calls : List EntryCall) (st : Bitmap × List (Nat × Nat)), EntryOk st.1 st.2 →
      calls.foldlM entryStep st = some res → EntryOk res.1 res.2 := by
    intro calls
    induction calls with
    | nil =>
      rintro st hst heq
      cases heq
      exact hst
    | cons call calls ih =>
      intro st hst heq
      obtain ⟨st', hstep, heq⟩ := Option.bind_eq_some_iff.mp heq
      exact ih st' (EntryOk.step hst hstep) heq
  refine hfold calls _ ⟨bmpFree_ok, by simp, List.Pairwise.nil, fun p _ => ?_⟩ h
  simp [bmpFree]

/-- A node has a taken frame exactly if one of its halves has one. -/
theorem BitmapOk.parent (hb : BitmapOk b) (ho : o < 5) (hi : i < 2 ^ (5 - (o + 1))) :
    node b (o + 1) i = (node b o (2 * i) || node b o (2 * i + 1)) := by
  have hpow : 2 ^ (5 - o) = 2 * 2 ^ (5 - (o + 1)) := by
    rw [show 5 - o = 5 - (o + 1) + 1 by omega, pow_succ, Nat.mul_comm]
  have hleft := (hb.sound o (2 * i) (by omega) (by omega)).iff
  have hright := (hb.sound o (2 * i + 1) (by omega) (by omega)).iff
  rw [Bool.eq_iff_iff, Bool.or_eq_true, (hb.sound (o + 1) i ho hi).iff, hleft, hright, ← exists_or]
  refine exists_congr fun p => ?_
  rw [Buddy.div_pow_succ, ← or_and_right]
  refine and_congr_left fun _ => ?_
  omega

/-- Freeing a run right after it was allocated. -/
theorem freeToBitmapEntry_allocate (hb : BitmapOk b) (hle : o ≤ a)
    (h : findFreeFrameIdxBitmapEntry b a = some k) :
    freeToBitmapEntry (allocateFromBitmapEntry b k o) k o = b := by
  obtain ⟨ho, halign, hend, hfree⟩ := findFree_run hb hle h
  obtain ⟨hok, hbits⟩ := allocateFromBitmapEntry_ok hb ho halign hend
  have hfirst := (hbits k (by omega)).mpr (.inr ⟨le_refl k, by omega⟩)
  obtain ⟨hok', hbits'⟩ := freeToBitmapEntry_ok hok ho halign hend hfirst
  refine hok'.ext hb fun p hp => ?_
  rw [Bool.eq_iff_iff, hbits' p hp, hbits p hp]
  constructor
  · exact fun ⟨hor, hout⟩ => hor.resolve_right hout
  · intro htaken
    refine ⟨.inl htaken, fun hin => ?_⟩
    rw [hfree p hin] at htaken
    cases htaken

/-- **The entries any calls lead to.** A parent bit is the OR of its children, the tag bit is clear,
and a frame is marked exactly if it is in a live run. What the search finds is free, it fails only
if each aligned run has a taken frame, and freeing what was just allocated changes nothing. -/
theorem entryRun_sound (calls : List EntryCall) (b : Bitmap) (live : List (Nat × Nat))
    (h : entryRun calls = some (b, live)) :
    (∀ o i, o < 5 → i < 2 ^ (5 - (o + 1)) →
      node b (o + 1) i = (node b o (2 * i) || node b o (2 * i + 1))) ∧
    b.getLsbD 63 = false ∧
    (∀ p, p < 32 → (b.getLsbD p = true ↔ ∃ r ∈ live, InRun r p)) ∧
    (∀ a k, findFreeFrameIdxBitmapEntry b a = some k →
      k % 2 ^ a = 0 ∧ k + 2 ^ a ≤ 32 ∧ (∀ p, InRun (k, a) p → b.getLsbD p = false) ∧
      ∀ o ≤ a, freeToBitmapEntry (allocateFromBitmapEntry b k o) k o = b) ∧
    ∀ a, findFreeFrameIdxBitmapEntry b a = none →
      ∀ k, k % 2 ^ a = 0 → k + 2 ^ a ≤ 32 → ∃ p, InRun (k, a) p ∧ b.getLsbD p = true := by
  have hI : EntryOk b live := entryRun_ok h
  refine ⟨fun o i => hI.bitmap.parent, hI.bitmap.tag, hI.taken, fun a k hfind => ?_,
    fun a hfind k halign hend => ?_⟩
  · obtain ⟨-, halign, hend, hfree⟩ := findFree_run hI.bitmap le_rfl hfind
    exact ⟨halign, hend, hfree, fun o hle => freeToBitmapEntry_allocate hI.bitmap hle hfind⟩
  · have ha : a ≤ 5 := by
      by_contra hgt
      have hpow : 2 ^ 6 ≤ 2 ^ a := Nat.pow_le_pow_right (by decide) (by omega)
      omega
    obtain ⟨p, hp, htaken⟩ := findFree_none hI.bitmap ha hfind (node_lt ha (by omega : k < 32))
    exact ⟨p, (div_eq_iff_mem halign).mp hp, htaken⟩

/-- Three runs of different orders, the middle one given back. -/
theorem entryRun_sound_three :
    ∃ b live, entryRun [.allocate 0 0, .allocate 2 1, .allocate 4 4, .free 4 1] = some (b, live) ∧
      b.getLsbD 63 = false := by
  obtain ⟨res, h⟩ : ∃ res, entryRun [.allocate 0 0, .allocate 2 1, .allocate 4 4, .free 4 1] =
      some res := Option.isSome_iff_exists.mp (by decide +kernel)
  exact ⟨res.1, res.2, h, (entryRun_sound _ res.1 res.2 h).2.1⟩

end EntryRuns

end FoliOS.Strata.Pmm
