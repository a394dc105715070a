import Mathlib.Data.Nat.Bitwise

/-!
# Buddy trees

A binary tree over `2 ^ h` pages kept as one bit per node: node `i` of level `o`
stands for the `2 ^ o` pages `p` with `p / 2 ^ o = i`, and its bit says whether
some page below it is taken. Level 0 is the pages themselves.

`Sound` is that reading of the bits. Taking a block sets every node that meets
it (`Sound.mark`). Giving a block back clears the nodes inside it and then climbs:
a parent is cleared as long as the sibling is clear (`Climbing.step`), and the
first sibling that is set ends the climb (`Climbing.stop`).
-/

namespace FoliOS.Lib.Buddy

/-- Nodes `(o, i)` and `(o', j)` share a page. -/
def Meets (o i o' j : Nat) : Prop := ∃ p, p / 2 ^ o = i ∧ p / 2 ^ o' = j

/-- The bit of a node says whether one of its pages is taken. -/
def Exact (bit : Nat → Nat → Bool) (o i : Nat) : Prop :=
  bit o i = true ↔ ∃ p, p / 2 ^ o = i ∧ bit 0 p = true

/-- Every node of a tree over `2 ^ h` pages is exact. -/
def Sound (h : Nat) (bit : Nat → Nat → Bool) : Prop :=
  ∀ o i, o ≤ h → i < 2 ^ (h - o) → Exact bit o i

variable {h o i j l p q : Nat} {bit bit' : Nat → Nat → Bool}

theorem Exact.iff (he : Exact bit o i) : bit o i = true ↔ ∃ p, p / 2 ^ o = i ∧ bit 0 p = true := he

/-- The nodes of level `o` are those of the pages. -/
theorem node_lt_iff (ho : o ≤ h) : q / 2 ^ o < 2 ^ (h - o) ↔ q < 2 ^ h := by
  rw [Nat.div_lt_iff_lt_mul (Nat.two_pow_pos o), ← pow_add, Nat.sub_add_cancel ho]

theorem page_lt (ho : o ≤ h) (hi : i < 2 ^ (h - o)) (hp : p / 2 ^ o = i) : p < 2 ^ h :=
  (node_lt_iff ho).mp (hp ▸ hi)

theorem div_pow_succ (p o : Nat) : p / 2 ^ (o + 1) = p / 2 ^ o / 2 := by
  rw [pow_succ, Nat.div_div_eq_div_mul]

theorem div_pow_of_le {o l : Nat} (hol : o ≤ l) (p : Nat) :
    p / 2 ^ l = p / 2 ^ o / 2 ^ (l - o) := by
  rw [Nat.div_div_eq_div_mul, ← pow_add, Nat.add_sub_cancel' hol]

/-- Pages of one node lie in one node of every higher level. -/
theorem div_pow_congr {o l : Nat} (hol : o ≤ l) (heq : p / 2 ^ o = q / 2 ^ o) :
    p / 2 ^ l = q / 2 ^ l := by
  rw [div_pow_of_le hol, div_pow_of_le hol, heq]

/-- Two nodes have one parent exactly if they are equal or siblings. -/
theorem half_eq_iff (m n : Nat) : m / 2 = n / 2 ↔ m = n ∨ m = n ^^^ 1 := by
  rcases Nat.even_or_odd n with hn | hn
  · rw [Nat.xor_one_of_even hn]
    obtain ⟨k, rfl⟩ := hn
    omega
  · rw [Nat.xor_one_of_odd hn]
    obtain ⟨k, rfl⟩ := hn
    omega

/-! ## Taking a block -/

theorem meets_zero : Meets 0 p o j ↔ p / 2 ^ o = j := by
  constructor
  · rintro ⟨q, hq, hj⟩
    rw [pow_zero, Nat.div_one] at hq
    rw [← hq, hj]
  · exact fun hj => ⟨p, by simp, hj⟩

/-- A node meets a higher one exactly if it lies below it. -/
theorem meets_iff_of_le {o o' : Nat} (ho : o ≤ o') : Meets o i o' j ↔ i / 2 ^ (o' - o) = j := by
  constructor
  · rintro ⟨p, rfl, rfl⟩
    exact (div_pow_of_le ho p).symm
  · intro hj
    have hp : i * 2 ^ o / 2 ^ o = i := Nat.mul_div_cancel i (Nat.two_pow_pos o)
    exact ⟨i * 2 ^ o, hp, by rw [div_pow_of_le ho, hp, hj]⟩

theorem meets_comm {o' : Nat} : Meets o i o' j ↔ Meets o' j o i :=
  exists_congr fun _ => and_comm

/-- Setting every node that meets a block takes its pages. -/
theorem Sound.mark (hs : Sound h bit)
    (hbit : ∀ o' i, o' ≤ h → i < 2 ^ (h - o') →
      (bit' o' i = true ↔ bit o' i = true ∨ Meets o' i o j)) :
    Sound h bit' := by
  intro o' i ho hi
  have hpage : ∀ p, p / 2 ^ o' = i → (bit' 0 p = true ↔ bit 0 p = true ∨ p / 2 ^ o = j) := by
    intro p hp
    rw [hbit 0 p (Nat.zero_le _) (by simpa using page_lt ho hi hp), meets_zero]
  rw [Exact, hbit o' i ho hi, (hs o' i ho hi).iff]
  constructor
  · rintro (⟨p, hp, hb⟩ | ⟨p, hp, hj⟩)
    · exact ⟨p, hp, (hpage p hp).mpr (.inl hb)⟩
    · exact ⟨p, hp, (hpage p hp).mpr (.inr hj)⟩
  · rintro ⟨p, hp, hb⟩
    rcases (hpage p hp).mp hb with hb | hj
    · exact .inl ⟨p, hp, hb⟩
    · exact .inr ⟨p, hp, hj⟩

/-! ## Giving a block back -/

/-- The state of a climb from page `q` at level `l`: the nodes up to this level and those
off the path are exact, the node of the path is clear, those above it are still set. -/
structure Climbing (h : Nat) (bit : Nat → Nat → Bool) (q l : Nat) : Prop where
  exact : ∀ o i, o ≤ h → i < 2 ^ (h - o) → (o ≤ l ∨ q / 2 ^ o ≠ i) → Exact bit o i
  clear : bit l (q / 2 ^ l) = false
  above : ∀ o, l < o → o ≤ h → bit o (q / 2 ^ o) = true

/-- Clearing the nodes inside a block that is taken starts a climb. -/
theorem Sound.climb (hs : Sound h bit) (ho : o ≤ h) (hq : q < 2 ^ h)
    (htaken : bit o (q / 2 ^ o) = true)
    (hin : ∀ o' i, o' ≤ o → i < 2 ^ (h - o') →
      (bit' o' i = true ↔ bit o' i = true ∧ ¬Meets o' i o (q / 2 ^ o)))
    (habove : ∀ o' i, o < o' → o' ≤ h → i < 2 ^ (h - o') → bit' o' i = bit o' i) :
    Climbing h bit' q o := by
  have hbound : ∀ o', o' ≤ h → q / 2 ^ o' < 2 ^ (h - o') := fun o' ho' => (node_lt_iff ho').mpr hq
  have hpage : ∀ o' i p, o' ≤ h → i < 2 ^ (h - o') → p / 2 ^ o' = i →
      (bit' 0 p = true ↔ bit 0 p = true ∧ p / 2 ^ o ≠ q / 2 ^ o) := by
    intro o' i p ho' hi hp
    rw [hin 0 p (Nat.zero_le _) (by simpa using page_lt ho' hi hp), meets_zero]
  refine ⟨fun o' i ho' hi hcase => ?_, ?_, fun l hl hlh => ?_⟩
  · by_cases hlow : o' ≤ o
    · rw [Exact, hin o' i hlow hi, (hs o' i ho' hi).iff]
      constructor
      · rintro ⟨⟨p, hp, hb⟩, hnot⟩
        exact ⟨p, hp, (hpage o' i p ho' hi hp).mpr ⟨hb, fun heq => hnot ⟨p, hp, heq⟩⟩⟩
      · rintro ⟨p, hp, hb⟩
        obtain ⟨hb, hne⟩ := (hpage o' i p ho' hi hp).mp hb
        refine ⟨⟨p, hp, hb⟩, fun ⟨r, hr, heq⟩ => hne ?_⟩
        rw [div_pow_congr hlow (hp.trans hr.symm), heq]
    · have hoff : q / 2 ^ o' ≠ i := hcase.resolve_left hlow
      rw [Exact, habove o' i (by omega) ho' hi, (hs o' i ho' hi).iff]
      constructor
      · rintro ⟨p, hp, hb⟩
        refine ⟨p, hp, (hpage o' i p ho' hi hp).mpr ⟨hb, fun heq => hoff ?_⟩⟩
        rw [← hp, div_pow_congr (by omega) heq]
      · rintro ⟨p, hp, hb⟩
        exact ⟨p, hp, ((hpage o' i p ho' hi hp).mp hb).1⟩
  · rw [← Bool.not_eq_true, hin o _ le_rfl (hbound o ho)]
    exact fun hb => hb.2 ⟨q, rfl, rfl⟩
  · rw [habove l _ hl hlh (hbound l hlh), (hs l _ hlh (hbound l hlh)).iff]
    obtain ⟨p, hp, hb⟩ := (hs o _ ho (hbound o ho)).mp htaken
    exact ⟨p, div_pow_congr (by omega) hp, hb⟩

/-- A page below the parent of the path lies below the path or below its sibling. -/
theorem Climbing.below (hl : l < h) (hq : q < 2 ^ h) (hp : p / 2 ^ (l + 1) = q / 2 ^ (l + 1)) :
    (p / 2 ^ l = q / 2 ^ l ∨ p / 2 ^ l = (q / 2 ^ l) ^^^ 1) ∧ p / 2 ^ l < 2 ^ (h - l) := by
  constructor
  · rwa [div_pow_succ, div_pow_succ, half_eq_iff] at hp
  · have hlt : q / 2 ^ (l + 1) < 2 ^ (h - (l + 1)) := (node_lt_iff hl).mpr hq
    exact (node_lt_iff (by omega)).mpr (page_lt hl hlt hp)

/-- With a clear sibling the parent is cleared, and the climb goes on. -/
theorem Climbing.step (hc : Climbing h bit q l) (hl : l < h) (hq : q < 2 ^ h)
    (hsib : bit l ((q / 2 ^ l) ^^^ 1) = false) (hself : bit' (l + 1) (q / 2 ^ (l + 1)) = false)
    (hother : ∀ o i, o ≤ h → i < 2 ^ (h - o) → ¬(o = l + 1 ∧ i = q / 2 ^ (l + 1)) →
      bit' o i = bit o i) :
    Climbing h bit' q (l + 1) := by
  have hpage : ∀ o i p, o ≤ h → i < 2 ^ (h - o) → p / 2 ^ o = i → bit' 0 p = bit 0 p :=
    fun o i p ho hi hp =>
      hother 0 p (Nat.zero_le _) (by simpa using page_lt ho hi hp) (by omega)
  refine ⟨fun o i ho hi hcase => ?_, hself, fun o ho hoh => ?_⟩
  · by_cases hat : o = l + 1 ∧ i = q / 2 ^ (l + 1)
    · obtain ⟨rfl, rfl⟩ := hat
      rw [Exact, hself]
      refine ⟨fun hb => absurd hb (by simp), fun ⟨p, hp, hb⟩ => ?_⟩
      rw [hpage _ _ p ho hi hp] at hb
      obtain ⟨hcases, hlt⟩ := Climbing.below hl hq hp
      have hset := (hc.exact l (p / 2 ^ l) (by omega) hlt (.inl le_rfl)).mpr ⟨p, rfl, hb⟩
      rcases hcases with heq | heq
      · rw [heq, hc.clear] at hset
        exact absurd hset (by simp)
      · rw [heq, hsib] at hset
        exact absurd hset (by simp)
    · have hex : Exact bit o i := by
        refine hc.exact o i ho hi ?_
        rcases hcase with hle | hne
        · by_cases heq : o = l + 1
          · subst heq
            exact .inr fun h' => hat ⟨rfl, h'.symm⟩
          · exact .inl (by omega)
        · exact .inr hne
      rw [Exact, hother o i ho hi hat, hex.iff]
      refine exists_congr fun p => and_congr_right fun hp => ?_
      rw [hpage o i p ho hi hp]
  · rw [hother o _ hoh ((node_lt_iff hoh).mpr hq) (by omega)]
    exact hc.above o (by omega) hoh

/-- A set sibling ends the climb: the nodes above have a taken page. -/
theorem Climbing.stop (hc : Climbing h bit q l) (hl : l < h) (hq : q < 2 ^ h)
    (hsib : bit l ((q / 2 ^ l) ^^^ 1) = true) : Sound h bit := by
  intro o i ho hi
  by_cases hcase : o ≤ l ∨ q / 2 ^ o ≠ i
  · exact hc.exact o i ho hi hcase
  · rw [not_or, Nat.not_le, not_ne_iff] at hcase
    obtain ⟨hlo, rfl⟩ := hcase
    have hhalf : ((q / 2 ^ l) ^^^ 1) / 2 = q / 2 ^ l / 2 := (half_eq_iff _ _).mpr (.inr rfl)
    have hlt : (q / 2 ^ l) ^^^ 1 < 2 ^ (h - l) := by
      have hqlt : q / 2 ^ l < 2 ^ (h - l) := (node_lt_iff (by omega)).mpr hq
      rw [show h - l = h - l - 1 + 1 by omega, pow_succ] at hqlt ⊢
      omega
    obtain ⟨p, hp, hb⟩ := (hc.exact l _ (by omega) hlt (.inl le_rfl)).mp hsib
    refine ⟨fun _ => ⟨p, ?_, hb⟩, fun _ => hc.above o hlo ho⟩
    refine div_pow_congr (by omega : l + 1 ≤ o) ?_
    rw [div_pow_succ, div_pow_succ, hp, hhalf]

/-- A climb that reaches the root leaves every node exact. -/
theorem Climbing.top (hc : Climbing h bit q h) : Sound h bit :=
  fun o i ho hi => hc.exact o i ho hi (.inl ho)

end FoliOS.Lib.Buddy
