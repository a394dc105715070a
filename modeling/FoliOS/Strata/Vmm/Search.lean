import FoliOS.Strata.Vmm.Model
import Mathlib.Order.Bounds.Basic

/-!
# Strata — searching a reservation list

What the search loops of `vmm.c` find on a list of disjoint ascending ranges.

* `findFirstFitFrom_cases`, `findLastFitBefore_cases` — the two fit searches find the lowest and the
  highest fit on their side of a bound, or there is none.
* `searchLoop_ok`, `searchLoop_isSome` — the retry loop around them, and that
  one round per page of the domain is enough.
-/

namespace FoliOS.Strata.Vmm

variable {x : Nat × Nat} {l : List (Nat × Nat)} {n limit count v base start stop : Nat}
  {e : StStatus} {candidate gapStart gapEnd bound w : Nat} {best : Option Nat}

/-- Non-empty ranges in ascending order, none overlapping the next. -/
def Ascending (l : List (Nat × Nat)) : Prop :=
  l.Pairwise (fun x y => x.2 ≤ y.1) ∧ ∀ x ∈ l, x.1 < x.2

/-- `[v, v + count)` avoids every range of the list. -/
def Avoids (l : List (Nat × Nat)) (v count : Nat) : Prop :=
  ∀ x ∈ l, x.2 ≤ v ∨ v + count ≤ x.1

/-- `[v, v + count)` lies in the domain and avoids every reservation. -/
def Fits (l : List (Nat × Nat)) (base limit count v : Nat) : Prop :=
  base ≤ v ∧ v + count ≤ limit + 1 ∧ Avoids l v count

/-- A reservation list of the domain: disjoint ascending ranges inside it. -/
structure ValidList (l : List (Nat × Nat)) (base limit : Nat) : Prop where
  ascending : Ascending l
  inside    : ∀ x ∈ l, base ≤ x.1 ∧ x.2 ≤ limit + 1

/-- A fit between the start of the current gap and the bound. -/
def FitsAbove (l : List (Nat × Nat)) (gapStart bound count v : Nat) : Prop :=
  gapStart ≤ v ∧ v + count ≤ bound ∧ Avoids l v count

theorem Ascending.sublist {l' : List (Nat × Nat)} (h : Ascending l) (hs : l'.Sublist l) :
    Ascending l' :=
  ⟨h.1.sublist hs, fun x hx => h.2 x (hs.subset hx)⟩

theorem Ascending.tail (h : Ascending (x :: l)) : Ascending l :=
  h.sublist (List.sublist_cons_self _ _)

theorem Ascending.head_le (h : Ascending (x :: l)) : ∀ y ∈ l, x.2 ≤ y.1 :=
  (List.pairwise_cons.mp h.1).1

theorem Avoids.tail (h : Avoids (x :: l) v count) : Avoids l v count :=
  fun y hy => h y (List.mem_cons_of_mem _ hy)

theorem Avoids.head (h : Avoids (x :: l) v count) : x.2 ≤ v ∨ v + count ≤ x.1 :=
  h x List.mem_cons_self

theorem Avoids.cons (hx : x.2 ≤ v ∨ v + count ≤ x.1) (h : Avoids l v count) :
    Avoids (x :: l) v count :=
  List.forall_mem_cons.mpr ⟨hx, h⟩

/-- Everything that ends before the first range avoids all of them. -/
theorem Ascending.avoids_below (h : Ascending (x :: l)) (hv : v + count ≤ x.1) :
    Avoids (x :: l) v count := by
  refine Avoids.cons (.inr hv) fun y hy => .inr ?_
  have hxy := h.head_le y hy
  have hne := h.2 x List.mem_cons_self
  omega

/-- With too little room below the first range, the fits are those above it. -/
theorem fitsAbove_cons {b lim : Nat} (hne : b < lim) (h : lim ≤ gapStart ∨ b < gapStart + count) :
    FitsAbove ((b, lim) :: l) gapStart bound count w ↔
      FitsAbove l (max gapStart lim) bound count w := by
  constructor
  · rintro ⟨hw, hend, ha⟩
    refine ⟨?_, hend, ha.tail⟩
    rcases ha.head with hx | hx
    · exact max_le hw hx
    · exact absurd hne (by omega)
  · rintro ⟨hw, hend, ha⟩
    exact ⟨by omega, hend, ha.cons (.inl (by omega))⟩

theorem makeDomainLimitExclusive_ok {m : Nat} (h : makeDomainLimitExclusive n = .ok m) :
    m = n + 1 := by
  unfold makeDomainLimitExclusive at h
  split at h
  · simp at h
  · simpa [eq_comm] using h

theorem makeDomainLimitExclusive_error (h : makeDomainLimitExclusive n = .error e) :
    checkSuccess e = false := by
  unfold makeDomainLimitExclusive at h
  split at h
  · cases h
    rfl
  · simp at h

/-! ## First fit -/

/-- The loop finds the lowest fit from the candidate on, or there is none. -/
theorem firstFitLoop_spec (candidate : Nat) (hcount : 0 < count) (hasc : Ascending l)
    (hin : ∀ x ∈ l, x.2 ≤ limit) :
    (∃ v, firstFitLoop limit count l candidate = .ok v ∧
        IsLeast {w | FitsAbove l candidate limit count w} v) ∨
      (firstFitLoop limit count l candidate = .error .insufficientMemory ∧
        ∀ w, ¬ FitsAbove l candidate limit count w) := by
  induction l generalizing candidate with
  | nil =>
    rw [firstFitLoop]
    split
    · exact .inl ⟨candidate, rfl, ⟨le_rfl, by omega, by simp [Avoids]⟩, fun w hw => hw.1⟩
    · refine .inr ⟨rfl, fun w hw => ?_⟩
      have h1 := hw.1
      have h2 := hw.2.1
      omega
  | cons x l ih =>
    obtain ⟨b, lim⟩ := x
    have hne : b < lim := hasc.2 (b, lim) List.mem_cons_self
    have hlim : lim ≤ limit := hin (b, lim) List.mem_cons_self
    have hrest : ∀ c, _ := fun c =>
      ih c hasc.tail fun y hy => hin y (List.mem_cons_of_mem _ hy)
    rw [firstFitLoop]
    split
    next hbelow =>
      simp only [fitsAbove_cons hne (.inl hbelow), Nat.max_eq_left hbelow]
      exact hrest candidate
    next habove =>
      split
      · exact .inl ⟨candidate, rfl, ⟨le_rfl, by omega, hasc.avoids_below (by dsimp only; omega)⟩,
          fun w hw => hw.1⟩
      next hgap =>
        -- the range reaches above the candidate and the gap below it is too small
        have hskip : b < candidate + count := by omega
        simp only [fitsAbove_cons hne (.inr hskip), Nat.max_eq_right (Nat.le_of_not_ge habove)]
        split
        · refine .inr ⟨rfl, fun w hw => ?_⟩
          have h1 := hw.1
          have h2 := hw.2.1
          omega
        · exact hrest lim

/-! ## Last fit -/

/-- The fits of a gap, the highest of which is found. -/
theorem lastFitGap_spec {P : Nat → Prop} (gapEnd : Nat) (best : Option Nat) (hcount : 0 < count)
    (hP : ∀ w, P w ↔ gapStart ≤ w ∧ w + count ≤ gapEnd) :
    (∃ v, lastFitGap count gapStart gapEnd best = some v ∧ IsGreatest {w | P w} v) ∨
      (lastFitGap count gapStart gapEnd best = best ∧ ∀ w, ¬ P w) := by
  rw [lastFitGap]
  split
  · refine .inl ⟨_, rfl, (hP _).mpr ⟨by omega, by omega⟩, fun w hw => ?_⟩
    have := (hP w).mp hw
    omega
  · refine .inr ⟨rfl, fun w hw => ?_⟩
    have := (hP w).mp hw
    omega

/-- The loop finds the highest fit from the start of the gap on; without one it is the best so
far. -/
theorem lastFitLoop_spec (bound gapStart : Nat) (best : Option Nat) (hcount : 0 < count)
    (hasc : Ascending l) : (∃ v, lastFitLoop bound count l gapStart best = some v ∧
        IsGreatest {w | FitsAbove l gapStart bound count w} v) ∨
      (lastFitLoop bound count l gapStart best = best ∧
        ∀ w, ¬ FitsAbove l gapStart bound count w) := by
  induction l generalizing gapStart best with
  | nil =>
    refine lastFitGap_spec _ _ hcount fun w => ⟨fun h => ⟨h.1, h.2.1⟩, fun h => ⟨h.1, h.2, ?_⟩⟩
    simp [Avoids]
  | cons x l ih =>
    obtain ⟨b, lim⟩ := x
    have hne : b < lim := hasc.2 (b, lim) List.mem_cons_self
    rw [lastFitLoop]
    split
    next hge =>
      -- this range and all others are above the bound
      exact lastFitGap_spec _ _ hcount fun w => ⟨fun h => ⟨h.1, h.2.1⟩,
        fun h => ⟨h.1, h.2, hasc.avoids_below (by dsimp only; omega)⟩⟩
    next hlt =>
      split
      next hle =>
        simp only [fitsAbove_cons hne (.inl hle), Nat.max_eq_left hle]
        exact ih _ _ hasc.tail
      next hgt =>
        -- a fit is in the gap below this range or above it
        have hsplit : ∀ w, FitsAbove ((b, lim) :: l) gapStart bound count w →
            (gapStart ≤ w ∧ w + count ≤ b) ∨ FitsAbove l lim bound count w := by
          rintro w ⟨hw, hend, ha⟩
          rcases ha.head with h | h
          · exact .inr ⟨h, hend, ha.tail⟩
          · exact .inl ⟨hw, h⟩
        have hbelow : (∀ w, ¬ FitsAbove l lim bound count w) → _ := fun hnone =>
          lastFitGap_spec b best hcount fun w =>
            ⟨fun h => (hsplit w h).resolve_right (hnone w),
              fun h => ⟨h.1, by omega, hasc.avoids_below h.2⟩⟩
        split
        next hend =>
          rw [show lastFitGap count lim bound _ = _ from if_neg (by omega)]
          refine hbelow fun w hw => ?_
          have h1 := hw.1
          have h2 := hw.2.1
          omega
        next hend =>
          rcases ih lim (lastFitGap count gapStart b best) hasc.tail with
            ⟨v, hv, hfits, hgreatest⟩ | ⟨hv, hnone⟩
          · have hlim := hfits.1
            refine .inl ⟨v, hv, ⟨by omega, hfits.2.1, hfits.2.2.cons (.inl hlim)⟩, fun w hw => ?_⟩
            rcases hsplit w hw with h | h
            · omega
            · exact hgreatest h
          · rw [hv]
            exact hbelow hnone

/-! ## The searches -/

section

variable (hasc : Ascending l) (hin : ∀ x ∈ l, x.2 ≤ limit + 1)
include hasc hin

/-- **First fit.** The lowest one from a bound on is found, or there is none. -/
theorem findFirstFitFrom_cases (base count start : Nat) :
    (∃ v, findFirstFitFrom l base limit count start = .ok v ∧ 0 < count ∧
        IsLeast {v | Fits l base limit count v ∧ start ≤ v} v) ∨
      ∃ e, findFirstFitFrom l base limit count start = .error e ∧ checkSuccess e = false ∧
        (0 < count → limit ≠ wordLimit - 1 →
          e = .insufficientMemory ∧ ∀ v, Fits l base limit count v → ¬ start ≤ v) := by
  unfold findFirstFitFrom makeDomainLimitExclusive
  rcases Nat.eq_zero_or_pos count with rfl | hcount
  · exact .inr ⟨_, if_pos rfl, rfl, fun h => absurd h (Nat.lt_irrefl 0)⟩
  rw [if_neg hcount.ne']
  by_cases hlimit : limit = wordLimit - 1
  · rw [if_pos hlimit]
    exact .inr ⟨_, rfl, rfl, fun _ h => absurd hlimit h⟩
  rw [if_neg hlimit]
  dsimp only
  generalize hc : (if start > base then start else base) = c
  have hcw : ∀ w, c ≤ w ↔ base ≤ w ∧ start ≤ w := fun w => by
    rw [← hc]
    split <;> omega
  have hfits : ∀ w, FitsAbove l c (limit + 1) count w ↔ Fits l base limit count w ∧ start ≤ w := by
    intro w
    rw [FitsAbove, hcw, Fits]
    tauto
  rcases firstFitLoop_spec c hcount hasc hin with ⟨v, hv, hleast⟩ | ⟨herr, hnone⟩
  · have h1 := hleast.1.1
    have h2 := hleast.1.2.1
    simp only [hfits] at hleast
    exact .inl ⟨v, by rw [if_neg (by omega), hv], hcount, hleast⟩
  · simp only [hfits] at hnone
    refine .inr ⟨.insufficientMemory, ?_, rfl, fun _ _ => ⟨rfl, fun v hv hs => hnone v ⟨hv, hs⟩⟩⟩
    rw [herr, ite_self]

omit hin in
/-- **Last fit.** The highest one up to a bound is found, or there is none. -/
theorem findLastFitBefore_cases (base count stop : Nat) :
    (∃ v, findLastFitBefore l base limit count stop = .ok v ∧ 0 < count ∧
        IsGreatest {v | Fits l base limit count v ∧ v + count ≤ stop} v) ∨
      ∃ e, findLastFitBefore l base limit count stop = .error e ∧ checkSuccess e = false ∧
        (0 < count → limit ≠ wordLimit - 1 →
          e = .insufficientMemory ∧ ∀ v, Fits l base limit count v → ¬ v + count ≤ stop) := by
  unfold findLastFitBefore makeDomainLimitExclusive
  rcases Nat.eq_zero_or_pos count with rfl | hcount
  · exact .inr ⟨_, if_pos rfl, rfl, fun h => absurd h (Nat.lt_irrefl 0)⟩
  rw [if_neg hcount.ne']
  by_cases hlimit : limit = wordLimit - 1
  · rw [if_pos hlimit]
    exact .inr ⟨_, rfl, rfl, fun _ h => absurd hlimit h⟩
  rw [if_neg hlimit]
  dsimp only
  generalize hb : (if stop > limit + 1 then limit + 1 else stop) = bound
  have hmin : ∀ w, w ≤ bound ↔ w ≤ limit + 1 ∧ w ≤ stop := fun w => by
    rw [← hb]
    split <;> omega
  have hfits : ∀ w, FitsAbove l base bound count w ↔ Fits l base limit count w ∧
      w + count ≤ stop := by
    intro w
    rw [FitsAbove, hmin, Fits]
    tauto
  rcases lastFitLoop_spec bound base none hcount hasc with
    ⟨v, hv, hgreatest⟩ | ⟨hnil, hnone⟩
  · have h1 := hgreatest.1.1
    have h2 := hgreatest.1.2.1
    simp only [hfits] at hgreatest
    exact .inl ⟨v, by rw [if_neg (by omega), hv], hcount, hgreatest⟩
  · simp only [hfits] at hnone
    refine .inr ⟨.insufficientMemory, ?_, rfl, fun _ _ => ⟨rfl, fun v hv hs => hnone v ⟨hv, hs⟩⟩⟩
    rw [hnil, ite_self]

/-! ## The retry loop -/

variable {total : Nat} {topdown : Bool} {unmapped : Nat → Bool}

/-- The candidate of a round. -/
theorem searchFit_cases (base total start stop : Nat) (topdown : Bool) :
    (∃ v, (if topdown then findLastFitBefore l base limit total stop
        else findFirstFitFrom l base limit total start) = .ok v ∧ 0 < total ∧
        Fits l base limit total v ∧ (topdown = true → v + total ≤ stop) ∧
        (topdown = false → start ≤ v)) ∨
      ∃ e, (if topdown then findLastFitBefore l base limit total stop
        else findFirstFitFrom l base limit total start) = .error e ∧ checkSuccess e = false := by
  cases topdown with
  | true =>
    rcases findLastFitBefore_cases hasc base total stop with ⟨v, hv, h0, hfits, -⟩ | ⟨e, he, hst, -⟩
    · exact .inl ⟨v, hv, h0, hfits.1, fun _ => hfits.2, (by simp)⟩
    · exact .inr ⟨e, he, hst⟩
  | false =>
    rcases findFirstFitFrom_cases hasc hin base total start with
      ⟨v, hv, h0, hfits, -⟩ | ⟨e, he, hst, -⟩
    · exact .inl ⟨v, hv, h0, hfits.1, (by simp), fun _ => hfits.2⟩
    · exact .inr ⟨e, he, hst⟩

/-- A page the retry loop settles on starts a free, unmapped range of the domain; its errors are
failures. -/
theorem searchLoop_ok {fuel start stop : Nat} {r : Except StStatus Nat}
    (h : searchLoop l base limit total topdown unmapped fuel start stop = some r) :
    (∀ v, r = .ok v → Fits l base limit total v ∧ isRangeUnmapped unmapped v total = true) ∧
      ∀ e, r = .error e → checkSuccess e = false := by
  induction fuel generalizing start stop with
  | zero => simp [searchLoop] at h
  | succ fuel ih =>
    rw [searchLoop] at h
    rcases searchFit_cases hasc hin base total start stop topdown with
      ⟨w, hw, -, hfits, -⟩ | ⟨e, he, hst⟩
    · rw [hw] at h
      dsimp only at h
      split_ifs at h with hun
      · cases h
        exact ⟨fun v hv => Except.ok.inj hv ▸ ⟨hfits, hun⟩, fun e he => by cases he⟩
      · cases h
        exact ⟨fun v hv => (by cases hv), fun e he => Except.error.inj he ▸ rfl⟩
      · exact ih h
      · cases h
        exact ⟨fun v hv => (by cases hv), fun e he => Except.error.inj he ▸ rfl⟩
      · exact ih h
    · rw [he] at h
      cases h
      exact ⟨fun v hv => (by cases hv), fun e' he' => Except.error.inj he' ▸ hst⟩

/-- **The retry loop ends.** Every round moves the bound of the search by at least a page, so one
round per page between it and the end of the domain is enough. -/
theorem searchLoop_isSome {fuel start stop : Nat}
    (hdown : topdown = true → base ≤ stop ∧ stop < fuel + base)
    (hup : topdown = false → start ≤ limit ∧ limit < fuel + start) :
    (searchLoop l base limit total topdown unmapped fuel start stop).isSome = true := by
  induction fuel generalizing start stop with
  | zero =>
    cases topdown with
    | true => exact absurd (hdown rfl) (by omega)
    | false => exact absurd (hup rfl) (by omega)
  | succ fuel ih =>
    rw [searchLoop]
    rcases searchFit_cases hasc hin base total start stop topdown with
      ⟨w, hw, h0, -, hbefore, hafter⟩ | ⟨e, he, -⟩
    · rw [hw]
      dsimp only
      split_ifs with hun htop hbase hend
      · rfl
      · rfl
      · have hstop := hdown htop
        have hw := hbefore htop
        exact ih (fun _ => ⟨by omega, by omega⟩) (by simp [htop])
      · rfl
      · have htop := Bool.eq_false_of_not_eq_true htop
        have hstart := hup htop
        have hw := hafter htop
        exact ih (by simp [htop]) fun _ => by omega
    · rw [he]
      rfl

end

/-- Every page of a domain of ten is mapped, searched from above and from below. -/
theorem searchLoop_isSome_mapped :
    (searchLoop [(22, 24)] 20 29 3 true (fun _ => false) 11 20 30).isSome = true ∧
      (searchLoop [(22, 24)] 20 29 3 false (fun _ => false) 11 20 30).isSome = true :=
  ⟨searchLoop_isSome (by simp [Ascending]) (by simp) (by simp) (by simp),
    searchLoop_isSome (by simp [Ascending]) (by simp) (by simp) (by simp)⟩

end FoliOS.Strata.Vmm
