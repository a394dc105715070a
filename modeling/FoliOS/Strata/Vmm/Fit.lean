import FoliOS.Strata.Vmm.Runs

/-!
# Strata — the fit searches are exact

* `findFit_exact` — `find_first_fit_from` finds the lowest fit and `find_last_fit_before` the
  highest one, on either side of a bound; they fail only if there is none. A domain that ends at the
  last page number is refused by both.
* `reserve_refused` — what it means that a reservation is refused for lack of memory.
-/

namespace FoliOS.Strata.Vmm

variable {hi total : Nat} {e : StStatus}
  {L : DomainId → List NodeRef} {s' : State}

variable {l : List (Nat × Nat)} {base limit count v : Nat}

instance (l : List (Nat × Nat)) (v count : Nat) : Decidable (Avoids l v count) :=
  inferInstanceAs (Decidable (∀ x ∈ l, x.2 ≤ v ∨ v + count ≤ x.1))

section

variable (hl : ValidList l base limit) (hlimit : limit + 1 < wordLimit) (hcount : 0 < count)
include hl hlimit hcount

/-- **First fit.** -/
theorem findFirstFitFrom_spec (start : Nat) :
    (∃ v, findFirstFitFrom l base limit count start = .ok v ∧
        IsLeast {v | Fits l base limit count v ∧ start ≤ v} v) ∨
      (findFirstFitFrom l base limit count start = .error .insufficientMemory ∧
        ∀ v, Fits l base limit count v → ¬ start ≤ v) := by
  rcases findFirstFitFrom_cases hl.ascending (fun x hx => (hl.inside x hx).2) base count start with
    ⟨v, hv, -, hleast⟩ | ⟨e, he, -, hnone⟩
  · exact .inl ⟨v, hv, hleast⟩
  · obtain ⟨rfl, hno⟩ := hnone hcount (by omega)
    exact .inr ⟨he, hno⟩

/-- **Last fit.** -/
theorem findLastFitBefore_spec (stop : Nat) :
    (∃ v, findLastFitBefore l base limit count stop = .ok v ∧
        IsGreatest {v | Fits l base limit count v ∧ v + count ≤ stop} v) ∨
      (findLastFitBefore l base limit count stop = .error .insufficientMemory ∧
        ∀ v, Fits l base limit count v → ¬ v + count ≤ stop) := by
  rcases findLastFitBefore_cases hl.ascending base count stop with
    ⟨v, hv, -, hgreatest⟩ | ⟨e, he, -, hnone⟩
  · exact .inl ⟨v, hv, hgreatest⟩
  · obtain ⟨rfl, hno⟩ := hnone hcount (by omega)
    exact .inr ⟨he, hno⟩

end

/-! ## Both searches -/

/-- A search that finds the only value with `P`, or fails where there is none. -/
theorem found_iff {r : Except StStatus Nat} {P F B : Nat → Prop}
    (h : (∃ w, r = .ok w ∧ P w) ∨ (r = .error .insufficientMemory ∧ ∀ v, F v → ¬ B v))
    (hP : ∀ {v}, P v → F v ∧ B v) (hone : ∀ {v w}, P v → P w → v = w) :
    (∀ v, r = .ok v ↔ P v) ∧ (r = .error .insufficientMemory ↔ ¬ ∃ v, F v ∧ B v) := by
  rcases h with ⟨w, rfl, hw⟩ | ⟨rfl, hnone⟩
  · refine ⟨fun v => ⟨fun h => Except.ok.inj h ▸ hw, fun hv => congrArg _ (hone hw hv)⟩, ?_⟩
    exact iff_of_false (by simp) fun h => h ⟨w, hP hw⟩
  · refine ⟨fun v => iff_of_false (by simp) fun hv => hnone v (hP hv).1 (hP hv).2, ?_⟩
    exact iff_of_true rfl (not_exists.mpr fun v hv => hnone v hv.1 hv.2)

/-- **The searches are exact**, in every domain that does not end at the last page number: one
finds the least fit from its bound on, the other the greatest one up to its bound, and each fails
exactly if there is none. -/
theorem findFit_exact (l : List (Nat × Nat)) (base limit count bound : Nat)
    (hl : ValidList l base limit) (hlimit : limit < wordLimit - 1) (hcount : 0 < count) :
    (∀ v, findFirstFitFrom l base limit count bound = .ok v ↔
        IsLeast {v | Fits l base limit count v ∧ bound ≤ v} v) ∧
      (findFirstFitFrom l base limit count bound = .error .insufficientMemory ↔
        ¬ ∃ v, Fits l base limit count v ∧ bound ≤ v) ∧
      (∀ v, findLastFitBefore l base limit count bound = .ok v ↔
        IsGreatest {v | Fits l base limit count v ∧ v + count ≤ bound} v) ∧
      (findLastFitBefore l base limit count bound = .error .insufficientMemory ↔
        ¬ ∃ v, Fits l base limit count v ∧ v + count ≤ bound) := by
  have hlimit : limit + 1 < wordLimit := by omega
  obtain ⟨hfirst, hfirst'⟩ := found_iff (findFirstFitFrom_spec hl hlimit hcount bound) And.left
    IsLeast.unique
  obtain ⟨hlast, hlast'⟩ := found_iff (findLastFitBefore_spec hl hlimit hcount bound) And.left
    IsGreatest.unique
  exact ⟨hfirst, hfirst', hlast, hlast'⟩

/-- Two pages between two reservations. -/
theorem findFit_exact_gap : IsLeast {v | Fits [(16, 20), (23, 25)] 16 30 2 v ∧ 16 ≤ v} 20 ∧
    IsGreatest {v | Fits [(16, 20), (23, 25)] 16 30 2 v ∧ v + 2 ≤ 26} 21 := by
  have hl : ValidList [(16, 20), (23, 25)] 16 30 := ⟨⟨by decide, by decide⟩, by decide⟩
  obtain ⟨hfirst, -, -, -⟩ := findFit_exact _ 16 30 2 16 hl (by decide) (by decide)
  obtain ⟨-, -, hlast, -⟩ := findFit_exact _ 16 30 2 26 hl (by decide) (by decide)
  exact ⟨(hfirst 20).mp (by decide), (hlast 21).mp (by decide)⟩

/-- In a domain that ends at the last page number both searches report a conflict, whatever is
free. -/
theorem findFit_lastPage : ValidList [] 0 (wordLimit - 1) ∧ Fits [] 0 (wordLimit - 1) 1 0 ∧
    findFirstFitFrom [] 0 (wordLimit - 1) 1 0 = .error .conflictingState ∧
    findLastFitBefore [] 0 (wordLimit - 1) 1 1 = .error .conflictingState := by
  refine ⟨⟨⟨by decide, by decide⟩, by decide⟩, ⟨le_rfl, by decide, by simp [Avoids]⟩, ?_, ?_⟩
  · decide
  · decide

/-! ## The retry loop -/

/-- The fits that a reservation is offered. From the bottom that is every one; from the top, where
each round stays below the run before, those a whole number of runs below the end of their gap. -/
def Offered (l : List (Nat × Nat)) (base limit count : Nat) (topdown : Bool) (v : Nat) : Prop :=
  Fits l base limit count v ∧
    (topdown = true → ∃ k, 0 < k ∧ Avoids l v (k * count) ∧
      (v + k * count = limit + 1 ∨ ∃ x ∈ l, v + k * count = x.1))

section

variable {topdown : Bool} {unmapped : Nat → Bool}

theorem gapEnd_le {stop : Nat} (hl : ValidList l base limit)
    (hend : stop = limit + 1 ∨ ∃ x ∈ l, stop = x.1) : stop ≤ limit + 1 := by
  rcases hend with rfl | ⟨x, hx, rfl⟩
  · exact le_rfl
  · exact (hl.ascending.2 x hx).le.trans (hl.inside x hx).2

section

variable (hl : ValidList l base limit) (hlimit : limit + 1 < wordLimit) (hcount : 0 < count)
include hl hlimit hcount

/-- From the bottom, only fits with a mapped page are left behind: the search ends at the lowest
one without, or there is none. -/
theorem searchLoop_up {r : Except StStatus Nat} {fuel start stop : Nat}
    (hpast : (∀ w, Fits l base limit count w → w < start →
      isRangeUnmapped unmapped w count = false))
    (h : searchLoop l base limit count false unmapped fuel start stop = some r) :
    (∀ c, r = .ok c →
      IsLeast {w | Fits l base limit count w ∧ isRangeUnmapped unmapped w count = true} c) ∧
      (∀ e, r = .error e → ∀ w, Fits l base limit count w →
        isRangeUnmapped unmapped w count = false) := by
  induction fuel generalizing start stop with
  | zero => simp [searchLoop] at h
  | succ fuel ih =>
    rw [searchLoop, if_neg (by simp)] at h
    rcases findFirstFitFrom_spec hl hlimit hcount start with ⟨c, hc, hfits, hleast⟩ | ⟨herr, hnone⟩
    · simp only [hc, Bool.false_eq_true, if_false] at h
      split at h
      next hfree =>
        cases h
        refine ⟨fun c' hc' => ?_, fun e he => by cases he⟩
        cases hc'
        refine ⟨⟨hfits.1, hfree⟩, ?_⟩
        rintro w ⟨hw, hwfree⟩
        rcases Nat.lt_or_ge w start with hlow | hge
        · rw [hpast w hw hlow] at hwfree
          cases hwfree
        · exact hleast ⟨hw, hge⟩
      next hmapped =>
        -- the candidate itself has a mapped page too
        have hpast' : ∀ w, Fits l base limit count w → w < c + 1 →
            isRangeUnmapped unmapped w count = false := by
          intro w hw hlt
          rcases Nat.lt_or_ge w start with hlow | hge
          · exact hpast w hw hlow
          · have hcw : c ≤ w := hleast ⟨hw, hge⟩
            obtain rfl : w = c := by omega
            exact Bool.eq_false_iff.mpr hmapped
        split at h
        next hend =>
          cases h
          refine ⟨fun c' hc' => (by cases hc'), fun e _ w hw => ?_⟩
          have := hw.2.1
          exact hpast' w hw (by omega)
        next hend => exact ih hpast' h
    · rw [herr] at h
      cases h
      exact ⟨fun c' hc' => (by cases hc'), fun e _ w hw => hpast w hw (not_le.mp (hnone w hw))⟩

/-- From the top, only runs on offer with a mapped page are left behind. -/
theorem searchLoop_down {k : Nat} (hk : 0 < k) (hv : Fits l base limit count v)
    (havoids : Avoids l v (k * count))
    (hend : v + k * count = limit + 1 ∨ ∃ x ∈ l, v + k * count = x.1) {fuel start stop : Nat}
    (hstop : v + count ≤ stop) (hat : (v + k * count ≤ stop ∨ ∃ j ≤ k, stop = v + j * count))
    (h : searchLoop l base limit count true unmapped fuel start stop = some (.error e)) :
    isRangeUnmapped unmapped v count = false := by
  induction fuel generalizing start stop with
  | zero => simp [searchLoop] at h
  | succ fuel ih =>
    rw [searchLoop, if_pos rfl] at h
    rcases findLastFitBefore_spec hl hlimit hcount stop with ⟨c, hc, ⟨hfits, hcstop⟩,
      hgreatest⟩ | ⟨-, hnone⟩
    · have hvc : v ≤ c := hgreatest ⟨hv, hstop⟩
      simp only [hc, if_true] at h
      split at h
      · cases h
      next hmapped =>
        rcases Nat.eq_or_lt_of_le hvc with rfl | hlt
        · exact Bool.eq_false_iff.mpr hmapped
        have hbase := hv.1
        rw [if_neg (by omega)] at h
        -- a run of the gap that ends where the search does is the candidate
        have hhit : ∀ j, 0 < j → j ≤ k → v + j * count ≤ stop → c + count ≤ v + j * count →
            c = v + (j - 1) * count := by
          intro j hj hjk hle hce
          have hsub : j * count = (j - 1) * count + count := by
            rw [← Nat.succ_mul, Nat.succ_eq_add_one, Nat.sub_add_cancel hj]
          have hmul : j * count ≤ k * count := Nat.mul_le_mul_right _ hjk
          have hfit : Fits l base limit count (v + (j - 1) * count) := by
            refine ⟨by omega, ?_, fun x hx => ?_⟩
            · have := gapEnd_le hl hend
              omega
            · rcases havoids x hx with h | h
              · exact .inl (by omega)
              · exact .inr (by omega)
          have hge : v + (j - 1) * count ≤ c := hgreatest ⟨hfit, by omega⟩
          omega
        rcases Nat.lt_or_ge c (v + k * count) with hin | hout
        · -- the candidate is in the gap of `v`
          have hcend : c + count ≤ v + k * count := by
            rcases hend with hend | ⟨x, hx, hend⟩
            · have := hfits.2.1
              omega
            · have h1 := hl.ascending.2 x hx
              rcases hfits.2.2 x hx with h | h
              · omega
              · omega
          obtain ⟨j, hj, hjk, hjstop, hje⟩ : ∃ j, 0 < j ∧ j ≤ k ∧ v + j * count ≤ stop ∧
              c + count ≤ v + j * count := by
            rcases hat with hat | ⟨j, hjk, hat⟩
            · exact ⟨k, hk, le_rfl, hat, hcend⟩
            · refine ⟨j, Nat.pos_of_ne_zero ?_, hjk, by omega, by omega⟩
              rintro rfl
              omega
          have hcj := hhit j hj hjk hjstop hje
          have hj1 : 0 < j - 1 := by
            refine Nat.pos_of_ne_zero fun hz => ?_
            rw [hz] at hcj
            omega
          have hcount1 : count ≤ (j - 1) * count := Nat.le_mul_of_pos_left _ hj1
          exact ih (by omega) (.inr ⟨j - 1, by omega, hcj⟩) h
        · have hcountk : count ≤ k * count := Nat.le_mul_of_pos_left _ hk
          exact ih (by omega) (.inl hout) h
    · exact absurd hstop (hnone v hv)

/-- **What a failed search says**: every run on offer has a mapped page. -/
theorem searchLoop_refused {fuel : Nat}
    (h : searchLoop l base limit count topdown unmapped fuel base (limit + 1) = some (.error e))
    (hv : Offered l base limit count topdown v) : isRangeUnmapped unmapped v count = false := by
  cases topdown with
  | false =>
    refine (searchLoop_up hl hlimit hcount (fun w hw hlt => ?_) h).2 e rfl v hv.1
    have := hw.1
    omega
  | true =>
    obtain ⟨k, hk, havoids, hend⟩ := hv.2 rfl
    exact searchLoop_down hl hlimit hcount hk hv.1 havoids hend hv.1.2.1
      (.inl (gapEnd_le hl hend)) h

end

end

/-! ## Reserving -/

/-- A fit is among the pages that the ranges leave. -/
theorem Avoids.sum_le {l : List (Nat × Nat)} {lo : Nat} (ha : Avoids l v count) (hasc : Ascending l)
    (hlo : lo ≤ v) (hhi : v + count ≤ hi) (hin : ∀ x ∈ l, lo ≤ x.1 ∧ x.2 ≤ hi) :
    count + (l.map fun x => x.2 - x.1).sum ≤ hi - lo := by
  induction l generalizing v count lo with
  | nil =>
    rw [List.map_nil, List.sum_nil]
    omega
  | cons x l ih =>
    obtain ⟨hxlo, hxhi⟩ := hin x List.mem_cons_self
    have hne := hasc.2 x List.mem_cons_self
    have hrest : ∀ y ∈ l, x.2 ≤ y.1 ∧ y.2 ≤ hi := fun y hy =>
      ⟨hasc.head_le y hy, (hin y (List.mem_cons_of_mem _ hy)).2⟩
    rw [List.map_cons, List.sum_cons]
    rcases ha.head with hbelow | habove
    · have := ih ha.tail hasc.tail hbelow hhi hrest
      omega
    · -- the others have the pages after this one to themselves
      have hnone : Avoids l x.2 0 := fun y hy => .inr (hasc.head_le y hy)
      have := ih hnone hasc.tail le_rfl hxhi hrest
      omega

variable {s : State} {d : DomainId} {fs : FrameSource} {unmapped : Nat → Bool} {req : Request}

/-- The free count is at least the length of every fit. -/
theorem VmmOk.le_freeCount (h : VmmOk s L) (hi : (s.doms d).initialized = true)
    (hlimit : (s.doms d).limitVpn + 1 < wordLimit)
    (hv : Fits (s.spans d) (s.doms d).baseVpn (s.doms d).limitVpn count v) :
    count ≤ (s.doms d).freeCount := by
  have hvalid := h.validList d
  have hsum := hv.2.2.sum_le hvalid.ascending hv.1 hv.2.1 hvalid.inside
  have hreserved : ((s.spans d).map fun x => x.2 - x.1).sum = s.reserved (s.listOf d) := by
    rw [State.spans, List.map_map]
    rfl
  obtain ⟨hle, hfree⟩ := (h.domainSafe d).count hi
  rw [hfree, Nat.mod_eq_of_lt (by omega)]
  omega

theorem insertDomainNodeSorted_status (s : State) (d : DomainId) (r : NodeRef) :
    (insertDomainNodeSorted s d r).1 = .success ∨
    (insertDomainNodeSorted s d r).1 = .duplicateEntry := by
  unfold insertDomainNodeSorted
  dsimp only
  generalize insertPosition s (s.nodes r).baseVpn none (s.listOf d) = position
  obtain ⟨prev, _ | c⟩ := position
  · exact .inl rfl
  · dsimp only
    split
    · exact .inr rfl
    · exact .inl rfl

/-- Linking a node never runs out of memory. -/
theorem linkReservation_insufficient
    (h : (linkReservation fs s d base limit total req).1 = .insufficientMemory) :
    (createReservationNode fs s).1 = .error .insufficientMemory := by
  have hlink := linkReservation_linked fs s d base limit total req
  rw [h] at hlink
  generalize (linkReservation fs s d base limit total req).2 = s' at hlink
  cases hlink with
  | starved hcreate => rw [hcreate]
  | @refused r s1 s2 _ _ hattach hst =>
    have hstatus :=
      attachOwnerNode_status (s1.modNode r fun _ => newNode d base limit req) r req.owner
    rw [hattach] at hstatus
    rcases hstatus with hs | hs <;> cases hs
  | @taken r s1 s2 s3 _ _ _ hinsert hst =>
    have hstatus := insertDomainNodeSorted_status s2 d r
    rw [hinsert] at hstatus
    rcases hstatus with hs | hs <;> cases hs

theorem isRangeUnmapped_false : isRangeUnmapped unmapped v count = false ↔
    ∃ i < count, unmapped (v + i) = false := by
  unfold isRangeUnmapped
  rw [List.all_eq_false]
  simp only [List.mem_range, Bool.not_eq_true]

/-- A reservation that is refused for lack of memory: no run on offer is free and unmapped, or
there is no node. -/
def Refused (fs : FrameSource) (unmapped : Nat → Bool) (s : State) (d : DomainId) (count : Nat)
    (af : AllocFlags) : Prop :=
  (∀ v, Offered (s.spans d) (s.doms d).baseVpn (s.doms d).limitVpn count
      (hasFlag af afVmmAllocTopdown) v → ∃ i, i < count ∧ unmapped (v + i) = false) ∨
    (createReservationNode fs s).1 = .error .insufficientMemory

theorem VmmOk.limit_lt (hs : VmmOk s L)
    (h : makeDomainLimitExclusive (s.doms d).limitVpn = .ok limit) :
    (s.doms d).limitVpn + 1 < wordLimit := by
  have hrange := (hs.counts d).range.2
  unfold makeDomainLimitExclusive at h
  split at h
  · cases h
  · omega

theorem reservePage_refused (hs : VmmOk s L) (hi : (s.doms d).initialized = true)
    (htotal : 0 < total) (h : (reservePage fs unmapped s d total req).1 = .insufficientMemory) :
    Refused fs unmapped s d total req.allocFlags := by
  unfold reservePage at h
  dsimp only at h
  split at h
  next e he =>
    unfold makeDomainLimitExclusive at he
    split at he
    · rw [← Except.error.inj he] at h
      cases h
    · cases he
  next limit hlimit =>
    have hexcl := makeDomainLimitExclusive_ok hlimit
    have hlt := hs.limit_lt hlimit
    split at h
    next hfree =>
      refine .inl fun v hv => ?_
      have := hs.le_freeCount hi hlt hv.1
      omega
    split at h
    · cases h
    split at h
    · cases h
    next e hloop =>
      refine .inl fun v hv => ?_
      rw [hexcl] at hloop
      exact isRangeUnmapped_false.mp (searchLoop_refused (hs.validList d) hlt htotal hloop hv)
    next candidate hloop =>
      split at h
      · cases h
      next e s1 _ hlink =>
        have hstatus : (linkReservation fs s d candidate (candidate + total) total req).1 =
            .insufficientMemory := by
          rw [hlink]
          exact h
        exact .inr (linkReservation_insufficient hstatus)

/-- `v` is the lowest run of `count` pages that are neither reserved nor mapped. -/
def LowestRoom (unmapped : Nat → Bool) (s : State) (d : DomainId) (count v : Nat) : Prop :=
  IsLeast {w | Fits (s.spans d) (s.doms d).baseVpn (s.doms d).limitVpn count w ∧
    isRangeUnmapped unmapped w count = true} v

/-- A search from the bottom reserves the lowest room, wherever that lies. -/
theorem reservePage_lowest (hs : VmmOk s L) (htotal : 0 < total)
    (hup : hasFlag req.allocFlags afVmmAllocTopdown = false)
    (h : reservePage fs unmapped s d total req = (.success, v, s')) :
    ∃ c, LowestRoom unmapped s d total c ∧ v = c + guardPageCountFromMapFlags req.mapFlags := by
  rcases reservePage_cases hs fs unmapped d total req with
    ⟨e, he, heq⟩ | ⟨stop, base, st, s1, hlimit, -, hsearch, -, heq⟩ <;> rw [h] at heq
  · rw [← (Prod.mk.inj heq).1] at he
    cases he
  · obtain ⟨rfl, rfl, -⟩ := (Prod.mk.inj heq).imp_right Prod.mk.inj
    rw [hup] at hsearch
    exact ⟨base, (searchLoop_up (hs.validList d) (hs.limit_lt hlimit) htotal
      (fun w hw hlt => absurd hw.1 (not_le.mpr hlt)) hsearch).1 base rfl, rfl⟩

theorem stVmmReserveGlobalPage_lowest {g : GlobalDomain} {owner : Option Nat} {af : AllocFlags}
    {mf : MapFlags} (hs : VmmOk s L) (hup : hasFlag af afVmmAllocTopdown = false)
    (h : stVmmReserveGlobalPage fs unmapped s g count owner af mf = (.success, v, s')) :
    ∃ c, LowestRoom unmapped s (.global g) (count + guardPageCountFromMapFlags mf) c ∧
      v = c + guardPageCountFromMapFlags mf := by
  rcases stVmmReserveGlobalPage_cases fs unmapped s g count owner af mf with
    ⟨e, he, heq⟩ | ⟨hcount, -, heq⟩ <;> rw [h] at heq
  · rw [← (Prod.mk.inj heq).1] at he
    cases he.1
  · exact reservePage_lowest hs (by omega) hup heq.symm

/-- **Reservations are refused for lack of memory only with reason**: every run of the requested
pages and their guard that is on offer overlaps a mapped page, or the node pool is used up. -/
theorem reserve_refused (fs : FrameSource) (unmapped : Nat → Bool) (s : State)
    (L : DomainId → List NodeRef) (hs : VmmOk s L) (count : Nat) (af : AllocFlags) (mf : MapFlags) :
    (∀ g owner, (stVmmReserveGlobalPage fs unmapped s g count owner af mf).1 = .insufficientMemory →
        Refused fs unmapped s (.global g) (count + guardPageCountFromMapFlags mf) af) ∧
      ∀ asp, (stVmmReserveLocalPage fs unmapped s asp count af mf).1 = .insufficientMemory →
        Refused fs unmapped s (.local asp) (count + guardPageCountFromMapFlags mf) af := by
  constructor
  · intro g owner h
    rcases stVmmReserveGlobalPage_cases fs unmapped s g count owner af mf with
      ⟨e, he, heq⟩ | ⟨hcount, hi, heq⟩ <;> rw [heq] at h
    · exact absurd h he.2
    · exact reservePage_refused hs hi (by omega) h
  · intro asp h
    rcases stVmmReserveLocalPage_cases fs unmapped s asp count af mf with
      ⟨e, he, heq⟩ | ⟨hcount, hi, heq⟩ <;> rw [heq] at h
    · exact absurd h he.2
    · exact reservePage_refused hs hi (by omega) h

/-- A domain of three pages. -/
def threePages : State := (stVmmInitLocalDomain initial 0 16 18 none).2

/-- All pages are mapped. -/
theorem reserve_refused_mapped :
    (stVmmReserveLocalPage noFrames (fun _ => false) threePages 0 2 0 0).1 = .insufficientMemory ∧
      Refused noFrames (fun _ => false) threePages (.local 0) 2 0 := by
  have hstatus : (stVmmReserveLocalPage noFrames (fun _ => false) threePages 0 2 0 0).1 =
      .insufficientMemory := by decide +kernel
  obtain ⟨L, hs⟩ : ∃ L, VmmOk threePages L := initDomain_snd_ok initial_ok (by decide) none
  exact ⟨hstatus, (reserve_refused noFrames (fun _ => false) threePages L hs 2 0 0).2 0 hstatus⟩

/-- Every node of the pool is in use. -/
def nodesUsed : State :=
  { initial with
    earlyUsed := earlyReservationNodePoolCount
    nodes := fun _ => { Node.zeroed with isLive := true } }

theorem nodesUsed_ok : VmmOk nodesUsed fun _ => [] := by
  refine ⟨⟨le_rfl, List.nodup_nil, List.nodup_nil, by simp [nodesUsed, initial], by simp,
    by simp, by simp, by simp⟩, fun d => ?_, fun d => ?_⟩
  · exact ⟨⟨rfl, List.nodup_nil, trivial⟩, ⟨List.Pairwise.nil, by simp⟩, by simp⟩
  · exact ⟨fun _ => rfl, ⟨le_rfl, by simp [nodesUsed, initial, wordLimit]⟩,
      by simp [nodesUsed, initial]⟩

/-- The same domain, with no node left. -/
def threePagesFull : State := (stVmmInitLocalDomain nodesUsed 0 16 18 none).2

/-- **Refusals while two pages are free.** With no node left; and from the top, where the only
candidate overlaps the mapped last page, so that the run below it is never looked at. -/
theorem reserve_refused_free :
    (∃ L, VmmOk threePagesFull L) ∧ Fits (threePagesFull.spans (.local 0)) 16 18 2 16 ∧
    (stVmmReserveLocalPage noFrames (fun _ => true) threePagesFull 0 2 0 0).1 =
      .insufficientMemory ∧
    (∃ L, VmmOk threePages L) ∧ Fits (threePages.spans (.local 0)) 16 18 2 16 ∧
    (stVmmReserveLocalPage noFrames (· != 18) threePages 0 2 afVmmAllocTopdown 0).1 =
      .insufficientMemory ∧
    (stVmmReserveLocalPage noFrames (· != 18) threePages 0 2 0 0).1 = .success := by
  refine ⟨initDomain_snd_ok nodesUsed_ok (by decide) none, ⟨le_rfl, by decide, by decide +kernel⟩,
    ?_, initDomain_snd_ok initial_ok (by decide) none, ⟨le_rfl, by decide, by decide +kernel⟩,
    ?_, ?_⟩
  · decide +kernel
  · decide +kernel
  · decide +kernel

end FoliOS.Strata.Vmm
