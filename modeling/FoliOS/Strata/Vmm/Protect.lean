import FoliOS.Strata.Vmm.Runs
import Mathlib.Data.List.Pairwise

/-!
# Strata — changing the map flags of reserved pages

Map flags belong to a reservation. `StVmm_SetLocalPageReservationMapFlags` takes a range of pages
and goes from one reservation to the next, so a change reaches all pages of the reservations it
meets (`setMapFlags_effect`), and a gap behind them is only noticed when they are changed already.
-/

namespace FoliOS.Strata.Vmm

open Lib

variable {s s' : State} {L : DomainId → List NodeRef} {d : DomainId} {r a : NodeRef} {p : Nat}

/-- Page `p` is one of the reservation's pages. -/
def Covers (s : State) (r : NodeRef) (p : Nat) : Prop :=
  (s.nodes r).baseVpn ≤ p ∧ p < (s.nodes r).limitVpn

/-- The map flags reported for a page. -/
def reportedFlags (s : State) (asp p : Nat) : Except StStatus MapFlags :=
  (stVmmGetLocalPageInfo s asp p).map (·.mapFlags)

/-! ## The reservation of a page -/

/-- Reservations are disjoint. -/
theorem VmmOk.covers_unique (h : VmmOk s L) (hr : r ∈ L d) (ha : a ∈ L d) (hrp : Covers s r p)
    (hap : Covers s a p) : a = r := by
  by_contra hne
  have hasc := List.pairwise_map.mp (h.lists d).asc.1
  have hdisj : (L d).Pairwise fun x y =>
      (s.nodes x).limitVpn ≤ (s.nodes y).baseVpn ∨ (s.nodes y).limitVpn ≤ (s.nodes x).baseVpn :=
    hasc.imp .inl
  have hsymm : Std.Symm fun x y : NodeRef =>
      (s.nodes x).limitVpn ≤ (s.nodes y).baseVpn ∨ (s.nodes y).limitVpn ≤ (s.nodes x).baseVpn :=
    ⟨fun _ _ => Or.symm⟩
  have := hdisj.forall ha hr hne
  unfold Covers at hrp hap
  omega

section

variable (h : VmmOk s L) (hp : p + 1 < wordLimit)
include h hp

/-- The overlap of one page is sought in the list. -/
theorem findOverlap_one : findOverlap s d p 1 = overlapLoop s p (p + 1) (L d) := by
  rw [findOverlap, makeLimitExclusive_of_lt Nat.one_pos hp, h.listOf_eq]

theorem findOverlap_eq (ha : a ∈ L d) (hap : Covers s a p) : findOverlap s d p 1 = some a := by
  cases hfind : findOverlap s d p 1 with
  | some r =>
    obtain ⟨hr, hrp⟩ := findOverlap_covers h (by omega) hfind
    rw [h.covers_unique hr ha hrp hap]
  | none =>
    rw [findOverlap_one h hp] at hfind
    have := overlapLoop_none (h.lists d).asc hfind a ha
    unfold Covers at hap
    omega

theorem findPageNode_eq (ha : a ∈ L d) (hap : Covers s a p) : findPageNode s d p = .ok a := by
  have hin := (h.lists d).inside a ha
  unfold Covers at hap
  unfold findPageNode
  rw [if_neg (by omega), if_neg (by rw [h.validate d]; simp), findOverlap_eq h hp ha hap]

end

theorem SameUpTo.unflagged_range (h : SameUpTo Node.unflagged s s') (r : NodeRef) :
    (s'.nodes r).baseVpn = (s.nodes r).baseVpn ∧ (s'.nodes r).limitVpn = (s.nodes r).limitVpn :=
  ⟨h.field Node.baseVpn (congrArg Node.baseVpn) r, h.field Node.limitVpn (congrArg Node.limitVpn) r⟩

/-- Which reservation a page is in does not depend on map flags. -/
theorem findPageNode_same (h : VmmOk s L) (hs : SameUpTo Node.unflagged s s') :
    findPageNode s' d p = findPageNode s d p := by
  have h' := h.sameLists hs.unflagged_core
  have hrange := hs.unflagged_range
  have hloop : ∀ base limit l, overlapLoop s' base limit l = overlapLoop s base limit l := by
    intro base limit l
    induction l with
    | nil => rfl
    | cons r l ih =>
      unfold overlapLoop
      rw [(hrange r).1, (hrange r).2, ih]
  have hfind : findOverlap s' d p 1 = findOverlap s d p 1 := by
    unfold findOverlap
    split
    · rfl
    · rw [hloop, h'.listOf_eq, h.listOf_eq]
  unfold findPageNode
  rw [h'.validate d, h.validate d, hfind, hs.doms]

theorem reportedFlags_eq (s : State) (asp p : Nat) : reportedFlags s asp p =
    if (s.doms (.local asp)).initialized = false then .error .invalidValue
    else (findPageNode s (.local asp) p).map fun r => (s.nodes r).mapFlags := by
  unfold reportedFlags stVmmGetLocalPageInfo
  split
  · rfl
  · cases findPageNode s (.local asp) p with
    | error e => rfl
    | ok r => rfl

/-! ## The loop -/

/-- Page `p` is reserved, and no guard page. -/
def Usable (s : State) (l : List NodeRef) (p : Nat) : Prop :=
  ∃ r ∈ l, (s.nodes r).usableBaseVpn ≤ p ∧ p < (s.nodes r).limitVpn

/-- `[base, limit)` has a page in `[lo, hi)`. -/
abbrev Meets (base limit lo hi : Nat) : Prop := max base lo < min limit hi

/-- The loop has got from `cursor` to `q`, the first page it cannot take or the end: the
reservations that meet the pages before `q` have the new flags, and no others. -/
structure FlagsSet (s : State) (l : List NodeRef) (mf : MapFlags) (cursor limit q : Nat)
    (r : StStatus × State) : Prop where
  between : cursor ≤ q ∧ q ≤ limit
  success : r.1 = .success ↔ q = limit
  stuck   : q < limit → ¬ Usable s l q
  usable  : ∀ p, cursor ≤ p → p < q → Usable s l p
  flags   : ∀ a ∈ l, (r.2.nodes a).mapFlags =
              if Meets (s.nodes a).baseVpn (s.nodes a).limitVpn cursor q then mf
              else (s.nodes a).mapFlags

/-- The loop ends where it stands. -/
theorem FlagsSet.stop {l : List NodeRef} {mf : MapFlags} {cursor limit : Nat} {st : StStatus}
    (hle : cursor ≤ limit) (hst : st = .success ↔ cursor = limit)
    (hstuck : cursor < limit → ¬ Usable s l cursor) :
    FlagsSet s l mf cursor limit cursor (st, s) := by
  refine ⟨⟨le_rfl, hle⟩, hst, hstuck, fun p _ _ => by omega, fun a _ => ?_⟩
  rw [if_neg (by unfold Meets; omega)]

/-- A page without a reservation, or in front of the usable pages of one, is not usable. -/
theorem VmmOk.not_usable (h : VmmOk s L) (hp : p + 1 < wordLimit)
    (hfind : ∀ r, findOverlap s d p 1 = some r → p < (s.nodes r).usableBaseVpn) :
    ¬ Usable s (L d) p := by
  rintro ⟨a, ha, hbase, hlimit⟩
  have hguard : (s.nodes a).baseVpn ≤ (s.nodes a).usableBaseVpn := Nat.le_add_right _ _
  have := hfind a (findOverlap_eq h hp ha ⟨by omega, hlimit⟩)
  omega

/-- A round: the reservation `r` at the cursor gets the new flags, and the loop goes on behind
it. -/
theorem FlagsSet.round (h : VmmOk s L) (hr : r ∈ L d) {mf : MapFlags} {cursor limit next q : Nat}
    {res : StStatus × State} (husable : (s.nodes r).usableBaseVpn ≤ cursor)
    (hnext : cursor < next ∧ next ≤ (s.nodes r).limitVpn)
    (hrest : FlagsSet (s.modNode r fun n => { n with mapFlags := mf }) (L d) mf next limit q res) :
    FlagsSet s (L d) mf cursor limit q res := by
  obtain ⟨s1, hs1⟩ : ∃ s1, s1 = s.modNode r fun n => { n with mapFlags := mf } := ⟨_, rfl⟩
  rw [← hs1] at hrest
  have hsame : SameUpTo Node.unflagged s s1 := by
    rw [hs1]
    exact (SameUpTo.refl s).modNode (by intro _; rfl) _
  have hguard : (s.nodes r).baseVpn ≤ (s.nodes r).usableBaseVpn := Nat.le_add_right _ _
  have hu : ∀ p, Usable s1 (L d) p ↔ Usable s (L d) p := fun p => by
    unfold Usable
    simp only [hsame.field Node.usableBaseVpn (congrArg Node.usableBaseVpn),
      (hsame.unflagged_range _).2]
  have hq := hrest.between
  refine ⟨by omega, hrest.success, fun hlt => (hu q).not.mp (hrest.stuck hlt), fun p hp1 hp2 => ?_,
    fun a ha => ?_⟩
  · rcases Nat.lt_or_ge p next with hlow | hhigh
    · exact ⟨r, hr, by omega, by omega⟩
    · exact (hu p).mp (hrest.usable p hhigh hp2)
  · rw [hrest.flags a ha, (hsame.unflagged_range a).1, (hsame.unflagged_range a).2]
    rcases eq_or_ne a r with rfl | hne
    · have hself : (s1.nodes a).mapFlags = mf := by
        rw [hs1, State.modNode]
        simp
      rw [hself, ite_self, if_pos (by unfold Meets; omega)]
    · have hother : (s1.nodes a).mapFlags = (s.nodes a).mapFlags := by
        rw [hs1, State.modNode]
        simp [Function.update_of_ne hne]
      -- up to `next` the pages are those of `r`
      have hapart : ¬ Covers s a (max (s.nodes a).baseVpn cursor) ∨
          next ≤ max (s.nodes a).baseVpn cursor := by
        by_contra hcon
        exact hne (h.covers_unique hr ha ⟨by omega, by omega⟩ (not_not.mp (not_or.mp hcon).1))
      rw [hother]
      refine if_congr ?_ rfl rfl
      unfold Meets
      unfold Covers at hapart
      omega

/-- **What the loop does.** -/
theorem setMapFlagsLoop_spec {limit : Nat} (mf : MapFlags) (hlimit : limit < wordLimit) (fuel : Nat)
    (s : State) (cursor : Nat) (h : VmmOk s L) (hle : cursor ≤ limit)
    (hfuel : limit ≤ cursor + fuel) :
    ∃ q, FlagsSet s (L d) mf cursor limit q (setMapFlagsLoop d limit mf fuel s cursor) := by
  induction fuel generalizing s cursor with
  | zero => exact ⟨cursor, .stop hle ⟨fun _ => by omega, fun _ => rfl⟩ fun _ => by omega⟩
  | succ fuel ih =>
    rw [setMapFlagsLoop]
    split
    next => exact ⟨cursor, .stop hle ⟨fun _ => by omega, fun _ => rfl⟩ fun _ => by omega⟩
    next hmore =>
      split
      next hfind =>
        refine ⟨cursor, .stop hle ⟨fun hst => (by cases hst), fun _ => by omega⟩ fun _ => ?_⟩
        exact h.not_usable (by omega) fun r hr => by rw [hfind] at hr; cases hr
      next r hfind =>
        split
        next hguard =>
          refine ⟨cursor, .stop hle ⟨fun hst => (by cases hst), fun _ => by omega⟩ fun _ => ?_⟩
          refine h.not_usable (by omega) fun a ha => ?_
          rw [hfind] at ha
          exact Option.some.inj ha ▸ hguard
        next husable =>
          obtain ⟨hr, hcovers⟩ := findOverlap_covers h (by omega) hfind
          have hsame : SameUpTo Node.unflagged s (s.modNode r fun n => { n with mapFlags := mf }) :=
            (SameUpTo.refl s).modNode (by intro _; rfl) _
          have hend := (hsame.unflagged_range r).2
          dsimp only
          rw [hend]
          obtain ⟨next, hnext⟩ : ∃ next, next =
            if (s.nodes r).limitVpn > limit then limit else (s.nodes r).limitVpn := ⟨_, rfl⟩
          rw [← hnext]
          have hstep : cursor < next ∧ next ≤ limit ∧ next ≤ (s.nodes r).limitVpn := by
            rw [hnext]
            split <;> omega
          obtain ⟨q, hq⟩ := ih _ next (h.sameLists hsame.unflagged_core) (by omega) (by omega)
          exact ⟨q, .round h hr (not_lt.mp husable) ⟨hstep.1, hstep.2.2⟩ hq⟩

/-! ## The effect of a call -/

/-- The argument checks of `StVmm_SetLocalPageReservationMapFlags`. -/
def Accepted (s : State) (asp vpn count : Nat) (mf : MapFlags) : Prop :=
  (s.doms (.local asp)).initialized = true ∧ 0 < count ∧ (s.doms (.local asp)).baseVpn ≤ vpn ∧
    count - 1 ≤ subWord (s.doms (.local asp)).limitVpn vpn ∧ hasFlag mf mfGuard = false ∧
    vpn + count < wordLimit

/-- A call that gets past its checks runs the loop; any other one does nothing. -/
theorem stVmmSetLocalPageReservationMapFlags_cases (hs : VmmOk s L) (asp : Nat)
    (vpn count : UInt64) (mf : MapFlags) :
    (¬ Accepted s asp vpn.toNat count.toNat mf ∧
        ∃ st ≠ .success, stVmmSetLocalPageReservationMapFlags s asp vpn.toNat count.toNat mf =
          (st, s)) ∨
      (Accepted s asp vpn.toNat count.toNat mf ∧
        stVmmSetLocalPageReservationMapFlags s asp vpn.toNat count.toNat mf =
          setMapFlagsLoop (.local asp) (vpn.toNat + count.toNat) mf count.toNat s vpn.toNat) := by
  unfold stVmmSetLocalPageReservationMapFlags
  dsimp only
  split
  next hinit =>
    refine .inl ⟨fun h => ?_, _, by decide, rfl⟩
    rcases hinit with hinit | hcount
    · rw [h.1] at hinit
      cases hinit
    · exact absurd h.2.1 (by omega)
  next hinit =>
    obtain ⟨hinit, hcount⟩ := not_or.mp hinit
    split
    next hbase => exact .inl ⟨fun h => absurd h.2.2.1 (by omega), _, by decide, rfl⟩
    next hbase =>
    split
    next hend => exact .inl ⟨fun h => absurd h.2.2.2.1 (by omega), _, by decide, rfl⟩
    next hend =>
    split
    next hguard => exact .inl ⟨fun h => by simp [h.2.2.2.2.1] at hguard, _, by decide, rfl⟩
    next hguard =>
    split
    next e he =>
      have hfail := makeLimitExclusive_error he
      refine .inl ⟨fun h => ?_, e, (by rintro rfl; cases hfail), rfl⟩
      rw [makeLimitExclusive_of_lt h.2.1 h.2.2.2.2.2] at he
      cases he
    next limit hlimit =>
      obtain ⟨-, hmod, -⟩ := makeLimitExclusive_ok hlimit
      have heq := makeLimitExclusive_eq vpn.toNat_lt count.toNat_lt hlimit
      have hlt : limit < wordLimit := hmod ▸ Nat.mod_lt _ (by decide)
      rw [if_neg (by rw [hs.validate]; simp), ← heq]
      exact .inr ⟨⟨by simpa using hinit, by omega, by omega, by omega, by simpa using hguard,
        by omega⟩, rfl⟩

/-- Whether the reservation of a page meets `[lo, hi)`. -/
def reached (s : State) (asp p lo hi : Nat) : Bool :=
  match stVmmGetLocalReservedRange s asp p with
  | .ok (b, e) => Meets b e lo hi
  | .error _ => false

/-- What is reported behind the loop. -/
theorem FlagsSet.reported (hs : VmmOk s L) {asp lo limit q : Nat} {mf : MapFlags} {st : StStatus}
    (hinit : (s.doms (.local asp)).initialized = true) (hsame : SameUpTo Node.unflagged s s')
    (h : FlagsSet s (L (.local asp)) mf lo limit q (st, s')) (p : Nat) :
    reportedFlags s' asp p = if reached s asp p lo q then .ok mf else reportedFlags s asp p := by
  simp only [reportedFlags_eq, reached, stVmmGetLocalReservedRange, hsame.doms, hinit,
    findPageNode_same hs hsame, Bool.true_eq_false, if_false]
  cases hfind : findPageNode s (.local asp) p with
  | error err => rfl
  | ok r =>
    have hr := h.flags r (findPageNode_ok hs hfind)
    dsimp only at hr
    simp only [Except.map, hr, decide_eq_true_eq]
    split <;> rfl

/-- A usable page of the range is a page of a reservation that meets the range. -/
theorem reached_of_usable (hs : VmmOk s L) {asp lo hi : Nat} (hhi : hi < wordLimit)
    (hinit : (s.doms (.local asp)).initialized = true) (hlo : lo ≤ p) (hlt : p < hi)
    (h : Usable s (L (.local asp)) p) : reached s asp p lo hi = true := by
  obtain ⟨r, hr, hbase, hlimit⟩ := h
  have hguard : (s.nodes r).baseVpn ≤ (s.nodes r).usableBaseVpn := Nat.le_add_right _ _
  rw [reached, stVmmGetLocalReservedRange, hinit, if_neg (by simp),
    findPageNode_eq hs (by omega) hr ⟨by omega, hlimit⟩]
  simp only [Except.map, decide_eq_true_eq]
  omega

/-- **What a change of map flags reaches.** If it succeeds, every page of the range reports the new
flags, every page of a reservation that meets the range does, and no other page changes. If the
arguments are refused or the first page is not usable, it fails and nothing changes. If it fails
elsewhere, the pages changed are those of the reservations that meet the range in front of the first
page that is not usable. -/
theorem setMapFlags_effect (s : State) (L : DomainId → List NodeRef) (hs : VmmOk s L) (asp : Nat)
    (vpn count : UInt64) (mf : MapFlags) (st : StStatus) (s' : State)
    (h : stVmmSetLocalPageReservationMapFlags s asp vpn.toNat count.toNat mf = (st, s')) :
    (st = .success →
        (∀ p, vpn.toNat ≤ p → p < vpn.toNat + count.toNat → reportedFlags s' asp p = .ok mf) ∧
        ∀ p, reportedFlags s' asp p =
          if reached s asp p vpn.toNat (vpn.toNat + count.toNat) then .ok mf
          else reportedFlags s asp p) ∧
      (¬ Accepted s asp vpn.toNat count.toNat mf ∨ ¬ Usable s (L (.local asp)) vpn.toNat →
        st ≠ .success ∧ ∀ p, reportedFlags s' asp p = reportedFlags s asp p) ∧
      (st ≠ .success → Accepted s asp vpn.toNat count.toNat mf →
        ∃ q, vpn.toNat ≤ q ∧ q < vpn.toNat + count.toNat ∧ ¬ Usable s (L (.local asp)) q ∧
          (∀ p, vpn.toNat ≤ p → p < q → Usable s (L (.local asp)) p) ∧
          ∀ p, reportedFlags s' asp p =
            if reached s asp p vpn.toNat q then .ok mf else reportedFlags s asp p) := by
  rcases stVmmSetLocalPageReservationMapFlags_cases hs asp vpn count mf with
    ⟨hrefused, st', hne, heq⟩ | ⟨hacc, heq⟩
  · obtain ⟨rfl, rfl⟩ := Prod.mk.inj (heq.symm.trans h)
    exact ⟨fun hst => absurd hst hne, fun _ => ⟨hne, fun _ => rfl⟩,
      fun _ hacc => absurd hacc hrefused⟩
  · have hsame := stVmmSetLocalPageReservationMapFlags_same s asp vpn.toNat count.toNat mf
    rw [h] at hsame
    rw [heq] at h
    obtain ⟨hinit, hcount, -, -, -, hlt⟩ := id hacc
    obtain ⟨q, hq⟩ := setMapFlagsLoop_spec (d := .local asp) mf hlt count.toNat s vpn.toNat hs
      (Nat.le_add_right _ _) le_rfl
    rw [h] at hq
    have hreported := hq.reported hs hinit hsame
    refine ⟨fun hst => ?_, fun hbad => ?_, fun hst _ => ?_⟩
    · obtain rfl := hq.success.mp hst
      refine ⟨fun p hp1 hp2 => ?_, hreported⟩
      rw [hreported, reached_of_usable hs hlt hinit hp1 hp2 (hq.usable p hp1 hp2), if_pos rfl]
    · have hunusable := hbad.resolve_left (not_not.mpr hacc)
      -- the loop stops at its first page
      obtain rfl : q = vpn.toNat := by
        by_contra hne
        exact hunusable (hq.usable _ le_rfl (by have := hq.between; omega))
      refine ⟨fun hst => absurd (hq.success.mp hst) (by omega), fun p => ?_⟩
      rw [hreported, if_neg]
      unfold reached
      split
      · simp only [decide_eq_true_eq]
        omega
      · simp
    · have hlt : q < vpn.toNat + count.toNat :=
        lt_of_le_of_ne hq.between.2 fun heq => hst (hq.success.mpr heq)
      exact ⟨q, hq.between.1, hlt, hq.stuck hlt, hq.usable, hreported⟩

/-- Four writable pages from 40 on, and nothing behind them. -/
def fourPages : State :=
  (stVmmReserveLocalPageTo noFrames (fun _ => true) (stVmmInitLocalDomain initial 0 16 99 none).2 0
    (40 : UInt64).toNat (4 : UInt64).toNat 0 mfWritable).2

theorem fourPages_ok : ∃ L, VmmOk fourPages L := by
  obtain ⟨L, h⟩ : ∃ L, VmmOk (stVmmInitLocalDomain initial 0 16 99 none).2 L :=
    initDomain_snd_ok initial_ok (by decide) none
  exact step_ok (.reserveLocalTo _ noFrames (fun _ => true) 0 40 4 0 mfWritable) ⟨L, h⟩

/-- The pages of the range and the page before them; and a call that starts in the gap. -/
theorem setMapFlags_effect_two : (∃ s', stVmmSetLocalPageReservationMapFlags fourPages 0
    (41 : UInt64).toNat (2 : UInt64).toNat 0 = (.success, s') ∧
      reportedFlags s' 0 42 = .ok 0 ∧ reportedFlags s' 0 40 = .ok 0 ∧
      reportedFlags s' 0 50 = reportedFlags fourPages 0 50) ∧
    reportedFlags (stVmmSetLocalPageReservationMapFlags fourPages 0 (44 : UInt64).toNat
      (2 : UInt64).toNat mfGuard).2 0 42 = reportedFlags fourPages 0 42 := by
  obtain ⟨L, h⟩ := fourPages_ok
  have hst : (stVmmSetLocalPageReservationMapFlags fourPages 0 (41 : UInt64).toNat
      (2 : UInt64).toNat 0).1 = .success := by decide +kernel
  rcases hres : stVmmSetLocalPageReservationMapFlags fourPages 0 (41 : UInt64).toNat
    (2 : UInt64).toNat 0 with ⟨st, s'⟩
  rw [hres] at hst
  obtain rfl : st = .success := hst
  obtain ⟨hall, -⟩ := setMapFlags_effect fourPages L h 0 41 2 0 .success s' hres
  obtain ⟨hpage, hwhole⟩ := hall rfl
  obtain ⟨-, hrefused, -⟩ := setMapFlags_effect fourPages L h 0 44 2 mfGuard _ _ Prod.mk.eta.symm
  refine ⟨⟨s', rfl, hpage 42 (by decide) (by decide), ?_, ?_⟩, ?_⟩
  · rw [hwhole, if_pos (by decide +kernel)]
  · rw [hwhole, if_neg (by decide +kernel)]
  · exact (hrefused (.inl fun hacc => absurd hacc.2.2.2.2.1 (by decide))).2 42

/-- **Flags are changed outside of the range, and by calls that fail**: a call for one page changes
all four, and a call that runs into the gap behind them reports it and has changed them too. -/
theorem setMapFlags_spreads :
    (reportedFlags fourPages 0 41).toOption = some mfWritable ∧
    (stVmmSetLocalPageReservationMapFlags fourPages 0 40 1 0).1 = .success ∧
    (reportedFlags (stVmmSetLocalPageReservationMapFlags fourPages 0 40 1 0).2 0 41).toOption =
      some 0 ∧
    (stVmmSetLocalPageReservationMapFlags fourPages 0 40 6 0).1 = .notAllocated ∧
    (reportedFlags (stVmmSetLocalPageReservationMapFlags fourPages 0 40 6 0).2 0 41).toOption =
      some 0 := by
  decide +kernel

end FoliOS.Strata.Vmm
