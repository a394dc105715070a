import FoliOS.Strata.Paging.Preempt

/-!
# Strata — what a failed `map_memory` leaves behind

A failed call does not take back the pages it has mapped. It leaves every translation as it was only
if it got no further than the checks or the first page: `mapMemory_error_iff`. What stops the first
page is known before the call. It is mapped already, or one of the tables missing on the way to it
cannot be had (`FirstPageFails`).

`map_second_page_taken` is a call that fails at its second page and leaves the first one mapped.
-/

namespace FoliOS.Strata.Paging

open Lib

/-! ## Frames for tables -/

/-- The frames in the cache, which user pages do not draw on. -/
def State.cached (s : State) (user : Bool) : Nat := if user then 0 else s.cache.length

/-- Of `m` frames asked for in a row, one is not to be had: the cache does not last, and the PMM has
an error among its next answers. -/
def State.OutOfTables (env : Env) (s : State) (user : Bool) (m : Nat) : Prop :=
  ∃ j e, s.cached user + j < m ∧ env.supply (s.pulls + j) = .error e

/-- The tables that are missing on the way to a page. -/
def State.missingTables (s : State) (root vpn : Nat) : Nat :=
  (if s.tableAt root [pml4Index vpn] = none then 1 else 0) +
  (if s.tableAt root [pml4Index vpn, pdptIndex vpn] = none then 1 else 0) +
  (if s.tableAt root [pml4Index vpn, pdptIndex vpn, pdIndex vpn] = none then 1 else 0)

/-- A page cannot be mapped: it is already, or a table it needs is not to be had. -/
def FirstPageFails (env : Env) (s : State) (root vpn : Nat) (mf : MapFlags) : Prop :=
  s.look root vpn ≠ none ∨ s.OutOfTables env (hasFlag mf mfUser) (s.missingTables root vpn)

variable {env : Env} {used : Nat → Prop} {root : Nat} {s s' : State}

/-- What an allocation tells about the next ones. -/
def Draws (env : Env) (user : Bool) (s : State) : Except StStatus Nat × State → Prop
  | (.error _, _) => ∀ m, 0 < m → s.OutOfTables env user m
  | (.ok _, s') => ∀ m, s'.OutOfTables env user m ↔ s.OutOfTables env user (m + 1)

theorem allocateFreshPageTableFrame_draws (user : Bool) (h : s.cached user = 0) :
    Draws env user s (allocateFreshPageTableFrame env s) := by
  unfold allocateFreshPageTableFrame
  cases hs : env.supply s.pulls with
  | error e => exact fun m hm => ⟨0, e, by omega, hs⟩
  | ok pfn =>
    intro m
    have hcached : (({ s with pulls := s.pulls + 1 } : State).zeroFrame pfn).cached user = 0 := h
    constructor
    · rintro ⟨j, e, hj, he⟩
      refine ⟨j + 1, e, by omega, ?_⟩
      rw [← he]
      exact congrArg env.supply (by show s.pulls + (j + 1) = s.pulls + 1 + j; omega)
    · rintro ⟨j, e, hj, he⟩
      cases j with
      | zero => rw [Nat.add_zero, hs] at he; cases he
      | succ j =>
        refine ⟨j, e, by omega, ?_⟩
        rw [← he]
        exact congrArg env.supply (by show s.pulls + 1 + j = s.pulls + (j + 1); omega)

theorem allocatePageTableFrame_draws (env : Env) (s : State) (user : Bool) :
    Draws env user s (allocatePageTableFrame env s (!user)) := by
  unfold allocatePageTableFrame
  cases user with
  | true => exact allocateFreshPageTableFrame_draws true rfl
  | false =>
    cases hc : s.cache with
    | nil => exact allocateFreshPageTableFrame_draws false (by simp [State.cached, hc])
    | cons pfn rest =>
      intro m
      have hbefore : s.cached false = rest.length + 1 := by simp [State.cached, hc]
      have hafter : (({ s with cache := rest } : State).zeroFrame pfn).cached false = rest.length :=
        rfl
      unfold State.OutOfTables
      constructor
      · rintro ⟨j, e, hj, he⟩
        exact ⟨j, e, by omega, he⟩
      · rintro ⟨j, e, hj, he⟩
        exact ⟨j, e, by omega, he⟩

/-! ## Walking down -/

/-- A step down to the table at `q`: it hangs there afterwards, for one more frame if it was
missing; or it is missing and there is no frame, or a huge page is in the way. -/
def Descends (env : Env) (user : Bool) (root : Nat) (s : State) (q : List (Fin 512)) (huge : Prop) :
    Except StStatus Nat × State → Prop
  | (.ok t, s') =>
    (∀ p, p.length ≤ 3 → s'.tableAt root p = if p = q then some t else s.tableAt root p) ∧
    ∀ m, s'.OutOfTables env user m ↔
      s.OutOfTables env user (m + if s.tableAt root q = none then 1 else 0)
  | (.error _, _) => huge ∨ s.tableAt root q = none ∧ ∀ m, 0 < m → s.OutOfTables env user m

theorem markUser_outOfTables (t : Nat) (i : Fin 512) (user b : Bool) (m : Nat) :
    (s.markUser t i b).OutOfTables env user m ↔ s.OutOfTables env user m := by
  unfold State.markUser
  split <;> rfl

section

variable {p : List (Fin 512)} {i : Fin 512} {t : Nat}

/-- A table that is there already. -/
theorem markUser_descends (h : Paged env used root s) (user : Bool) {huge : Prop}
    (ht : s.tableAt root p = some t) (hp : p.length < 3)
    (hc : child p.length (s.mem t i) = some (frameOf (s.mem t i))) :
    Descends env user root s (p ++ [i]) huge
      (.ok (frameOf ((s.markUser t i user).mem t i)), s.markUser t i user) := by
  have hdown := (tableAt_slot ht i).trans hc
  have hstep := (markUser_stepsDown h user ht hp hc).2
  refine ⟨fun q hq => ?_, fun m => ?_⟩
  · rw [markUser_tableAt h user ht hp hq]
    split
    next heq =>
      rw [← hstep, markUser_tableAt h user ht hp (heq ▸ hq), heq]
    next => rfl
  · rw [hdown, if_neg (by simp), markUser_outOfTables]
    rfl

/-- A table that is made. -/
theorem install_descends {f : Nat} {s1 : State} (h : Taken env used root s s1 f) (user : Bool)
    {huge : Prop}
    (ht : s.tableAt root p = some t) (hp : p.length < 3) (hempty : isPresent (s.mem t i) = false)
    (hdraws : Draws env user s (.ok f, s1)) :
    Descends env user root s (p ++ [i]) huge (.ok f, s1.write t i (tableEntry f user)) := by
  refine ⟨fun q hq => h.tableAt user ht hp hempty hq, fun m => ?_⟩
  rw [tableAt_empty_slot ht hempty, if_pos rfl]
  exact hdraws m

theorem ensureTable_descends (h : Paged env used root s) (user : Bool)
    (ht : s.tableAt root p = some t) (hp : p.length < 3) :
    Descends env user root s (p ++ [i])
      (isPresent (s.mem t i) = true ∧ isHuge (s.mem t i) = true) (ensureTable env s t i user) := by
  unfold ensureTable
  dsimp only
  cases hpres : isPresent (s.mem t i) with
  | false =>
    have hspec := allocatePageTableFrame_spec h (!user)
    have hdraws := allocatePageTableFrame_draws env s user
    generalize allocatePageTableFrame env s (!user) = r at hspec hdraws
    obtain ⟨st | f, s1⟩ := r
    · exact .inr ⟨tableAt_empty_slot ht hpres, hdraws⟩
    · exact install_descends hspec user ht hp hpres hdraws
  | true =>
    cases hhuge : isHuge (s.mem t i) with
    | true => exact .inl ⟨rfl, rfl⟩
    | false => exact markUser_descends h user ht hp (by simp [child, hpres, hhuge])

end

theorem ensurePdpt_descends (h : Paged env used root s) (vpn : Nat)
    (hroot : root = env.baseRoot ∨ vpn < globalVpnBase) (user : Bool) :
    Descends env user root s [pml4Index vpn] False (ensurePdpt env s root vpn user) := by
  have htop : s.tableAt root [] = some root := rfl
  cases hpres : isPresent (s.mem root (pml4Index vpn)) with
  | false =>
    -- no huge page hides behind an entry that is not present
    rw [ensurePdpt_absent h vpn hroot user hpres]
    have hdesc := ensureTable_descends (i := pml4Index vpn) h user htop (by simp)
    rwa [hpres, show ((false = true) ∧ isHuge (s.mem root (pml4Index vpn)) = true) = False by simp]
      at hdesc
  | true =>
    unfold ensurePdpt
    dsimp only
    rw [hpres, Bool.not_true, if_neg Bool.false_ne_true]
    exact markUser_descends h user htop (by simp) (by simp [child, hpres])

/-- Every page number goes the way of one that is canonical. -/
theorem exists_canonical (v : Nat) : ∃ c, Canonical c ∧ path c = path v := by
  by_cases hlow : v % 2 ^ 36 < 2 ^ 35
  · refine ⟨v % 2 ^ 36, .inl (by unfold pml4HoleStart; omega), ?_⟩
    simp only [path_eq_iff, pml4Index, pdptIndex, pdIndex, ptIndex, Fin.ext_iff, Fin.val_ofNat]
    omega
  · refine ⟨v % 2 ^ 36 + (2 ^ 52 - 2 ^ 36), .inr ?_, ?_⟩
    · unfold pml4HoleEnd virtPageMax
      omega
    · simp only [path_eq_iff, pml4Index, pdptIndex, pdIndex, ptIndex, Fin.ext_iff, Fin.val_ofNat]
      omega

theorem look_congr {v w : Nat} (h : path v = path w) : s.look root v = s.look root w := by
  unfold State.look
  rw [h]

/-- An operation that maps no page leaves every walk as it is. -/
theorem look_of_effects (h : ∀ v g, Effect env used root s s' v 0 g) (w : Nat) :
    s'.look root w = s.look root w := by
  obtain ⟨c, hc, hpath⟩ := exists_canonical w
  rw [← look_congr hpath, ← look_congr hpath, (h 0 fun _ x => x).look c hc, if_neg (by omega)]

/-- **The first page.** The walk down fails only where the page cannot be mapped, and otherwise pays
for all the tables that were missing. -/
theorem ensurePt_first (h : Paged env used root s) (vpn : Nat)
    (hroot : root = env.baseRoot ∨ vpn < globalVpnBase) (user : Bool) :
    match ensurePt env s root vpn user with
    | (.ok _, _) => ¬ s.OutOfTables env user (s.missingTables root vpn)
    | (.error _, _) =>
      s.look root vpn ≠ none ∨ s.OutOfTables env user (s.missingTables root vpn) := by
  unfold ensurePt State.missingTables
  generalize ha : (if s.tableAt root [pml4Index vpn] = none then 1 else 0) = a
  generalize hb : (if s.tableAt root [pml4Index vpn, pdptIndex vpn] = none then 1 else 0) = b
  generalize hc :
    (if s.tableAt root [pml4Index vpn, pdptIndex vpn, pdIndex vpn] = none then 1 else 0) = c
  -- the PDPT
  have hd4 := ensurePdpt_descends h vpn hroot user
  have h4 := ensurePdpt_stepsDown h vpn hroot user
  generalize ensurePdpt env s root vpn user = r4 at h4 hd4
  obtain ⟨st | pdpt, s4⟩ := r4
  · rcases hd4 with hd4 | ⟨hnone, hout⟩
    · exact hd4.elim
    · rw [if_pos hnone] at ha
      exact .inr (hout _ (by omega))
  obtain ⟨he4, ht4⟩ := h4
  obtain ⟨htab4, hpay4⟩ := hd4
  rw [ha] at hpay4
  rw [← show s4.tableAt root [pml4Index vpn, pdptIndex vpn] = _ from
    (htab4 _ (by simp)).trans (if_neg (by simp))] at hb
  rw [← show s4.tableAt root [pml4Index vpn, pdptIndex vpn, pdIndex vpn] = _ from
    (htab4 _ (by simp)).trans (if_neg (by simp))] at hc
  rw [← look_of_effects he4 vpn]
  dsimp only
  -- the PD
  have hd3 := ensureTable_descends (i := pdptIndex vpn) (he4 vpn fun _ x => x).ok user ht4 (by simp)
  have h3 := ensureTable_stepsDown (i := pdptIndex vpn) (he4 vpn fun _ x => x).ok user ht4 (by simp)
  generalize ensureTable env s4 pdpt (pdptIndex vpn) user = r3 at h3 hd3
  obtain ⟨st | pd, s3⟩ := r3
  · rcases hd3 with ⟨hpres, hhuge⟩ | ⟨hnone, hout⟩
    · rw [look_of_huge (q := [pdIndex vpn, ptIndex vpn]) ht4 rfl (by simp) hpres hhuge]
      simp
    · rw [show [pml4Index vpn, pdptIndex vpn] = [] ++ [pml4Index vpn] ++ [pdptIndex vpn] from rfl,
        if_pos hnone] at hb
      refine .inr ?_
      rw [show a + b + c = b + c + a by omega, ← hpay4]
      exact hout _ (by omega)
  obtain ⟨he3, ht3⟩ := h3
  obtain ⟨htab3, hpay3⟩ := hd3
  rw [show [] ++ [pml4Index vpn] ++ [pdptIndex vpn] = [pml4Index vpn, pdptIndex vpn] from rfl,
    hb] at hpay3
  rw [← show s3.tableAt root [pml4Index vpn, pdptIndex vpn, pdIndex vpn] = _ from
    (htab3 _ (by simp)).trans (if_neg (by simp))] at hc
  rw [← look_of_effects he3 vpn]
  dsimp only
  -- the page table
  have hd2 := ensureTable_descends (i := pdIndex vpn) (he3 vpn fun _ x => x).ok user ht3 (by simp)
  generalize ensureTable env s3 pd (pdIndex vpn) user = r2 at hd2
  obtain ⟨st | pt, s2⟩ := r2
  · rcases hd2 with ⟨hpres, hhuge⟩ | ⟨hnone, hout⟩
    · rw [look_of_huge (q := [ptIndex vpn]) ht3 rfl (by simp) hpres hhuge]
      simp
    · rw [show [pml4Index vpn, pdptIndex vpn, pdIndex vpn] =
        [] ++ [pml4Index vpn] ++ [pdptIndex vpn] ++ [pdIndex vpn] from rfl, if_pos hnone] at hc
      refine .inr ?_
      rw [show a + b + c = c + b + a by omega, ← hpay4, ← hpay3]
      exact hout _ (by omega)
  · obtain ⟨-, hpay2⟩ := hd2
    rw [show [] ++ [pml4Index vpn] ++ [pdptIndex vpn] ++ [pdIndex vpn] =
      [pml4Index vpn, pdptIndex vpn, pdIndex vpn] from rfl, hc] at hpay2
    rw [show a + b + c = 0 + c + b + a by omega, ← hpay4, ← hpay3, ← hpay2]
    rintro ⟨j, e, hj, -⟩
    exact absurd hj (Nat.not_lt_zero _)

/-! ## The loop -/

/-- The entries of a chunk, at any page number. -/
theorem mapEntries_look (mf : MapFlags) {v pfn pt n : Nat} (h : Paged env used root s)
    (hpt : s.tableAt root [pml4Index v, pdptIndex v, pdIndex v] = some pt)
    (hidx : (ptIndex v).val + n ≤ 512) (hpfn : pfn + n ≤ 2 ^ 40)
    (hclear : hasFlag mf mfZeroFill = true → ∀ k < n, Clearable used root s (pfn + k)) :
    ∃ st s', mapEntries (pteTemplate env.hasNx mf) (hasFlag mf mfZeroFill) pt (ptIndex v) pfn
        n 0 s = (st, s') ∧ Paged env used root s' ∧
      (∀ f, Clearable used root s f → Clearable used root s' f) ∧
      (∀ w, s.look root w ≠ none → s'.look root w ≠ none) ∧
      (s.look root v = none → 0 < n → s'.look root v ≠ none) := by
  obtain ⟨c, hc, hpath⟩ := exists_canonical v
  obtain ⟨h4, h3, h2, h1⟩ := path_eq_iff.mp hpath
  rw [← h4, ← h3, ← h2] at hpt
  rw [← h1] at hidx ⊢
  obtain ⟨st, s', j, heq, heff, hst⟩ := mapEntries_effect (pteTemplate env.hasNx mf)
    (hasFlag mf mfZeroFill) pfn (fun f hf => isPresent_leaf env.hasNx mf hf) hc (i := 0)
      (n := n) h hpt
    (by omega) (by omega) fun hz k _ hk => hclear hz k (by omega)
  have hmapped : ∀ w, Canonical w → s.look root w ≠ none → s'.look root w ≠ none := by
    intro w hw hlook
    rw [heff.look w hw]
    split
    next => exact Option.some_ne_none _
    next => exact hlook
  refine ⟨st, s', heq, heff.ok, fun f hf => heff.clearable hf, fun w hlook => ?_,
    fun hnone hn => ?_⟩
  · obtain ⟨x, hx, hxw⟩ := exists_canonical w
    rw [← look_congr hxw] at hlook ⊢
    exact hmapped x hx hlook
  · have hj : 0 < j := by
      rcases hst with ⟨-, rfl⟩ | ⟨-, -, hzero⟩
      · exact hn
      · refine Nat.pos_of_ne_zero fun hj => ?_
        have hlook := look_of_pt (k := 0) (by omega) hpt
        rw [Nat.add_zero, look_congr hpath, hnone, hzero hj] at hlook
        cases hlook
    rw [← look_congr hpath, heff.look c hc, if_pos (by omega)]
    exact Option.some_ne_none _

/-- No page loses its translation, and the first one gets one unless it fails. -/
theorem mapLoop_mapped (mf : MapFlags) (fuel : Nat) : ∀ {v pfn count : Nat} {s : State},
    pfn + count ≤ 2 ^ 40 → (root = env.baseRoot ∨ v + count ≤ globalVpnBase) →
    Paged env used root s →
    (hasFlag mf mfZeroFill = true → ∀ k < count, Clearable used root s (pfn + k)) →
    ∀ w, s.look root w ≠ none ∨
        (w = v ∧ 0 < fuel ∧ 0 < count ∧ ¬ FirstPageFails env s root v mf) →
      (mapLoop env root mf fuel v pfn count s).2.2.look root w ≠ none := by
  induction fuel with
  | zero => exact fun _ _ _ _ _ hw => hw.resolve_right fun h => absurd h.2.1 (Nat.lt_irrefl 0)
  | succ fuel ih =>
    intro v pfn count s hpfn hroot h hclear w hw
    by_cases hcount : count = 0
    · rw [mapLoop, if_pos hcount]
      exact hw.resolve_right fun h => absurd hcount h.2.2.1.ne'
    rw [mapLoop_round mf fuel v pfn hcount]
    obtain ⟨hpos, hle, hidx⟩ := chunkSize_spec v (Nat.pos_of_ne_zero hcount)
    have hfirst := ensurePt_first h v (hroot.imp_right (by omega)) (hasFlag mf mfUser)
    have hdown := ensurePt_stepsDown h v (hroot.imp_right (by omega)) (hasFlag mf mfUser)
    generalize ensurePt env s root v (hasFlag mf mfUser) = r at hdown hfirst
    obtain ⟨st | pt, s1⟩ := r
    · rw [look_of_effects hdown.2 w]
      exact hw.resolve_right fun hno => hno.2.2.2 hfirst
    obtain ⟨hdown, hpt⟩ := hdown
    obtain ⟨st, s2, heq, hok, hcl, hkeep, hnew⟩ :=
      mapEntries_look mf (hdown v fun _ x => x).ok hpt hidx
      (by omega) fun hz k hk => (hdown v fun _ x => x).clearable (hclear hz k (by omega))
    have hw2 : s2.look root w ≠ none := by
      rcases hw with hw | ⟨rfl, -, -, hno⟩
      · exact hkeep w (by rwa [look_of_effects hdown w])
      · refine hnew ?_ hpos
        rw [look_of_effects hdown w]
        exact not_not.mp fun hmapped => hno (.inl hmapped)
    dsimp only
    rw [heq]
    split
    next s3 hres =>
      cases hres
      have hpmod : (pfn + chunkSize v count) % wordLimit = pfn + chunkSize v count :=
        Nat.mod_eq_of_lt (by unfold wordLimit; omega)
      rw [hpmod]
      refine ih (by omega) (hroot.imp_right fun hg => ?_) hok (fun hz k hk => ?_) w (.inl hw2)
      · have := Nat.mod_le (v + chunkSize v count) wordLimit
        omega
      · rw [Nat.add_assoc]
        exact hcl _ ((hdown v fun _ x => x).clearable (hclear hz _ (by omega)))
    next hres =>
      cases hres
      exact hw2

/-- **The loop and its first page**: it fails there and changes no translation, or maps it. -/
theorem mapLoop_first (mf : MapFlags) (fuel : Nat) {v pfn count : Nat} (hcount : count ≠ 0)
    (hpfn : pfn + count ≤ 2 ^ 40) (hroot : root = env.baseRoot ∨ v + count ≤ globalVpnBase)
    (h : Paged env used root s)
    (hclear : hasFlag mf mfZeroFill = true → ∀ k < count, Clearable used root s (pfn + k)) :
    (FirstPageFails env s root v mf →
      checkSuccess (mapLoop env root mf (fuel + 1) v pfn count s).1 = false ∧
      ∀ w, (mapLoop env root mf (fuel + 1) v pfn count s).2.2.look root w = s.look root w) ∧
    (¬ FirstPageFails env s root v mf →
      (mapLoop env root mf (fuel + 1) v pfn count s).2.2.look root v ≠ none) := by
  refine ⟨fun hfails => ?_, fun hno => mapLoop_mapped mf (fuel + 1) hpfn hroot h hclear v
    (.inr ⟨rfl, Nat.succ_pos fuel, Nat.pos_of_ne_zero hcount, hno⟩)⟩
  rw [mapLoop_round mf fuel v pfn hcount]
  obtain ⟨hpos, hle, hidx⟩ := chunkSize_spec v (Nat.pos_of_ne_zero hcount)
  have hfirst := ensurePt_first h v (hroot.imp_right (by omega)) (hasFlag mf mfUser)
  have hdown := ensurePt_stepsDown h v (hroot.imp_right (by omega)) (hasFlag mf mfUser)
  generalize ensurePt env s root v (hasFlag mf mfUser) = r at hdown hfirst
  obtain ⟨st | pt, s1⟩ := r
  · exact ⟨hdown.1, look_of_effects hdown.2⟩
  obtain ⟨hdown, hpt⟩ := hdown
  have hlook := look_of_effects hdown
  rcases hfails with hmapped | hout
  · -- the entry is present, so the chunk ends before it begins
    have hpres : isPresent (s1.mem pt (Fin.ofNat 512 ((ptIndex v).val + 0))) = true := by
      rw [← hlook v, ← Nat.add_zero v, look_of_pt (k := 0) (by omega) hpt] at hmapped
      by_contra hno
      exact hmapped (if_neg hno)
    obtain ⟨n, hn⟩ := Nat.exists_eq_add_of_lt hpos
    dsimp only
    rw [hn, Nat.zero_add, mapEntries, if_pos hpres]
    exact ⟨rfl, hlook⟩
  · exact absurd hout hfirst

/-! ## The call -/

theorem lockIf_firstPageFails (v vpn : Nat) (mf : MapFlags) :
    FirstPageFails env (s.lockIf v) root vpn mf ↔ FirstPageFails env s root vpn mf := by
  unfold State.lockIf
  split <;> rfl

theorem unlockIf_look (v w : Nat) : (s.unlockIf v).look root w = s.look root w := by
  unfold State.unlockIf
  split <;> rfl

/-- Equal walks are equal translations. -/
theorem pageMap_of_look (h : ∀ w, s'.look root w = s.look root w) (w : Nat) :
    pageMap env s' root w = pageMap env s root w := by
  by_cases hw : Canonical w
  · rw [pageMap_eq env s' root hw, pageMap_eq env s root hw, h w]
  · rw [pageMap_of_not_canonical env s' root hw, pageMap_of_not_canonical env s root hw]

/-- **A failed call leaves the translations as they were if and only if it was rejected or failed at
its first page.** -/
theorem mapMemory_error_iff (h : Paged env used root s) (pfn vpn count : UInt64) (mf : MapFlags)
    (hp : (Call.map pfn vpn count mf).Proper env used root s) {st : StStatus}
    (hrun : mapMemory env s root pfn.toNat vpn.toNat count.toNat mf = (st, s'))
    (hst : checkSuccess st = false) :
    (∀ w, pageMap env s' root w = pageMap env s root w) ↔
      (Call.map pfn vpn count mf).Rejected ∨ FirstPageFails env s root vpn.toNat mf := by
  obtain ⟨hpfn, hroot, hclear⟩ := hp
  by_cases hrej : (Call.map pfn vpn count mf).Rejected
  · have hafter : (Call.map pfn vpn count mf).after env root s = some s' := by rw [Call.after, hrun]
    rw [hrej.same hafter]
    exact ⟨fun _ => .inl hrej, fun _ _ => rfl⟩
  have hloop : s' = ((mapLoop env root mf count.toNat vpn.toNat pfn.toNat count.toNat
      (s.lockIf vpn.toNat)).2.2).unlockIf
        (mapLoop env root mf count.toNat vpn.toNat pfn.toNat count.toNat (s.lockIf vpn.toNat)).2.1 ∧
      st = (mapLoop env root mf count.toNat vpn.toNat pfn.toNat count.toNat
        (s.lockIf vpn.toNat)).1 := by
    rw [mapMemory, ite_checks, if_neg (show ¬ (_ ∨ _ ∨ _) from hrej)] at hrun
    exact ⟨(congrArg Prod.snd hrun).symm, (congrArg Prod.fst hrun).symm⟩
  obtain ⟨rfl, rfl⟩ := hloop
  rcases Nat.eq_zero_or_pos count.toNat with hzero | hpos
  · rw [hzero] at hst
    cases hst
  obtain ⟨n, hn⟩ := Nat.exists_eq_add_of_lt hpos
  rw [Nat.zero_add] at hn
  have hfirst := mapLoop_first mf n (Nat.ne_of_gt hpos) hpfn hroot (h.lockIf vpn.toNat)
    fun hz k hk => (hclear hz k hk).lockIf vpn.toNat
  rw [← hn, lockIf_firstPageFails] at hfirst
  have hlook0 : ∀ w, (s.lockIf vpn.toNat).look root w = s.look root w := fun w => by
    unfold State.look
    rw [lockIf_mem]
  constructor
  · intro hsame
    refine .inr (by_contra fun hno => ?_)
    -- the first page is mapped now, and was not before
    obtain ⟨c, hc, hpath⟩ := exists_canonical vpn.toNat
    have hnew := hfirst.2 hno
    have hold : s.look root c = none := by
      rw [look_congr hpath]
      by_contra hmapped
      exact hno (.inl hmapped)
    have hc' := hsame c
    rw [pageMap_eq env _ root hc, pageMap_eq env s root hc, hold, unlockIf_look,
      look_congr hpath] at hc'
    exact hnew (Option.map_eq_none_iff.mp hc')
  · rintro (hr | hfails)
    · exact absurd hr hrej
    · refine pageMap_of_look fun w => ?_
      rw [unlockIf_look, (hfirst.1 hfails).2 w, hlook0]

/-- A user page for which no table is to be had. -/
theorem map_without_tables :
    (mapMemory bareEnv emptyState 1 7 0x200 1 mfUser).1 = .insufficientMemory ∧
      ∀ w, pageMap bareEnv (mapMemory bareEnv emptyState 1 7 0x200 1 mfUser).2 1 w =
        pageMap bareEnv emptyState 1 w := by
  have hst : (mapMemory bareEnv emptyState 1 7 0x200 1 mfUser).1 = .insufficientMemory := by
    decide +kernel
  have hfails : FirstPageFails bareEnv emptyState 1 0x200 mfUser :=
    .inr ⟨0, .insufficientMemory, by decide +kernel, rfl⟩
  exact ⟨hst, (mapMemory_error_iff emptyState_paged 7 0x200 1 mfUser
    ⟨by decide, .inl rfl, fun h => absurd h (by decide)⟩ (Prod.ext hst rfl) rfl).mpr (.inr hfails)⟩

/-- **A call that fails half-way.** Page 1 is mapped, pages 0 and 1 are asked for: the call returns
`STATUS_DUPLICATE_ENTRY` and page 0 stays mapped. -/
theorem map_second_page_taken :
    ∃ s₁ s₂, mapMemory bareEnv emptyState 1 9 1 1 0 = (.success, s₁) ∧
      Paged bareEnv (fun _ => False) 1 s₁ ∧
      mapMemory bareEnv s₁ 1 7 0 2 0 = (.duplicateEntry, s₂) ∧
      pageMap bareEnv s₁ 1 0 = none ∧ pageMap bareEnv s₂ 1 0 = some (7, 0) := by
  obtain ⟨st, s₁, j, hrun, heff, -⟩ := mapMemory_effect emptyState_paged 0
    (show ValidRange 1 1 from .inl (by decide)) (show 9 + 1 ≤ 2 ^ 40 by decide) (.inl rfl)
    fun h => absurd h (by decide)
  have hst : (mapMemory bareEnv emptyState 1 9 1 1 0).1 = .success := by decide +kernel
  have hs1 : s₁ = (mapMemory bareEnv emptyState 1 9 1 1 0).2 := (congrArg Prod.snd hrun).symm
  refine ⟨s₁, (mapMemory bareEnv s₁ 1 7 0 2 0).2, ?_, heff.ok, ?_⟩
  · rw [← hst, hs1]
  · rw [hs1]
    refine ⟨Prod.ext ?_ rfl, ?_, ?_⟩ <;> decide +kernel

end FoliOS.Strata.Paging
