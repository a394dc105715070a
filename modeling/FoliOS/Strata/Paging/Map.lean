import FoliOS.Strata.Paging.Tree

/-!
# Strata — what `map_memory` does to the page map

The walk down makes missing tables without changing any translation; the
entries then written are those of the requested pages. `mapLoop_effect` says
how far a call got, `mapMemory_effect` what a successful one has done.
-/

namespace FoliOS.Strata.Paging

open Lib

variable {p q : List (Fin 512)} {i : Fin 512} {t count v pt f chunk : Nat}

variable {env : Env} {used : Nat → Prop} {root vpn n k : Nat} {s s1 s2 : State}
  {g : Nat → Option (Nat × Word) → Option (Nat × Word)}

/-! ## New tables -/

/-- The frame `f` was taken for a table: it is blank, and nobody else's. -/
structure Taken (env : Env) (used : Nat → Prop) (root : Nat) (s s' : State) (f : Nat) : Prop where
  ok     : Paged env used root s'
  mem    : ∀ t, t ≠ f → s'.mem t = s.mem t
  blank  : ∀ i, s'.mem f i = 0
  off    : ∀ p, p.length ≤ 3 → s.tableAt root p ≠ some f
  unused : ¬used f
  small  : f < 2 ^ 40
  gone   : ¬Available env s' f

/-- What the page-table frame allocators guarantee. -/
def Allocates (env : Env) (used : Nat → Prop) (root : Nat) (s : State) :
    Except StStatus Nat × State → Prop
  | (.ok f, s') => Taken env used root s s' f
  | (.error st, s') => checkSuccess st = false ∧ Paged env used root s' ∧ s'.mem = s.mem

theorem allocateFreshPageTableFrame_spec (h : Paged env used root s) :
    Allocates env used root s (allocateFreshPageTableFrame env s) := by
  unfold allocateFreshPageTableFrame
  cases hs : env.supply s.pulls with
  | error e =>
    exact ⟨h.failure _ _ hs, h.of_agree (fun _ _ _ _ _ => rfl) rfl rfl (Nat.le_succ _), rfl⟩
  | ok f =>
    have havail : Available env s f := .inr (.inr ⟨s.pulls, le_rfl, hs⟩)
    have hother : ∀ t ≠ f, (({ s with pulls := s.pulls + 1 } : State).zeroFrame f).mem t =
        s.mem t := fun t ht => Function.update_of_ne ht _ _
    refine ⟨h.of_agree (fun q t hq ht j => ?_) rfl rfl (Nat.le_succ _), hother, fun i => ?_,
      h.off f havail, h.unused f havail, h.small f havail, ?_⟩
    · have hne : t ≠ f := fun he => h.off f havail q hq (he ▸ ht)
      rw [hother t hne]
    · simp [State.zeroFrame]
    · rintro (hf | hf | ⟨k, hk, hf⟩)
      · exact (h.apart _ f le_rfl hs).1 hf
      · exact (h.apart _ f le_rfl hs).2 hf
      · have hk' : s.pulls + 1 ≤ k := hk
        have := h.once s.pulls k f le_rfl (by omega) hs hf
        omega

theorem allocatePageTableFrame_spec (h : Paged env used root s) (allowCache : Bool) :
    Allocates env used root s (allocatePageTableFrame env s allowCache) := by
  unfold allocatePageTableFrame
  cases allowCache with
  | false => exact allocateFreshPageTableFrame_spec h
  | true =>
    cases hc : s.cache with
    | nil => exact allocateFreshPageTableFrame_spec h
    | cons f rest =>
      have hf : f ∈ s.cache := by rw [hc]; exact List.mem_cons_self
      have havail : Available env s f := .inl hf
      have hnd := h.nodup
      rw [hc, List.cons_append, List.nodup_cons] at hnd
      have hother : ∀ t, t ≠ f →
          (({ s with cache := rest } : State).zeroFrame f).mem t = s.mem t :=
        fun t ht => Function.update_of_ne ht _ _
      have hagree : ∀ q t, q.length ≤ 3 → s.tableAt root q = some t →
          ∀ j, (({ s with cache := rest } : State).zeroFrame f).mem t j = s.mem t j := by
        intro q t hq ht j
        rw [hother t fun he => h.off f havail q hq (he ▸ ht)]
      have hsub : ∀ a, Available env (({ s with cache := rest } : State).zeroFrame f) a →
          Available env s a := by
        rintro a (ha | ha)
        · exact .inl (by rw [hc]; exact List.mem_cons_of_mem _ ha)
        · exact .inr ha
      have htab : ∀ q, q.length ≤ 3 →
          (({ s with cache := rest } : State).zeroFrame f).tableAt root q = s.tableAt root q :=
        fun q hq => tableAt_of_agree hagree hq
      refine ⟨⟨fun p q t hp hq ht ht' => ?_, fun a ha p hp => ?_,
        fun a ha => h.unused a (hsub a ha), fun a ha => h.small a (hsub a ha), hnd.2,
        fun k a hk ha => ?_, h.once, h.failure⟩, hother,
        fun i => ?_, h.off f havail, h.unused f havail, h.small f havail, ?_⟩
      · exact h.tree p q t hp hq ((htab p hp).symm.trans ht) ((htab q hq).symm.trans ht')
      · rw [htab p hp]
        exact h.off a (hsub a ha) p hp
      · obtain ⟨h1, h2⟩ := h.apart k a hk ha
        exact ⟨fun hm => h1 (by rw [hc]; exact List.mem_cons_of_mem _ hm), h2⟩
      · simp [State.zeroFrame]
      · rintro (ha | ha | ⟨k, hk, ha⟩)
        · exact hnd.1 (List.mem_append_left _ ha)
        · exact hnd.1 (List.mem_append_right _ ha)
        · exact (h.apart k f hk ha).1 hf

/-! ## Walking down -/

/-- A step down the tree along `p ++ [i]`: no translation changes. -/
def StepsDown (env : Env) (used : Nat → Prop) (root : Nat) (s : State) (p : List (Fin 512))
    (i : Fin 512) : Except StStatus Nat × State → Prop
  | (.ok t, s') => (∀ v g, Effect env used root s s' v 0 g) ∧ s'.tableAt root (p ++ [i]) = some t
  | (.error st, s') => checkSuccess st = false ∧ ∀ v g, Effect env used root s s' v 0 g

/-- The table that hangs in a slot. -/
theorem tableAt_slot (ht : s.tableAt root p = some t) (i : Fin 512) :
    s.tableAt root (p ++ [i]) = child p.length (s.mem t i) := by
  unfold State.tableAt
  rw [tableAt_snoc, show Lib.tableAt child s.mem 0 root p = some t from ht, Nat.zero_add]
  rfl

/-- No table hangs in an empty slot. -/
theorem tableAt_empty_slot (ht : s.tableAt root p = some t)
    (hempty : isPresent (s.mem t i) = false) :
    s.tableAt root (p ++ [i]) = none := by
  rw [tableAt_slot ht]
  simp [child, hempty]

section Install

variable {p : List (Fin 512)} {i : Fin 512} {t f : Nat}

/-- Taking a frame leaves the tables alone. -/
theorem Taken.agree (h : Taken env used root s s1 f) (q : List (Fin 512)) (t : Nat)
    (hq : q.length ≤ 3)
    (ht : s.tableAt root q = some t) (j : Fin 512) : s1.mem t j = s.mem t j := by
  rw [h.mem t fun he => h.off q hq (he ▸ ht)]

/-- What the slot for a new table is like before it is written. -/
theorem Taken.slot (h : Taken env used root s s1 f) (ht : s.tableAt root p = some t)
    (hp : p.length < 3) (hempty : isPresent (s.mem t i) = false) :
    Lib.tableAt child s1.mem 0 root p = some t ∧ isPresent (s1.mem t i) = false ∧
      child p.length (s1.mem t i) = none ∧ (∀ d j, child d (s1.mem f j) = none) ∧
      ∀ q, q.length ≤ 3 → Lib.tableAt child s1.mem 0 root q ≠ some f := by
  have htab : ∀ q, q.length ≤ 3 → s1.tableAt root q = s.tableAt root q :=
    fun q hq => tableAt_of_agree h.agree hq
  have hslot : isPresent (s1.mem t i) = false := by
    rw [h.agree p t (by omega) ht]
    exact hempty
  refine ⟨(htab p (by omega)).trans ht, hslot, by simp [child, hslot], fun d j => ?_,
    fun q hq => ?_⟩
  · rw [h.blank j, child_blank]
  · have := htab q hq
    unfold State.tableAt at this
    rw [this]
    exact h.off q hq

theorem child_tableEntry (d : Nat) (hf : f < 2 ^ 40) (user : Bool) :
    child d (tableEntry f user) = some f := by
  simp [child, isPresent_tableEntry hf, isHuge_tableEntry hf, frameOf_tableEntry hf]

/-- The tables once a new one hangs in its slot. -/
theorem Taken.tableAt (h : Taken env used root s s1 f) (user : Bool)
    (ht : s.tableAt root p = some t) (hp : p.length < 3) (hempty : isPresent (s.mem t i) = false)
    (hq : q.length ≤ 3) :
    (s1.write t i (tableEntry f user)).tableAt root q =
      if q = p ++ [i] then some f else s.tableAt root q := by
  obtain ⟨ht1, -, hnone, hblank, hfresh⟩ := h.slot ht hp hempty
  have hinst : (s1.write t i (tableEntry f user)).tableAt root q = _ :=
    tableAt_install h.ok.tree ht1 hp hnone (child_tableEntry p.length h.small user) hblank hfresh hq
  rw [hinst]
  split
  · rfl
  · exact tableAt_of_agree h.agree hq

/-- Hanging a new table into an empty slot. -/
theorem install_stepsDown (user : Bool) (h : Taken env used root s s1 f)
    (ht : s.tableAt root p = some t) (hp : p.length < 3) (hempty : isPresent (s.mem t i) = false) :
    StepsDown env used root s p i (.ok f, s1.write t i (tableEntry f user)) := by
  obtain ⟨ht1, hslot, hnone, hblank, hfresh⟩ := h.slot ht hp hempty
  have hnew := child_tableEntry p.length h.small user
  have hinst : ∀ q, q.length ≤ 3 → (s1.write t i (tableEntry f user)).tableAt root q =
      if q = p ++ [i] then some f else s.tableAt root q :=
        fun q hq => h.tableAt user ht hp hempty hq
  have hok : Paged env used root (s1.write t i (tableEntry f user)) := by
    refine ⟨h.ok.tree.install ht1 hp hnone hnew hblank hfresh, fun a ha q hq => ?_, h.ok.unused,
      h.ok.small, h.ok.nodup, h.ok.apart, h.ok.once, h.ok.failure⟩
    rw [hinst q hq]
    split
    · intro he
      rw [Option.some.injEq] at he
      exact h.gone (he ▸ ha)
    · rw [← show s1.tableAt root q = s.tableAt root q from tableAt_of_agree h.agree hq]
      exact h.ok.off a ha q hq
  refine ⟨fun v g => .none_of hok (fun w => ?_) (fun q a hq ha => ?_) fun q a hq ha => ?_, ?_⟩
  · rw [← look_of_agree h.agree w]
    exact lookup_install h.ok.tree ht1 hp hnone hnew hblank hfresh hslot
      (fun j => by rw [h.blank j]; rfl) (length_path w)
  · rw [hinst q hq] at ha
    split at ha
    · rw [Option.some.injEq] at ha
      exact .inr (ha ▸ h.unused)
    · exact .inl ⟨q, hq, ha⟩
  · -- the slot was empty, so no table hung there
    rw [hinst q hq, if_neg ?_]
    · exact ha
    · rintro rfl
      rw [tableAt_empty_slot ht hempty] at ha
      cases ha
  · rw [hinst _ (by rw [List.length_append, List.length_singleton]; omega), if_pos rfl]

end Install

theorem child_or_US (d : Nat) (e : Word) : child d (e ||| pteUS) = child d e := by
  simp [child]

section

variable (h : Paged env used root s) (user : Bool) (ht : s.tableAt root p = some t)
  (hp : p.length < 3)
include h user ht hp

/-- The user bit of an entry above the page tables does not move a table. -/
theorem markUser_tableAt (hq : q.length ≤ 3) :
    (s.markUser t i user).tableAt root q = s.tableAt root q := by
  cases user with
  | false => rfl
  | true => exact tableAt_relabel h.tree ht hp (child_or_US p.length _) hq

/-- Setting the user bit of an entry that names a table. -/
theorem markUser_stepsDown (hc : child p.length (s.mem t i) = some (frameOf (s.mem t i))) :
    StepsDown env used root s p i
      (.ok (frameOf ((s.markUser t i user).mem t i)), s.markUser t i user) := by
  have hdown := (tableAt_slot ht i).trans hc
  cases user with
  | false => exact ⟨fun v g => .refl h, hdown⟩
  | true =>
    have hsame := child_or_US p.length (s.mem t i)
    have htab : ∀ q, q.length ≤ 3 →
        (s.markUser t i true).tableAt root q = s.tableAt root q := fun q hq =>
      markUser_tableAt h true ht hp hq
    have hok : Paged env used root (s.markUser t i true) := by
      refine ⟨h.tree.relabel ht hp hsame, fun a ha q hq => ?_, h.unused, h.small, h.nodup, h.apart,
        h.once, h.failure⟩
      rw [htab q hq]
      exact h.off a ha q hq
    have hframe : frameOf ((s.markUser t i true).mem t i) = frameOf (s.mem t i) := by
      show frameOf (writeWord s.mem t i (s.mem t i ||| pteUS) t i) = _
      rw [writeWord_same, frameOf_or_US]
    refine ⟨fun v g => .same_tables hok (fun w => ?_) htab, ?_⟩
    · exact lookup_relabel h.tree ht hp (hsame.trans hc) hc (length_path w)
    · rw [hframe, htab _ (by rw [List.length_append, List.length_singleton]; omega)]
      exact hdown

theorem ensureTable_stepsDown : StepsDown env used root s p i (ensureTable env s t i user) := by
  unfold ensureTable
  dsimp only
  cases hpres : isPresent (s.mem t i) with
  | false =>
    have hspec := allocatePageTableFrame_spec h (!user)
    generalize allocatePageTableFrame env s (!user) = res at hspec
    rcases res with ⟨st | f, s1⟩
    · obtain ⟨hst, hok, hmem⟩ := hspec
      refine ⟨hst, fun v g => .same_tables hok (fun w => ?_) fun q _ => ?_⟩
      · unfold State.look
        rw [hmem]
      · unfold State.tableAt
        rw [hmem]
    · exact install_stepsDown user hspec ht hp hpres
  | true =>
    cases hhuge : isHuge (s.mem t i) with
    | true => exact ⟨rfl, fun v g => .refl h⟩
    | false =>
      have hc : child p.length (s.mem t i) = some (frameOf (s.mem t i)) := by
        simp [child, hpres, hhuge]
      exact markUser_stepsDown h user ht hp hc

end

/-! ## The tables of a page, in the base address space or for a local page -/

section

variable (h : Paged env used root s) (vpn : Nat) (hroot : root = env.baseRoot ∨ vpn < globalVpnBase)
  (user : Bool)
include h hroot

/-- A new PDPT is a table like another: for a global page both entries are the same word. -/
theorem ensurePdpt_absent (hpres : isPresent (s.mem root (pml4Index vpn)) = false) :
    ensurePdpt env s root vpn user = ensureTable env s root (pml4Index vpn) user := by
  have hbase : ¬(vpn ≥ globalVpnBase ∧ isPresent (s.mem env.baseRoot (pml4Index vpn)) = true) := by
    rintro ⟨hge, hb⟩
    rcases hroot with rfl | hlt
    · rw [hpres] at hb
      simp at hb
    · omega
  unfold ensurePdpt ensureTable
  dsimp only
  rw [hpres, Bool.not_false, if_pos rfl, if_pos rfl, if_neg hbase]
  have hspec := allocatePageTableFrame_spec h (!user)
  generalize allocatePageTableFrame env s (!user) = res at hspec
  rcases res with ⟨st | f, s1⟩
  · rfl
  · dsimp only
    split
    · obtain rfl : root = env.baseRoot := hroot.resolve_right (by omega)
      have hne : env.baseRoot ≠ f := fun he => hspec.off [] (by simp) (by rw [← he]; rfl)
      have hidem : (s1.write env.baseRoot (pml4Index vpn) (tableEntry f user)).write env.baseRoot
          (pml4Index vpn) (tableEntry f user) =
          s1.write env.baseRoot (pml4Index vpn) (tableEntry f user) := by
        simp only [State.write, State.mk.injEq, and_true]
        funext a j
        simp only [writeWord]
        split <;> rfl
      rw [hspec.mem _ hne, hpres, hidem]
      rfl
    · rfl

/-- The top level. -/
theorem ensurePdpt_stepsDown :
    StepsDown env used root s [] (pml4Index vpn) (ensurePdpt env s root vpn user) := by
  have htop : s.tableAt root [] = some root := rfl
  cases hpres : isPresent (s.mem root (pml4Index vpn)) with
  | false =>
    rw [ensurePdpt_absent h vpn hroot user hpres]
    exact ensureTable_stepsDown h user htop (by simp)
  | true =>
    unfold ensurePdpt
    dsimp only
    rw [hpres, Bool.not_true, if_neg Bool.false_ne_true]
    exact markUser_stepsDown h user htop (by simp) (by simp [child, hpres])

/-- Steps 1 to 3 of `map_memory`: the page table of a page. -/
def ensurePt (env : Env) (s : State) (root vpn : Nat) (user : Bool) : Except StStatus Nat × State :=
  match ensurePdpt env s root vpn user with
  | (.error st, s) => (.error st, s)
  | (.ok pdpt, s) =>
    match ensureTable env s pdpt (pdptIndex vpn) user with
    | (.error st, s) => (.error st, s)
    | (.ok pd, s) => ensureTable env s pd (pdIndex vpn) user

theorem ensurePt_stepsDown :
    StepsDown env used root s [pml4Index vpn, pdptIndex vpn] (pdIndex vpn)
      (ensurePt env s root vpn user) := by
  unfold ensurePt
  have h4 := ensurePdpt_stepsDown h vpn hroot user
  generalize ensurePdpt env s root vpn user = r4 at h4
  obtain ⟨st | pdpt, s4⟩ := r4
  · exact h4
  obtain ⟨he4, ht4⟩ := h4
  dsimp only
  have h3 := ensureTable_stepsDown (i := pdptIndex vpn) (he4 vpn fun _ x => x).ok user ht4 (by simp)
  generalize ensureTable env s4 pdpt (pdptIndex vpn) user = r3 at h3
  obtain ⟨st | pd, s3⟩ := r3
  · exact ⟨h3.1, fun v g => (he4 v g).trans (h3.2 _ g)⟩
  obtain ⟨he3, ht3⟩ := h3
  dsimp only
  have h2 := ensureTable_stepsDown (i := pdIndex vpn) (he3 vpn fun _ x => x).ok user ht3 (by simp)
  generalize ensureTable env s3 pd (pdIndex vpn) user = r2 at h2
  obtain ⟨st | pt, s2⟩ := r2
  · exact ⟨h2.1, fun v g => ((he4 v g).trans (he3 _ g)).trans (h2.2 _ g)⟩
  · exact ⟨fun v g => ((he4 v g).trans (he3 _ g)).trans (h2.1 _ g), h2.2⟩

end

/-- A round of the loop, by its two halves. -/
theorem mapLoop_round (mf : MapFlags) (fuel v pfn : Nat) (hcount : count ≠ 0) (s : State) :
    mapLoop env root mf (fuel + 1) v pfn count s =
      match ensurePt env s root v (hasFlag mf mfUser) with
      | (.error st, s) => (st, v, s)
      | (.ok pt, s) =>
        match mapEntries (pteTemplate env.hasNx mf) (hasFlag mf mfZeroFill) pt (ptIndex v) pfn
            (chunkSize v count) 0 s with
        | (.success, s) =>
          mapLoop env root mf fuel ((v + chunkSize v count) % wordLimit)
            ((pfn + chunkSize v count) % wordLimit) (count - chunkSize v count) s
        | (st, s) => (st, v, s) := by
  rw [mapLoop, if_neg hcount, ensurePt]
  rcases ensurePdpt env s root v (hasFlag mf mfUser) with ⟨st | pdpt, s4⟩
  · rfl
  dsimp only
  rcases ensureTable env s4 pdpt (pdptIndex v) (hasFlag mf mfUser) with ⟨st | pd, s3⟩
  · rfl
  all_goals rcases ensureTable env s3 pd (pdIndex v) (hasFlag mf mfUser) with ⟨st | pt, s2⟩ <;> rfl

/-! ## Entries -/

theorem Canonical.add (hv : Canonical v) (hk : (ptIndex v).val + k < 512) : Canonical (v + k) := by
  simp only [ptIndex, Fin.val_ofNat] at hk
  simp only [Canonical, pml4HoleStart, pml4HoleEnd, virtPageMax] at hv ⊢
  omega

/-- Writing the page-table entry of one page. -/
theorem write_effect (h : Paged env used root s) {w : Word} (hv : Canonical v)
    (hk : (ptIndex v).val + k < 512)
    (hpt : s.tableAt root [pml4Index v, pdptIndex v, pdIndex v] = some pt)
    (hg : g (v + k) (s.look root (v + k)) = if isPresent w then some (3, w) else none) :
    Effect env used root s (s.write pt (Fin.ofNat 512 ((ptIndex v).val + k)) w) (v + k) 1 g := by
  have hlen : ([pml4Index v, pdptIndex v, pdIndex v] : List (Fin 512)).length = 3 := rfl
  have htab : ∀ q, q.length ≤ 3 →
      (s.write pt (Fin.ofNat 512 ((ptIndex v).val + k)) w).tableAt root q = s.tableAt root q :=
    fun q hq => tableAt_leaf h.tree hpt hlen hq
  refine ⟨⟨h.tree.leaf hpt hlen, fun a ha q hq => ?_, h.unused, h.small, h.nodup, h.apart, h.once,
    h.failure⟩, fun x hx => ?_, fun q a hq ha => .inl ⟨q, hq, (htab q hq).symm.trans ha⟩,
    fun q a hq ha => (htab q hq).trans ha⟩
  · rw [htab q hq]
    exact h.off a ha q hq
  · have hlook : (s.write pt (Fin.ofNat 512 ((ptIndex v).val + k)) w).look root x = _ :=
      lookup_leaf h.tree hpt hlen (length_path x)
    rw [hlook, ← path_add hk]
    by_cases hxv : x = v + k
    · subst hxv
      rw [if_pos rfl, if_pos (show v + k ≤ v + k ∧ v + k < v + k + 1 by omega), hg]
    · rw [if_neg fun hp => hxv (path_inj hx (hv.add hk) hp), if_neg (by omega)]
      rfl

/-- Clearing a frame that holds no table. -/
theorem zeroFrame_effect (h : Paged env used root s)
    (hf : ∀ p, p.length ≤ 3 → s.tableAt root p ≠ some f) :
    Effect env used root s (s.zeroFrame f) vpn 0 g := by
  have hagree : ∀ q t, q.length ≤ 3 → s.tableAt root q = some t →
      ∀ j, (s.zeroFrame f).mem t j = s.mem t j := by
    intro q t hq ht j
    have hne : t ≠ f := fun he => hf q hq (he ▸ ht)
    show Function.update s.mem f (fun _ => 0) t j = s.mem t j
    rw [Function.update_of_ne hne]
  exact .same_tables (h.of_agree hagree rfl rfl le_rfl) (look_of_agree hagree)
    fun q hq => tableAt_of_agree hagree hq

/-- A frame that may be cleared when it is mapped: in use, and no table. -/
def Clearable (used : Nat → Prop) (root : Nat) (s : State) (f : Nat) : Prop :=
  used f ∧ ∀ p, p.length ≤ 3 → s.tableAt root p ≠ some f

theorem Effect.clearable (h : Effect env used root s s1 v n g) (hf : Clearable used root s f) :
    Clearable used root s1 f := ⟨hf.1, h.notTable hf.1 hf.2⟩

/-- A page mapped to frame `pfn + (w - v)`. -/
def mapsTo (template : Word) (pfn v w : Nat) (_ : Option (Nat × Word)) : Option (Nat × Word) :=
  some (3, withFrame template (pfn + (w - v)))

theorem mapEntries_effect (template : Word) (zeroFill : Bool) (pfn : Nat)
    (htemp : ∀ f < 2 ^ 40, isPresent (withFrame template f) = true) (hv : Canonical v) :
    ∀ {n i : Nat} {s : State}, Paged env used root s →
      s.tableAt root [pml4Index v, pdptIndex v, pdIndex v] = some pt →
      (ptIndex v).val + i + n ≤ 512 → pfn + i + n ≤ 2 ^ 40 →
      (zeroFill = true → ∀ k, i ≤ k → k < i + n → Clearable used root s (pfn + k)) →
      ∃ st s' j, mapEntries template zeroFill pt (ptIndex v) pfn n i s = (st, s') ∧
        Effect env used root s s' (v + i) j (mapsTo template pfn v) ∧
        (st = .success ∧ j = n ∨
          st = .duplicateEntry ∧ j < n ∧
            (j = 0 → isPresent (s.mem pt (Fin.ofNat 512 ((ptIndex v).val + i))) = true)) := by
  intro n
  induction n with
  | zero =>
    intro i s h _ _ _ _
    exact ⟨_, _, 0, rfl, .refl h, .inl ⟨rfl, rfl⟩⟩
  | succ n ih =>
    intro i s h hpt hidx hpfn hclear
    rw [mapEntries]
    dsimp only
    split
    · rename_i hpres
      exact ⟨_, _, 0, rfl, .refl h, .inr ⟨rfl, by omega, fun _ => hpres⟩⟩
    · -- one entry, then perhaps the frame, then the rest of the chunk
      have hone : Effect env used root s
          (s.write pt (Fin.ofNat 512 ((ptIndex v).val + i)) (withFrame template (pfn + i)))
          (v + i) 1 (mapsTo template pfn v) := by
        refine write_effect h hv (by omega) hpt ?_
        rw [htemp _ (by omega), mapsTo, show pfn + (v + i - v) = pfn + i by omega]
        rfl
      have hframe : frameOf ((s.write pt (Fin.ofNat 512 ((ptIndex v).val + i))
          (withFrame template (pfn + i))).mem pt (Fin.ofNat 512 ((ptIndex v).val + i))) =
          pfn + i := by
        show frameOf (writeWord _ _ _ _ _ _) = _
        rw [writeWord_same, frameOf_withFrame _ (by omega)]
      rw [hframe]
      obtain ⟨s2, hs2, hstep⟩ : ∃ s2, s2 = (if zeroFill = true then
          (s.write pt (Fin.ofNat 512 ((ptIndex v).val + i))
            (withFrame template (pfn + i))).zeroFrame (pfn + i)
          else s.write pt (Fin.ofNat 512 ((ptIndex v).val + i)) (withFrame template (pfn + i))) ∧
          Effect env used root s s2 (v + i) 1 (mapsTo template pfn v) := by
        refine ⟨_, rfl, ?_⟩
        split
        · rename_i hz
          have hc := hone.clearable (hclear hz i le_rfl (by omega))
          exact hone.trans (zeroFrame_effect hone.ok hc.2)
        · exact hone
      rw [← hs2]
      obtain ⟨st, s', j, heq, heff, hst⟩ := ih (i := i + 1) hstep.ok
        (hstep.keeps _ pt (by simp) hpt) (by omega) (by omega)
        fun hz k hk hk' => hstep.clearable (hclear hz k (by omega) (by omega))
      refine ⟨st, s', 1 + j, heq, hstep.trans heff, ?_⟩
      rcases hst with ⟨h1, h2⟩ | ⟨h1, h2, -⟩
      · exact .inl ⟨h1, by omega⟩
      · exact .inr ⟨h1, by omega, by omega⟩

/-! ## The loop -/

theorem chunkSize_spec (vpn : Nat) (hcount : 0 < count) :
    0 < chunkSize vpn count ∧ chunkSize vpn count ≤ count ∧
      (ptIndex vpn).val + chunkSize vpn count ≤ 512 := by
  unfold chunkSize
  split <;> omega

theorem ValidRange.drop (h : ValidRange v count) (hle : chunk ≤ count) :
    ValidRange (v + chunk) (count - chunk) := by
  simp only [ValidRange] at *
  omega

theorem ValidRange.mod (h : ValidRange v count) (hle : chunk ≤ count) :
    (v + chunk) % wordLimit = v + chunk := by
  simp only [ValidRange, pml4HoleStart, virtPageMax, wordLimit] at *
  omega

/-- **How far a mapping call gets.** Some number `j` of pages from `vpn` on are mapped
as asked, all of them on success, and no other page is mapped differently. -/
theorem mapLoop_effect (mf : MapFlags) {fuel v pfn count : Nat} {s : State} (hfuel : count ≤ fuel)
    (hrange : ValidRange v count) (hpfn : pfn + count ≤ 2 ^ 40)
    (hroot : (root = env.baseRoot ∨ v + count ≤ globalVpnBase)) (h : Paged env used root s)
    (hclear : (hasFlag mf mfZeroFill = true → ∀ k < count, Clearable used root s (pfn + k))) :
    ∃ st v' s' j, mapLoop env root mf fuel v pfn count s = (st, v', s') ∧
      Effect env used root s s' v j (mapsTo (pteTemplate env.hasNx mf) pfn v) ∧
      (st = .success ∧ j = count ∧ v' = v + count ∨ checkSuccess st = false ∧ j < count) := by
  induction fuel generalizing v pfn count s with
  | zero =>
    obtain rfl : count = 0 := by omega
    exact ⟨_, _, _, 0, rfl, .refl h, .inl ⟨rfl, rfl, rfl⟩⟩
  | succ fuel ih =>
    by_cases hcount : count = 0
    · rw [mapLoop, if_pos hcount]
      exact ⟨_, _, _, 0, rfl, .refl h, .inl ⟨rfl, hcount.symm, by omega⟩⟩
    · rw [mapLoop_round mf fuel v pfn hcount]
      have hv : Canonical v := hrange.canonical le_rfl (by omega)
      obtain ⟨hpos, hle, hidx⟩ := chunkSize_spec v (Nat.pos_of_ne_zero hcount)
      -- down to the page table
      have hdown := ensurePt_stepsDown h v (hroot.imp_right (by omega)) (hasFlag mf mfUser)
      generalize ensurePt env s root v (hasFlag mf mfUser) = r at hdown
      obtain ⟨st | pt, s2⟩ := r
      · exact ⟨_, _, _, 0, rfl, hdown.2 v _, .inr ⟨hdown.1, by omega⟩⟩
      obtain ⟨hdown, ht2⟩ := hdown
      -- the entries of this table
      obtain ⟨st, s1, j, heq, heff, hst⟩ := mapEntries_effect
        (pteTemplate env.hasNx mf) (hasFlag mf mfZeroFill) pfn
        (fun f hf => isPresent_leaf env.hasNx mf hf) hv (i := 0) (n := chunkSize v count)
        (hdown v fun _ x => x).ok ht2 (by omega) (by omega)
        fun hz k _ hk => (hdown v fun _ x => x).clearable (hclear hz k (by omega))
      have hchunk : Effect env used root s s1 v (0 + j)
          (mapsTo (pteTemplate env.hasNx mf) pfn v) := (hdown v _).trans heff
      rw [Nat.zero_add] at hchunk
      dsimp only
      rw [heq]
      rcases hst with ⟨rfl, rfl⟩ | ⟨rfl, hj, -⟩
      · -- the remaining pages
        have hpmod : (pfn + chunkSize v count) % wordLimit = pfn + chunkSize v count :=
          Nat.mod_eq_of_lt (by simp only [wordLimit]; omega)
        rw [hrange.mod hle, hpmod]
        obtain ⟨st, v', s', j, heq', heff', hst⟩ := @ih (v + chunkSize v count)
          (pfn + chunkSize v count) (count - chunkSize v count) s1 (by omega)
          (hrange.drop hle) (by omega) (hroot.imp_right (by omega)) hchunk.ok
          fun hz k hk => by
            rw [Nat.add_assoc]
            exact hchunk.clearable (hclear hz _ (by omega))
        refine ⟨st, v', s', chunkSize v count + j, heq', hchunk.trans (heff'.congr ?_), ?_⟩
        · intro w x hw _
          rw [mapsTo, mapsTo, show pfn + chunkSize v count + (w - (v + chunkSize v count)) =
            pfn + (w - v) by omega]
        · rcases hst with ⟨h1, h2, h3⟩ | ⟨h1, h2⟩
          · exact .inl ⟨h1, by omega, by omega⟩
          · exact .inr ⟨h1, by omega⟩
      · exact ⟨_, _, _, j, rfl, hchunk, .inr ⟨rfl, by omega⟩⟩

theorem lockIf_mem (s : State) (v : Nat) : (s.lockIf v).mem = s.mem := by
  unfold State.lockIf
  split <;> rfl

theorem Clearable.lockIf (h : Clearable used root s f) (v : Nat) :
    Clearable used root (s.lockIf v) f := by
  unfold State.lockIf
  split <;> exact h

theorem Paged.lockIf (h : Paged env used root s) (v : Nat) : Paged env used root (s.lockIf v) := by
  unfold State.lockIf
  split
  · exact h.preempt _
  · exact h

theorem Paged.unlockIf (h : Paged env used root s) (v : Nat) :
    Paged env used root (s.unlockIf v) := by
  unfold State.unlockIf
  split
  · exact h.preempt _
  · exact h

/-- Taking and dropping the preemption lock around a call. -/
theorem Effect.locked {v' w : Nat} (h : Effect env used root (s.lockIf v) s1 w n g) :
    Effect env used root s (s1.unlockIf v') w n g := by
  have h0 : (s.lockIf v).mem = s.mem := lockIf_mem s v
  have h1 : (s1.unlockIf v').mem = s1.mem := by
    unfold State.unlockIf
    split <;> rfl
  refine ⟨h.ok.unlockIf v', fun x hx => ?_, fun p f hp hf => ?_, fun p f hp hf => ?_⟩
  · have := h.look x hx
    unfold State.look at this ⊢
    rw [h1, this, h0]
  · have := h.tables p f hp
    unfold State.tableAt at this hf ⊢
    rw [h1] at hf
    rw [h0] at this
    exact this hf
  · have := h.keeps p f hp
    unfold State.tableAt at this hf ⊢
    rw [h0] at this
    rw [h1]
    exact this hf

/-- The argument checks of a call all end it in the same way. -/
theorem ite_checks {α : Type} {a b c : Prop} [Decidable a] [Decidable b] [Decidable c] (x y : α) :
    (if a then x else if b then x else if c then x else y) = if a ∨ b ∨ c then x else y := by
  by_cases ha : a <;> by_cases hb : b <;> simp [ha, hb]

/-- A valid range passes the argument checks. -/
theorem ValidRange.checks (h : ValidRange v count) (hcount : 0 < count) :
    ¬(v > virtPageMax ∨ (pml4HoleStart ≤ v ∧ v ≤ pml4HoleEnd) ∨ endsInHole v count) := by
  have hmod := h.mod le_rfl
  have hpred : (v + count + wordLimit - 1) % wordLimit = v + count - 1 := by
    rw [show v + count + wordLimit - 1 = v + count - 1 + wordLimit by
      simp only [wordLimit]; omega, Nat.add_mod_right]
    simp only [ValidRange, pml4HoleStart, virtPageMax, wordLimit] at *
    omega
  simp only [endsInHole, hmod, hpred]
  simp only [ValidRange, pml4HoleStart, pml4HoleEnd, virtPageMax] at *
  omega

/-- **Mapping.** A call on a valid range either fails having mapped fewer pages than
asked, or maps exactly the pages asked for. -/
theorem mapMemory_effect (h : Paged env used root s) {pfn : Nat} (mf : MapFlags)
    (hrange : ValidRange v count) (hpfn : pfn + count ≤ 2 ^ 40)
    (hroot : root = env.baseRoot ∨ v + count ≤ globalVpnBase)
    (hclear : hasFlag mf mfZeroFill = true → ∀ k < count, Clearable used root s (pfn + k)) :
    ∃ st s' j, mapMemory env s root pfn v count mf = (st, s') ∧
      Effect env used root s s' v j (mapsTo (pteTemplate env.hasNx mf) pfn v) ∧
      (st = .success ∧ j = count ∨ checkSuccess st = false ∧ j ≤ count) := by
  obtain ⟨st, v', s', j, heq, heff, hst⟩ := mapLoop_effect mf le_rfl hrange
    hpfn hroot (h.lockIf v) fun hz k hk => (hclear hz k hk).lockIf v
  rw [mapMemory, ite_checks]
  split
  · exact ⟨_, _, 0, rfl, .refl h, .inr ⟨rfl, by omega⟩⟩
  · rw [heq]
    refine ⟨_, _, j, rfl, heff.locked, ?_⟩
    rcases hst with ⟨h1, h2, -⟩ | ⟨h1, h2⟩
    · exact .inl ⟨h1, h2⟩
    · exact .inr ⟨h1, h2.le⟩

end FoliOS.Strata.Paging
