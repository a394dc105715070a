import FoliOS.Strata.Paging.Failure

/-!
# Strata — which calls change the page map as they should

`Call.Covered.refines` gives a condition under which a successful call does what it should. Here is
the other direction. The tables know a page by 36 bits only: a mapping call outside the two halves
maps a page that is not its own (`mapMemory_outside`), and an unmapping call that runs past the last
page takes out a page of the lower half (`unmapMemory_outside`). No such condition is necessary for
a remapping call, which changes nothing where the flags are there already, and for an unmapping call
under a huge page, whose effect hangs on the data in that page.
-/

namespace FoliOS.Strata.Paging

open Lib

variable {env : Env} {used : Nat → Prop} {root vpn count : Nat} {s s' : State}

/-! ## Unmapping past the last page -/

/-- The walk to a page no huge page is in the way to. -/
theorem State.Walks.look_eq {v : Nat} (h : s.Walks root v)
    (hsmall : ∀ d e, s.look root v = some (d, e) → d = 3) :
    s.look root v = (if isPresent (s.mem (s.ptOf root v) (ptIndex v)) then
      some (3, s.mem (s.ptOf root v) (ptIndex v)) else none) ∧
    isHuge (s.mem (s.pdptOf root v) (pdptIndex v)) = false ∧
    isHuge (s.mem (s.pdOf root v) (pdIndex v)) = false := by
  have hpdpt : s.tableAt root [pml4Index v] = some (s.pdptOf root v) := by
    simp [State.tableAt, Lib.tableAt, child_zero, h.pml4e, State.pdptOf]
  have h3 : isHuge (s.mem (s.pdptOf root v) (pdptIndex v)) = false := by
    by_contra hhuge
    have hlook := look_of_huge (v := v) (q := [pdIndex v, ptIndex v]) hpdpt rfl (by simp) h.pdpte
      (Bool.eq_true_of_not_eq_false hhuge)
    exact absurd (hsmall _ _ hlook) (by simp)
  have hpd : s.tableAt root [pml4Index v, pdptIndex v] = some (s.pdOf root v) := by
    have := tableAt_slot hpdpt (pdptIndex v)
    rwa [child, h.pdpte, h3] at this
  have h2 : isHuge (s.mem (s.pdOf root v) (pdIndex v)) = false := by
    by_contra hhuge
    have hlook := look_of_huge (v := v) (q := [ptIndex v]) hpd rfl (by simp) h.pde
      (Bool.eq_true_of_not_eq_false hhuge)
    exact absurd (hsmall _ _ hlook) (by simp)
  have hpt : s.tableAt root [pml4Index v, pdptIndex v, pdIndex v] = some (s.ptOf root v) := by
    have := tableAt_slot hpd (pdIndex v)
    rwa [child, h.pde, h2] at this
  refine ⟨?_, h3, h2⟩
  have hlook := look_of_pt (v := v) (k := 0) (by omega) hpt
  simpa using hlook

/-- An entry that is not present stops the walk. -/
theorem look_of_blank {t : Nat} {p q : List (Fin 512)} {i : Fin 512} {v : Nat}
    (ht : s.tableAt root p = some t) (hpath : path v = p ++ i :: q)
    (hpres : isPresent (s.mem t i) = false) : s.look root v = none := by
  have hnone : child (0 + p.length) (s.mem t i) = none := by simp [child, hpres]
  unfold State.look
  rw [hpath, lookup_stop ht hnone, hpres, if_neg Bool.false_ne_true]

/-- A page that was cleared is mapped no more. -/
theorem Cleared.look_none {s₀ : State} {k j : Nat} (h : Cleared s₀ root vpn k s) (hj : j < k)
    (hsmall : ∀ d e, s₀.look root (vpn + j) = some (d, e) → d = 3) :
    s₀.look root (vpn + j) ≠ none ∧ s.look root (vpn + j) = none := by
  obtain ⟨hwalks, hpres⟩ := h.full j hj
  obtain ⟨hlook, h3, h2⟩ := hwalks.look_eq hsmall
  have hsite := h.sites j hj
  dsimp only [State.site] at hpres hsite
  refine ⟨by rw [hlook, if_pos hpres]; simp, ?_⟩
  generalize vpn + j = v at *
  -- the entries on the way are as they were, or the walk ends there
  have hstop : ∀ {t p i q}, s.tableAt root p = some t → path v = p ++ i :: q →
      (isPresent (s.mem t i) = true → s.look root v = none) → s.look root v = none := by
    intro t p i q ht hpath hnext
    by_cases hp : isPresent (s.mem t i) = true
    · exact hnext hp
    · exact look_of_blank ht hpath (Bool.eq_false_of_not_eq_true hp)
  refine hstop (p := []) rfl rfl fun hp4 => ?_
  have hpdpt : s.tableAt root [pml4Index v] = some (s₀.pdptOf root v) := by
    simp [State.tableAt, Lib.tableAt, child_zero, State.pdptOf, h.eq_of_present hp4, hwalks.pml4e]
  refine hstop hpdpt rfl fun hp3 => ?_
  have hpd : s.tableAt root [pml4Index v, pdptIndex v] = some (s₀.pdOf root v) := by
    have := tableAt_slot hpdpt (pdptIndex v)
    rwa [child, hp3, h.eq_of_present hp3, h3] at this
  refine hstop hpd rfl fun hp2 => ?_
  have hpt : s.tableAt root [pml4Index v, pdptIndex v, pdIndex v] = some (s₀.ptOf root v) := by
    have := tableAt_slot hpd (pdIndex v)
    rwa [child, hp2, h.eq_of_present hp2, h2] at this
  exact look_of_blank hpt rfl (by rw [hsite, isPresent_zero])

theorem flushUnless_look (b : Bool) (w : Nat) : (s.flushUnless b).look root w = s.look root w := by
  unfold State.flushUnless
  split <;> rfl

theorem lockIf_look (v w : Nat) : (s.lockIf v).look root w = s.look root w := by
  unfold State.lockIf
  split <;> rfl

/-- **Unmapping past the last page** takes a page of the other half out of the map. -/
theorem unmapMemory_outside (hvpn : vpn < wordLimit) (hsmall : OnlySmall root s vpn count)
    (hchecks : ¬ (vpn > virtPageMax ∨ (pml4HoleStart ≤ vpn ∧ vpn ≤ pml4HoleEnd) ∨
      endsInHole vpn count))
    (hrange : ¬ ValidRange vpn count) (hrun : unmapMemory env s root vpn count = some s') :
    0 < vpn ∧ s.look root 0 ≠ none ∧ s'.look root 0 = none := by
  rw [unmapMemory, ite_checks, if_neg hchecks] at hrun
  obtain ⟨hmax, hhole, hend⟩ : _ ∧ _ ∧ _ := by simpa only [not_or] using hchecks
  cases hloop : unmapLoop root count vpn count (s.lockIf vpn) with
  | none => rw [hloop] at hrun; cases hrun
  | some r =>
    obtain ⟨v', s1⟩ := r
    rw [hloop] at hrun
    obtain ⟨hcleared, -⟩ := unmapLoop_cleared (s.lockIf vpn) vpn count (k := 0) le_rfl
      (Nat.mod_eq_of_lt hvpn).symm .refl hloop
    rw [Nat.zero_add] at hcleared
    -- the range runs from the upper half past the last page
    have hcount := hcleared.count_le
    have hlast : 0 < vpn ∧ vpn ≤ 2 ^ 52 ∧ 2 ^ 52 < vpn + count := by
      unfold ValidRange endsInHole virtPageMax pml4HoleEnd pml4HoleStart wordLimit at *
      omega
    have hlook : ∀ t : State, t.look root 0 = t.look root (vpn + (2 ^ 52 - vpn)) := fun t => by
      rw [Nat.add_sub_cancel' hlast.2.1]
      exact look_congr (by decide)
    obtain ⟨hbefore, hafter⟩ := hcleared.look_none (j := 2 ^ 52 - vpn) (by omega) (by
      rw [lockIf_look]
      exact fun d e => hsmall _ (by omega) (by omega) d e)
    rw [← Option.some.inj hrun, unlockIf_look, flushUnless_look, hlook s, hlook s1]
    rw [lockIf_look] at hbefore
    exact ⟨hlast.1, hbefore, hafter⟩

/-! ## Mapping outside the two halves -/

/-- **A mapping call whose range wraps around** maps a page outside its range. -/
theorem mapMemory_outside (h : Paged env used root s) (pfn vpn count : UInt64) (mf : MapFlags)
    (hp : (Call.map pfn vpn count mf).Proper env used root s)
    (hrej : ¬ (Call.map pfn vpn count mf).Rejected)
    (hrange : ¬ ValidRange vpn.toNat count.toNat)
    (hst : checkSuccess (mapMemory env s root pfn.toNat vpn.toNat count.toNat mf).1 = true) :
    ∃ c, Canonical c ∧ c < vpn.toNat ∧ s.look root c = none ∧
      (mapMemory env s root pfn.toNat vpn.toNat count.toNat mf).2.look root c ≠ none := by
  obtain ⟨hpfn, hroot, hclear⟩ := hp
  have hvpn := vpn.toNat_lt
  obtain ⟨hmax, hhole, hend⟩ : _ ∧ _ ∧ _ := by
    simpa only [Call.Rejected, not_or] using hrej
  have hfar : virtPageMax < vpn.toNat ∧ 0 < count.toNat := by
    unfold ValidRange endsInHole virtPageMax pml4HoleEnd pml4HoleStart wordLimit at *
    omega
  obtain ⟨n, hn⟩ := Nat.exists_eq_add_of_lt hfar.2
  rw [Nat.zero_add] at hn
  obtain ⟨hfails, hmaps⟩ := mapLoop_first mf n hfar.2.ne' hpfn hroot (h.lockIf vpn.toNat)
    fun hz k hk => (hclear hz k hk).lockIf vpn.toNat
  rw [mapMemory, ite_checks, if_neg (show ¬ (_ ∨ _ ∨ _) from hrej)] at hst ⊢
  rw [← hn, lockIf_firstPageFails] at hfails hmaps
  have hno : ¬ FirstPageFails env s root vpn.toNat mf := fun hf => by
    rw [show checkSuccess _ = false from (hfails hf).1] at hst
    cases hst
  obtain ⟨c, hc, hpath⟩ := exists_canonical vpn.toNat
  refine ⟨c, hc, ?_, ?_, ?_⟩
  · unfold Canonical at hc
    unfold pml4HoleStart virtPageMax at *
    omega
  · rw [look_congr hpath]
    by_contra hmapped
    exact hno (.inl hmapped)
  · rw [unlockIf_look, look_congr hpath]
    exact hmaps hno

/-! ## The calls -/

/-- The call may do what it should by chance: it remaps pages, which can have the new flags already,
or unmaps one under a huge page and rewrites the data in there. -/
def Call.Open (root : Nat) (s : State) : Call → Prop
  | .map _ _ _ _ => False
  | .remap _ _ _ => True
  | .unmap vpn count => ¬ OnlySmall root s vpn.toNat count.toNat

/-- A translation that appears or goes outside the range. -/
theorem effect_outside {c : Call} {w : Nat} (hw : Canonical w) (hlt : w < c.vpn)
    (heff : ∀ w, pageMap env s' root w = c.effect env.hasNx (pageMap env s root) w) :
    s'.look root w = none ↔ s.look root w = none := by
  have := heff w
  rw [Call.effect, if_neg (by omega), pageMap_eq env s' root hw, pageMap_eq env s root hw] at this
  rw [← Option.map_eq_none_iff (f := decode env w), this, Option.map_eq_none_iff]

/-- **Refinement.** A successful call changes the page map as it should if it is covered, or was
turned away with nothing to do; and only then, unless chance comes in. -/
theorem call_refines (c : Call) (h : Paged env used root s) (hp : c.Proper env used root s)
    (hrun : c.run env root s = some s') :
    (c.Rejected ∧ c.Idle env root s ∨ c.Covered root s → Paged env used root s' ∧
      ∀ w, pageMap env s' root w = c.effect env.hasNx (pageMap env s root) w) ∧
    ((∀ w, pageMap env s' root w = c.effect env.hasNx (pageMap env s root) w) →
      c.Rejected ∧ c.Idle env root s ∨ c.Covered root s ∨ ¬ c.Rejected ∧ c.Open root s) := by
  constructor
  · rintro (⟨hrej, hidle⟩ | hc)
    · refine ⟨?_, (hrej.refines_iff hrun).mpr hidle⟩
      rwa [hrej.same (Call.after_of_run hrun)]
    · exact Call.Covered.refines c h hp hc hrun
  · intro heff
    by_cases hrej : c.Rejected
    · exact .inl ⟨hrej, (hrej.refines_iff hrun).mp heff⟩
    refine .inr (or_iff_not_imp_right.mpr fun hopen => ?_)
    cases c with
    | map pfn vpn count mf =>
      refine ⟨by_contra fun hrange => ?_, trivial⟩
      obtain ⟨hst, rfl⟩ := checkSuccess_of_some hrun
      obtain ⟨c, hc, hlt, hbefore, hafter⟩ :=
        mapMemory_outside h pfn vpn count mf hp hrej hrange hst
      exact hafter ((effect_outside (c := .map pfn vpn count mf) hc hlt heff).mpr hbefore)
    | remap vpn count mf => exact absurd ⟨hrej, trivial⟩ hopen
    | unmap vpn count =>
      have hsmall : OnlySmall root s vpn.toNat count.toNat := by
        by_contra hhuge
        exact hopen ⟨hrej, hhuge⟩
      refine ⟨by_contra fun hrange => ?_, hsmall⟩
      obtain ⟨hlt, hbefore, hafter⟩ := unmapMemory_outside vpn.toNat_lt hsmall hrej hrange hrun
      exact hbefore ((effect_outside (c := .unmap vpn count) (.inl (by decide)) hlt heff).mp hafter)

theorem call_refines_first_page :
    ∃ s', (Call.map 7 0x200 1 mfWritable).run bareEnv 1 emptyState = some s' ∧
      Paged bareEnv (fun _ => False) 1 s' ∧
      ∀ w, pageMap bareEnv s' 1 w =
        (Call.map 7 0x200 1 mfWritable).effect true (pageMap bareEnv emptyState 1) w := by
  have hrun : ((Call.map 7 0x200 1 mfWritable).run bareEnv 1 emptyState).isSome = true := by
    decide +kernel
  obtain ⟨s', hs'⟩ := Option.isSome_iff_exists.mp hrun
  exact ⟨s', hs', (call_refines (.map 7 0x200 1 mfWritable) emptyState_paged
    ⟨by decide, .inl rfl, fun h => absurd h (by decide)⟩ hs').1 (.inr ⟨.inl (by decide), trivial⟩)⟩

end FoliOS.Strata.Paging
