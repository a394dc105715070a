import FoliOS.Strata.Paging.Map

/-!
# Strata — what `remap_memory` and `unmap_memory` do to the page map

Neither function makes tables. Both descend without looking for huge pages at
every level, so their effect is stated for ranges where the levels they skip
hold none.
-/

namespace FoliOS.Strata.Paging

open Lib

variable {v pt : Nat}

variable {env : Env} {used : Nat → Prop} {root n : Nat} {s s1 : State}
  {g : Nat → Option (Nat × Word) → Option (Nat × Word)}

/-! ## Descending without making tables -/

/-- An entry that names no table is where the walk of its pages ends. -/
theorem look_of_huge {t : Nat} {p q : List (Fin 512)} {i : Fin 512} (ht : s.tableAt root p = some t)
    (hpath : path v = p ++ i :: q) (hpos : p.length ≠ 0) (hpres : isPresent (s.mem t i) = true)
    (hhuge : isHuge (s.mem t i) = true) : s.look root v = some (p.length, s.mem t i) := by
  have hnone : child (0 + p.length) (s.mem t i) = none := by
    simp [child, hpos, hhuge]
  unfold State.look
  rw [hpath, lookup_stop ht hnone, if_pos hpres, Nat.zero_add]

/-- The entry of a page in its page table. -/
theorem look_of_pt {k : Nat} (hk : (ptIndex v).val + k < 512)
    (hpt : s.tableAt root [pml4Index v, pdptIndex v, pdIndex v] = some pt) :
    s.look root (v + k) =
      if isPresent (s.mem pt (Fin.ofNat 512 ((ptIndex v).val + k))) then
        some (3, s.mem pt (Fin.ofNat 512 ((ptIndex v).val + k))) else none := by
  unfold State.look
  rw [path_add hk]
  exact lookup_snoc hpt

/-! ## Remapping -/

/-- A page keeps its frame and takes the flags of `template`. -/
def remapsTo (template : Word) (_ : Nat) (x : Option (Nat × Word)) : Option (Nat × Word) :=
  x.map fun y => (y.1, withFrame template (frameOf y.2))

theorem remapEntries_effect (template : Word)
    (htemp : ∀ f < 2 ^ 40, isPresent (withFrame template f) = true) (hv : Canonical v) :
    ∀ {n i : Nat} {s : State}, Paged env used root s →
      s.tableAt root [pml4Index v, pdptIndex v, pdIndex v] = some pt →
      (ptIndex v).val + i + n ≤ 512 →
      ∃ st s' j, remapEntries template pt (ptIndex v) n i s = (st, s') ∧
        Effect env used root s s' (v + i) j (remapsTo template) ∧
        (st = .success ∧ j = n ∨ st = .pageNotPresent ∧ j < n) := by
  intro n
  induction n with
  | zero =>
    intro i s h _ _
    exact ⟨_, _, 0, rfl, .refl h, .inl ⟨rfl, rfl⟩⟩
  | succ n ih =>
    intro i s h hpt hidx
    have hlook := look_of_pt (k := i) (by omega) hpt
    -- what the step does, whether the entry is rewritten or skipped
    have hrest : ∀ s1, Effect env used root s s1 (v + i) 1 (remapsTo template) →
        ∃ st s' j, remapEntries template pt (ptIndex v) n (i + 1) s1 = (st, s') ∧
          Effect env used root s s' (v + i) j (remapsTo template) ∧
          (st = .success ∧ j = n + 1 ∨ st = .pageNotPresent ∧ j < n + 1) := by
      intro s1 hstep
      obtain ⟨st, s', j, heq, heff, hst⟩ := ih (i := i + 1) hstep.ok
        (hstep.keeps _ pt (by simp) hpt) (by omega)
      refine ⟨st, s', 1 + j, heq, hstep.trans heff, ?_⟩
      rcases hst with ⟨h1, h2⟩ | ⟨h1, h2⟩
      · exact .inl ⟨h1, by omega⟩
      · exact .inr ⟨h1, by omega⟩
    rw [remapEntries]
    cases hpres : isPresent (s.mem pt (Fin.ofNat 512 ((ptIndex v).val + i))) with
    | false =>
      rw [hpres] at hlook
      simp only [Bool.not_false, if_true]
      split
      · refine hrest s ⟨h, fun w hw => ?_, fun p f hp hf => .inl ⟨p, hp, hf⟩,
          fun _ _ _ hf => hf⟩
        split
        · obtain rfl : w = v + i := by omega
          rw [hlook]
          rfl
        · rfl
      · exact ⟨_, _, 0, rfl, .refl h, .inr ⟨rfl, by omega⟩⟩
    | true =>
      rw [hpres] at hlook
      refine hrest _ (write_effect h hv (by omega) hpt ?_)
      rw [hlook, htemp _ (frameOf_lt _)]
      rfl

/-- No page of the range lies under a 1 GiB entry. -/
def NoHugePdpt (root : Nat) (s : State) (v count : Nat) : Prop :=
  ∀ w, v ≤ w → w < v + count → ∀ e, s.look root w ≠ some (1, e)

/-- Every page of the range that is mapped is mapped by a page-table entry. -/
def OnlySmall (root : Nat) (s : State) (v count : Nat) : Prop :=
  ∀ w, v ≤ w → w < v + count → ∀ d e, s.look root w = some (d, e) → d = 3

theorem remapLoop_effect (mf : MapFlags) {fuel v count : Nat} {s : State} (hfuel : count ≤ fuel)
    (hrange : ValidRange v count) (h : Paged env used root s) (hhuge : NoHugePdpt root s v count) :
    ∃ st v' s' j, remapLoop env root mf fuel v count s = (st, v', s') ∧
      Effect env used root s s' v j (remapsTo (pteTemplate env.hasNx mf)) ∧
      (st = .success ∧ j = count ∨ checkSuccess st = false ∧ j < count) := by
  induction fuel generalizing v count s with
  | zero =>
    obtain rfl : count = 0 := by omega
    exact ⟨_, _, _, 0, rfl, .refl h, .inl ⟨rfl, rfl⟩⟩
  | succ fuel ih =>
    rw [remapLoop]
    by_cases hcount : count = 0
    · rw [if_pos hcount]
      exact ⟨_, _, _, 0, rfl, .refl h, .inl ⟨rfl, hcount.symm⟩⟩
    · rw [if_neg hcount]
      have hv : Canonical v := hrange.canonical le_rfl (by omega)
      obtain ⟨hpos, hle, hidx⟩ := chunkSize_spec v (Nat.pos_of_ne_zero hcount)
      cases hp4 : isPresent (s.mem root (pml4Index v)) with
      | false => exact ⟨_, _, _, 0, rfl, .refl h, .inr ⟨rfl, by omega⟩⟩
      | true =>
        simp only [Bool.not_true, Bool.false_eq_true, if_false]
        obtain ⟨he4, ht4⟩ := markUser_stepsDown (i := pml4Index v) h (hasFlag mf mfUser)
          (show s.tableAt root [] = some root from rfl) (by simp) (by simp [child, hp4])
        generalize s.markUser root (pml4Index v) (hasFlag mf mfUser) = s4 at he4 ht4
        generalize frameOf (s4.mem root (pml4Index v)) = pdpt at ht4
        cases hp3 : isPresent (s4.mem pdpt (pdptIndex v)) with
        | false => exact ⟨_, _, _, 0, rfl, he4 _ _, .inr ⟨rfl, by omega⟩⟩
        | true =>
          -- the level without a huge-page check
          have hn3 : isHuge (s4.mem pdpt (pdptIndex v)) = false := by
            by_contra hh
            have hl := look_of_huge (v := v) ht4 rfl (by simp) hp3 (by simpa using hh)
            have := (he4 v fun _ x => x).look v hv
            rw [if_neg (by omega)] at this
            exact hhuge v le_rfl (by omega) _ (this.symm.trans hl)
          obtain ⟨he3, ht3⟩ := markUser_stepsDown (i := pdptIndex v) (he4 v fun _ x => x).ok
            (hasFlag mf mfUser) ht4 (by simp) (by simp [child, hp3, hn3])
          generalize s4.markUser pdpt (pdptIndex v) (hasFlag mf mfUser) = s3 at he3 ht3
          generalize frameOf (s3.mem pdpt (pdptIndex v)) = pd at ht3
          have hdown3 : ∀ g, Effect env used root s s3 v 0 g := fun g => (he4 v g).trans (he3 _ g)
          cases hp2 : isPresent (s3.mem pd (pdIndex v)) with
          | false => exact ⟨_, _, _, 0, rfl, hdown3 _, .inr ⟨rfl, by omega⟩⟩
          | true =>
            cases hn2 : isHuge (s3.mem pd (pdIndex v)) with
            | true => exact ⟨_, _, _, 0, rfl, hdown3 _, .inr ⟨rfl, by omega⟩⟩
            | false =>
              obtain ⟨he2, ht2⟩ := markUser_stepsDown (i := pdIndex v) (hdown3 fun _ x => x).ok
                (hasFlag mf mfUser) ht3 (by simp) (by simp [child, hp2, hn2])
              generalize s3.markUser pd (pdIndex v) (hasFlag mf mfUser) = s2 at he2 ht2
              have hdown : ∀ g, Effect env used root s s2 v 0 g := fun g =>
                (hdown3 g).trans (he2 _ g)
              obtain ⟨st, s1, j, heq, heff, hst⟩ := remapEntries_effect
                (pteTemplate env.hasNx mf) (fun f hf => isPresent_leaf env.hasNx mf hf) hv (i := 0)
                (n := chunkSize v count) (hdown fun _ x => x).ok ht2 (by omega)
              have hchunk : Effect env used root s s1 v (0 + j)
                  (remapsTo (pteTemplate env.hasNx mf)) := (hdown _).trans heff
              rw [Nat.zero_add] at hchunk
              rw [heq]
              rcases hst with ⟨rfl, rfl⟩ | ⟨rfl, hj⟩
              · rw [hrange.mod hle]
                have hhuge' : NoHugePdpt root s1 (v + chunkSize v count)
                    (count - chunkSize v count) := by
                  intro w hw hw' e he
                  rw [hchunk.look w (hrange.canonical (by omega) (by omega)),
                    if_neg (by omega)] at he
                  exact hhuge w (by omega) (by omega) e he
                obtain ⟨st, v', s', j, heq', heff', hst⟩ := @ih (v + chunkSize v count)
                  (count - chunkSize v count) s1 (by omega) (hrange.drop hle) hchunk.ok hhuge'
                refine ⟨st, v', s', chunkSize v count + j, heq', hchunk.trans heff', ?_⟩
                rcases hst with ⟨h1, h2⟩ | ⟨h1, h2⟩
                · exact .inl ⟨h1, by omega⟩
                · exact .inr ⟨h1, by omega⟩
              · exact ⟨_, _, _, j, rfl, hchunk, .inr ⟨rfl, by omega⟩⟩

theorem Effect.flushed (h : Effect env used root s s1 v n g) (b : Bool) :
    Effect env used root s (s1.flushUnless b) v n g := by
  cases b with
  | true => exact h
  | false => exact ⟨h.ok.release, h.look, h.tables, h.keeps⟩

theorem NoHugePdpt.lockIf {count : Nat} (h : NoHugePdpt root s v count) (w : Nat) :
    NoHugePdpt root (s.lockIf w) v count := by
  unfold State.lockIf
  split <;> exact h

/-- **Remapping.** A successful call on a valid range without 1 GiB pages keeps the
frames of the range and replaces its flags. -/
theorem remapMemory_effect (h : Paged env used root s) {count : Nat} (mf : MapFlags)
    (hrange : ValidRange v count) (hhuge : NoHugePdpt root s v count)
    (hrun : checkSuccess (remapMemory env s root v count mf).1 = true) :
    Effect env used root s (remapMemory env s root v count mf).2 v count
      (remapsTo (pteTemplate env.hasNx mf)) := by
  obtain ⟨st, v', s1, j, heq, heff, hst⟩ := remapLoop_effect mf le_rfl hrange
    (h.lockIf v) (hhuge.lockIf v)
  rw [remapMemory, ite_checks] at hrun ⊢
  split_ifs at hrun ⊢
  · simp [checkSuccess] at hrun
  · rw [heq] at hrun ⊢
    rcases hst with ⟨rfl, rfl⟩ | ⟨hst, -⟩
    · exact (heff.flushed _).locked
    · cases st <;> simp [checkSuccess] at hst hrun

/-! ## Unmapping -/

/-- A page that is mapped no more. -/
def unmaps (_ : Nat) (_ : Option (Nat × Word)) : Option (Nat × Word) := none

theorem unmapEntries_effect (hv : Canonical v) {n i : Nat} {s s' : State}
    (h : Paged env used root s)
    (hpt : s.tableAt root [pml4Index v, pdptIndex v, pdIndex v] = some pt)
    (hidx : (ptIndex v).val + i + n ≤ 512) (hrun : unmapEntries pt (ptIndex v) n i s = some s') :
    Effect env used root s s' (v + i) n unmaps := by
  induction n generalizing i s s' with
  | zero =>
    cases hrun
    exact .refl h
  | succ n ih =>
    rw [unmapEntries] at hrun
    split at hrun
    · simp at hrun
    · have hstep : Effect env used root s (s.write pt (Fin.ofNat 512 ((ptIndex v).val + i)) 0)
          (v + i) 1 unmaps := write_effect h hv (by omega) hpt rfl
      have hrest := ih (i := i + 1) hstep.ok (hstep.keeps _ pt (by simp) hpt) (by omega) hrun
      rw [Nat.add_comm n 1]
      exact hstep.trans hrest

theorem unmapLoop_effect {fuel v count v' : Nat} {s s' : State} (hfuel : count ≤ fuel)
    (hrange : ValidRange v count) (h : Paged env used root s) (hsmall : OnlySmall root s v count)
    (hrun : unmapLoop root fuel v count s = some (v', s')) :
    Effect env used root s s' v count unmaps := by
  induction fuel generalizing v count v' s s' with
  | zero =>
    obtain rfl : count = 0 := by omega
    cases hrun
    exact .refl h
  | succ fuel ih =>
    rw [unmapLoop] at hrun
    by_cases hcount : count = 0
    · rw [if_pos hcount] at hrun
      cases hrun
      rw [hcount]
      exact .refl h
    · have hv : Canonical v := hrange.canonical le_rfl (by omega)
      obtain ⟨hpos, hle, hidx⟩ := chunkSize_spec v (Nat.pos_of_ne_zero hcount)
      have hsmallv := hsmall v le_rfl (by omega)
      dsimp only at hrun
      split_ifs at hrun with hp4 hp3 hp2
      -- all three entries are present; none is huge, or the walk would end there
      simp only [Bool.not_eq_true', Bool.not_eq_false] at hp4 hp3 hp2
      have ht4 : s.tableAt root [pml4Index v] = some (frameOf (s.mem root (pml4Index v))) :=
        (tableAt_slot (p := []) rfl _).trans (by simp [child, hp4])
      have hn3 : isHuge (s.mem (frameOf (s.mem root (pml4Index v))) (pdptIndex v)) = false := by
        by_contra hh
        have hl := look_of_huge (v := v) ht4 rfl (by simp) hp3 (by simpa using hh)
        have := hsmallv _ _ hl
        simp at this
      have ht3 : s.tableAt root [pml4Index v, pdptIndex v] =
          some (frameOf (s.mem (frameOf (s.mem root (pml4Index v))) (pdptIndex v))) :=
        (tableAt_slot ht4 _).trans (by simp [child, hp3, hn3])
      generalize s.mem (frameOf (s.mem root (pml4Index v))) (pdptIndex v) = pdpte at *
      have hn2 : isHuge (s.mem (frameOf pdpte) (pdIndex v)) = false := by
        by_contra hh
        have hl := look_of_huge (v := v) ht3 rfl (by simp) hp2 (by simpa using hh)
        have := hsmallv _ _ hl
        simp at this
      have ht2 : s.tableAt root [pml4Index v, pdptIndex v, pdIndex v] =
          some (frameOf (s.mem (frameOf pdpte) (pdIndex v))) :=
        (tableAt_slot ht3 _).trans (by simp [child, hp2, hn2])
      generalize frameOf (s.mem (frameOf pdpte) (pdIndex v)) = pt at *
      cases hent : unmapEntries pt (ptIndex v) (chunkSize v count) 0 s with
      | none => rw [hent] at hrun; simp at hrun
      | some s1 =>
        rw [hent] at hrun
        have hchunk : Effect env used root s s1 v (chunkSize v count) unmaps :=
          unmapEntries_effect hv (i := 0) h ht2 (by omega) hent
        rw [hrange.mod hle] at hrun
        have hsmall' : OnlySmall root s1 (v + chunkSize v count) (count - chunkSize v count) := by
          intro w hw hw' d e he
          rw [hchunk.look w (hrange.canonical (by omega) (by omega)), if_neg (by omega)] at he
          exact hsmall w (by omega) (by omega) d e he
        have hrest := ih (by omega) (hrange.drop hle) hchunk.ok hsmall' hrun
        have := hchunk.trans hrest
        rwa [show chunkSize v count + (count - chunkSize v count) = count by omega] at this

/-- **Unmapping.** A call that returns on a valid range without huge pages leaves no
page of the range mapped. -/
theorem unmapMemory_effect (h : Paged env used root s) {count : Nat} (hrange : ValidRange v count)
    (hsmall : OnlySmall root s v count) {s' : State}
    (hrun : unmapMemory env s root v count = some s') :
    Effect env used root s s' v count unmaps := by
  rw [unmapMemory, ite_checks] at hrun
  rcases Nat.eq_zero_or_pos count with rfl | hcount
  · -- nothing to do, whatever the argument checks say
    split_ifs at hrun
    · exact (Option.some.inj hrun) ▸ .refl h
    · rw [← Option.some.inj hrun]
      exact ((Effect.refl (h.lockIf v)).flushed _).locked
  have hsmall' : OnlySmall root (s.lockIf v) v count := by
    unfold State.lockIf
    split <;> exact hsmall
  rw [if_neg (hrange.checks hcount)] at hrun
  cases hloop : unmapLoop root count v count (s.lockIf v) with
  | none => rw [hloop] at hrun; simp at hrun
  | some r =>
    rw [hloop] at hrun
    have heff := unmapLoop_effect le_rfl hrange (h.lockIf v) hsmall' hloop
    rw [Option.some.injEq] at hrun
    rw [← hrun]
    exact (heff.flushed _).locked

end FoliOS.Strata.Paging
