import Mathlib.Order.Nat
import FoliOS.Vellum.Mm.Model

/-!
# Vellum — what the memory calls change

The state is looked at through three notions: which frame a page translates to, which
frames are free, and which frames hold page tables. `Grows` is what every call but the free
keeps: no frame becomes free, and a new page table comes from a free frame. With it every
call below the window of the page tables (page `0xFFC00`) is described by the pages it
changes.
-/

namespace FoliOS.Vellum.Mm

open Function

variable {P Q : Nat → Prop} {count p f : Nat} {st : VlStatus} {flags : PageFlags}

/-! ## Three views of the state -/

/-- The first page of the window in which the page tables are visible. -/
def windowVpn : Nat := 0xFFC00

def translate (s : State) (vpn : Nat) : Option Nat := (vpnToPfn s vpn).toOption

def State.Free (s : State) (f : Nat) : Prop :=
  s.basePfn ≤ f ∧ f < s.basePfn + s.frameDescCount ∧ s.bitmap (f - s.basePfn) = .free

def State.IsTable (s : State) (f : Nat) : Prop :=
  f = s.cr3 ∨ ∃ i < 1023, (s.tables s.cr3 i).p = true ∧ (s.tables s.cr3 i).base = f

/-- The directory sees itself, and its tables are distinct frames that are not free. -/
structure Wf (s : State) : Prop where
  range : s.basePfn + s.frameDescCount ≤ 2 ^ 20
  self  : s.tables s.cr3 1023 = .present s.cr3
  cr3   : s.cr3 < 2 ^ 20
  taken : ∀ f, s.IsTable f → ¬ s.Free f
  dir   : ∀ i < 1023, (s.tables s.cr3 i).p = true → (s.tables s.cr3 i).base ≠ s.cr3
  inj   : ∀ i < 1023, ∀ j < 1023, (s.tables s.cr3 i).p = true → (s.tables s.cr3 j).p = true →
    (s.tables s.cr3 i).base = (s.tables s.cr3 j).base → i = j

/-- No frame has become free, and new page tables were free frames. -/
structure Grows (s s' : State) : Prop where
  wf     : Wf s'
  free   : ∀ f, s'.Free f → s.Free f
  tables : ∀ f, s'.IsTable f → s.IsTable f ∨ s.Free f

/-- Below the window only the pages of `P` translate differently. -/
def ChangesOnly (s s' : State) (P : Nat → Prop) : Prop :=
  ∀ v < windowVpn, ¬ P v → translate s' v = translate s v

variable {s s' s'' : State} {v : Nat}

theorem Grows.refl (hw : Wf s) : Grows s s := ⟨hw, fun _ h => h, fun _ h => .inl h⟩

theorem Grows.trans (h : Grows s s') (h' : Grows s' s'') : Grows s s'' := by
  refine ⟨h'.wf, fun f hf => h.free f (h'.free f hf), fun f hf => ?_⟩
  rcases h'.tables f hf with ht | hfree
  · exact h.tables f ht
  · exact .inr (h.free f hfree)

theorem ChangesOnly.refl (s : State) (P : Nat → Prop) : ChangesOnly s s P := fun _ _ _ => rfl

theorem ChangesOnly.trans (h : ChangesOnly s s' P) (h' : ChangesOnly s' s'' P) :
    ChangesOnly s s'' P := fun v hv hp => (h' v hv hp).trans (h v hv hp)

theorem ChangesOnly.mono (h : ChangesOnly s s' P) (hPQ : ∀ v, P v → Q v) : ChangesOnly s s' Q :=
  fun v hv hq => h v hv fun hp => hq (hPQ v hp)

theorem translate_eq (hv : v < windowVpn) :
    translate s v = if (s.pde v).p && (s.pt v).p then some (s.pt v).base else none := by
  have hle : ¬ v > 0xFFFFF := by unfold windowVpn at hv; omega
  unfold translate vpnToPfn
  rw [if_neg hle]
  cases (s.pde v).p <;> cases (s.pt v).p <;> rfl

theorem pdeIndex_lt (hv : v < windowVpn) : v / 1024 < 1023 := by
  unfold windowVpn at hv; omega

/-! ## Frames -/

/-- `p` is where the lowest run of `count` free frames starts. -/
structure LowestRun (s : State) (count p : Nat) : Prop where
  free   : ∀ i < count, s.Free (p + i)
  lowest : ∀ q < p, ∃ i < count, ¬ s.Free (q + i)

/-- The scan, started with `freeCount` free frames behind it: what it returns is the first
place where `count` free frames follow each other, if there is one. -/
theorem scan_spec {bitmap : Nat → FrameMark} (hc : 0 < count) :
    ∀ (n i fc st : Nat), fc < count → (fc ≠ 0 → st + fc = i) →
      (∀ j < fc, bitmap (i - fc + j) = .free) → fc ≤ i →
      (∀ q < i - fc, ∃ j < count, q + j < i ∧ bitmap (q + j) ≠ .free) →
      ∀ fc' st', scan bitmap count n i fc st = (fc', st') →
        (count ≤ fc' → st' + count ≤ i + n ∧ (∀ j < count, bitmap (st' + j) = .free) ∧
          ∀ q < st', ∃ j < count, q + j < st' + count ∧ bitmap (q + j) ≠ .free) ∧
        (fc' < count → ∀ q, q + count ≤ i + n → ∃ j < count, bitmap (q + j) ≠ .free) := by
  intro n
  induction n with
  | zero =>
    intro i fc st hfc _ _ _ hlow fc' st' h
    cases h
    refine ⟨fun hle => by omega, fun _ q hq => ?_⟩
    obtain ⟨j, hj, -, hne⟩ := hlow q (by omega)
    exact ⟨j, hj, hne⟩
  | succ n ih =>
    intro i fc st hfc hst hfree hfi hlow fc' st' h
    have hend : i + (n + 1) = i + 1 + n := by omega
    rw [scan] at h
    by_cases hb : bitmap i = .free
    · rw [if_neg (not_not.mpr hb)] at h
      have hst' : (if fc = 0 then i else st) = i - fc := by
        by_cases h0 : fc = 0
        · rw [if_pos h0]; omega
        · rw [if_neg h0]; have := hst h0; omega
      rw [hst'] at h
      have hfree' : ∀ j < fc + 1, bitmap (i - fc + j) = .free := by
        intro j hj
        rcases Nat.lt_succ_iff_lt_or_eq.mp hj with hj | rfl
        · exact hfree j hj
        · rwa [Nat.sub_add_cancel hfi]
      have hlow' : ∀ q < i - fc, ∃ j < count, q + j < i + 1 ∧ bitmap (q + j) ≠ .free := by
        intro q hq
        obtain ⟨j, hj, hji, hne⟩ := hlow q hq
        exact ⟨j, hj, by omega, hne⟩
      by_cases hdone : fc + 1 ≥ count
      · rw [if_pos hdone] at h
        cases h
        obtain rfl : count = fc + 1 := by omega
        refine ⟨fun _ => ⟨by omega, hfree', ?_⟩, fun hlt => by omega⟩
        rwa [show i - fc + (fc + 1) = i + 1 by omega]
      · rw [if_neg hdone] at h
        have hshift : i + 1 - (fc + 1) = i - fc := by omega
        rw [hend]
        exact ih (i + 1) (fc + 1) (i - fc) (by omega) (fun _ => by omega)
          (by rw [hshift]; exact hfree') (by omega) (by rw [hshift]; exact hlow') fc' st' h
    · rw [if_pos hb] at h
      rw [hend]
      refine ih (i + 1) 0 st hc (fun h => absurd rfl h) (by omega) (by omega) ?_ fc' st' h
      -- a run that starts at or before the frame in use contains it
      intro q hq
      by_cases hqi : q < i - fc
      · obtain ⟨j, hj, hji, hne⟩ := hlow q hqi
        exact ⟨j, hj, by omega, hne⟩
      · exact ⟨i - q, by omega, by omega, by rwa [Nat.add_sub_cancel' (by omega)]⟩

/-- `mm_pma_allocate_frame` takes the lowest run of free frames, and nothing else changes. -/
theorem pmaAllocateFrame_spec (hc : 0 < count) (h : pmaAllocateFrame s count = (st, s', p))
    (hok : st.ok = true) :
    LowestRun s count p ∧ (∀ f, s'.Free f ↔ s.Free f ∧ ¬ (p ≤ f ∧ f < p + count)) ∧
      s'.basePfn = s.basePfn ∧ s'.frameDescCount = s.frameDescCount ∧
      s'.cr3 = s.cr3 ∧ s'.tables = s.tables ∧ s'.allocVpn = s.allocVpn := by
  unfold pmaAllocateFrame at h
  obtain ⟨fc, start, hscan⟩ :
      ∃ fc start, scan s.bitmap count s.frameDescCount 0 0 0 = (fc, start) :=
    ⟨_, _, rfl⟩
  rw [hscan] at h
  dsimp only at h
  by_cases hlt : fc < count
  · rw [if_pos hlt] at h
    cases h
    cases hok
  · rw [if_neg hlt] at h
    obtain ⟨-, h⟩ := Prod.mk.inj h
    cases h
    obtain ⟨hend, hfree, hlow⟩ := (scan_spec hc s.frameDescCount 0 0 0 hc (fun h => absurd rfl h)
      (by omega) (by omega) (by omega) fc start hscan).1 (by omega)
    refine ⟨⟨fun i hi => ⟨by omega, by omega, ?_⟩, fun q hq => ?_⟩, fun f => ?_,
      rfl, rfl, rfl, rfl, rfl⟩
    · rw [show s.basePfn + start + i - s.basePfn = start + i by omega]
      exact hfree i hi
    · by_cases hqb : q < s.basePfn
      · exact ⟨0, hc, fun hf => by have := hf.1; omega⟩
      · obtain ⟨j, hj, hji, hne⟩ := hlow (q - s.basePfn) (by omega)
        refine ⟨j, hj, fun hf => hne ?_⟩
        rw [show q - s.basePfn + j = q + j - s.basePfn by omega]
        exact hf.2.2
    · unfold State.Free setMarks
      dsimp only
      constructor
      · rintro ⟨h1, h2, h3⟩
        split_ifs at h3 with hin
        exact ⟨⟨h1, h2, h3⟩, fun ⟨_, _⟩ => hin ⟨by omega, by omega⟩⟩
      · rintro ⟨⟨h1, h2, h3⟩, hout⟩
        refine ⟨h1, h2, ?_⟩
        rw [if_neg (fun hin => hout ⟨by omega, by omega⟩)]
        exact h3

theorem pmaAllocateFrame_error (h : pmaAllocateFrame s count = (st, s', p)) (hok : st.ok = false) :
    s' = s := by
  unfold pmaAllocateFrame at h
  dsimp only at h
  split_ifs at h
  · exact (Prod.mk.inj (Prod.mk.inj h).2).1.symm
  · rw [← (Prod.mk.inj h).1] at hok
    cases hok

/-- Where the directory is as before, so are the frames that hold tables. -/
theorem isTable_sameDirectory (hcr3 : s'.cr3 = s.cr3)
    (hdir : ∀ i, s'.tables s.cr3 i = s.tables s.cr3 i) (f : Nat) : s'.IsTable f ↔ s.IsTable f := by
  simp only [State.IsTable, hcr3, hdir]

section

variable (hw : Wf s) (hcr3 : s'.cr3 = s.cr3) (hdir : ∀ i, s'.tables s.cr3 i = s.tables s.cr3 i)
  (hbase : s'.basePfn = s.basePfn) (hcount : s'.frameDescCount = s.frameDescCount)
include hw hcr3 hdir hbase hcount

/-- The directory is as before and no table has become free. -/
theorem Wf.of_sameDirectory (hfree : ∀ f, s.IsTable f → s'.Free f → s.Free f) : Wf s' where
  range := by rw [hbase, hcount]; exact hw.range
  self := by rw [hcr3, hdir]; exact hw.self
  cr3 := by rw [hcr3]; exact hw.cr3
  taken := fun f hf hfr => by
    have ht := (isTable_sameDirectory hcr3 hdir f).mp hf
    exact hw.taken f ht (hfree f ht hfr)
  dir := by simpa only [hcr3, hdir] using hw.dir
  inj := by simpa only [hcr3, hdir] using hw.inj

theorem Grows.of_sameDirectory (hfree : ∀ f, s'.Free f → s.Free f) : Grows s s' :=
  ⟨hw.of_sameDirectory hcr3 hdir hbase hcount fun f _ => hfree f, hfree,
    fun f hf => .inl ((isTable_sameDirectory hcr3 hdir f).mp hf)⟩

end

theorem translate_sameTables (hcr3 : s'.cr3 = s.cr3) (htab : s'.tables = s.tables) (v : Nat) :
    translate s' v = translate s v := by
  unfold translate vpnToPfn State.pt State.pde
  rw [hcr3, htab]

theorem pmaAllocateFrame_grows (hw : Wf s) (hc : 0 < count)
    (h : pmaAllocateFrame s count = (st, s', p)) :
    Grows s s' ∧ ∀ v, translate s' v = translate s v := by
  cases hok : st.ok with
  | false =>
    rw [pmaAllocateFrame_error h hok]
    exact ⟨Grows.refl hw, fun _ => rfl⟩
  | true =>
    obtain ⟨-, hfree, hbase, hcount, hcr3, htab, -⟩ := pmaAllocateFrame_spec hc h hok
    exact ⟨Grows.of_sameDirectory hw hcr3 (fun _ => by rw [htab]) hbase hcount
        fun f hf => ((hfree f).mp hf).1,
      translate_sameTables hcr3 htab⟩

/-- A frame that was free and now is neither free nor a page table. -/
def Taken (s s' : State) (f : Nat) : Prop := s.Free f ∧ ¬ s'.Free f ∧ ¬ s'.IsTable f

theorem Taken.grows (h : Taken s s' f) (hg : Grows s' s'') : Taken s s'' f := by
  refine ⟨h.1, fun hf => h.2.1 (hg.free f hf), fun ht => ?_⟩
  rcases hg.tables f ht with ht | hf
  · exact h.2.2 ht
  · exact h.2.1 hf

theorem Taken.of_grows (hg : Grows s s') (h : Taken s' s'' f) : Taken s s'' f :=
  ⟨hg.free f h.1, h.2⟩

theorem pmaAllocateFrame_taken (hw : Wf s) (hc : 0 < count)
    (h : pmaAllocateFrame s count = (st, s', p)) (hok : st.ok = true) :
    ∀ i < count, Taken s s' (p + i) := by
  obtain ⟨hrun, hfree, -, -, hcr3, htab, -⟩ := pmaAllocateFrame_spec hc h hok
  intro i hi
  refine ⟨hrun.free i hi, fun hf => ((hfree _).mp hf).2 ⟨by omega, by omega⟩, fun ht => ?_⟩
  exact hw.taken _ ((isTable_sameDirectory hcr3 (fun _ => by rw [htab]) _).mp ht) (hrun.free i hi)

theorem Taken.lt (h : Taken s s' f) (hw : Wf s) : f < 2 ^ 20 := by
  have := hw.range
  have := h.1.2.1
  omega

/-! ## One page -/

/-- What a call does whose status is that of the call before if that failed. -/
theorem ok_cases {s1 : State} {st1 : VlStatus} {x : VlStatus × State}
    (h : (if !st1.ok then (st1, s1) else x) = (st, s')) :
    st1.ok = false ∧ s' = s1 ∧ ¬ st.ok = true ∨ st1.ok = true ∧ x = (st, s') := by
  cases hok : st1.ok with
  | false =>
    rw [hok] at h
    cases h
    exact .inl ⟨rfl, rfl, Bool.eq_false_iff.mp hok⟩
  | true =>
    rw [hok] at h
    exact .inr ⟨rfl, h⟩

/-- The state with the entry of a page overwritten. -/
def State.setPage (s : State) (vpn : Nat) (e : Pte) : State :=
  s.setEntry (s.pde vpn).base (vpn % 1024) e

section

variable (hw : Wf s) (hv : v < windowVpn) (hp : (s.pde v).p = true) (e : Pte)
include hw hv hp e

theorem setPage_directory (i : Nat) : (s.setPage v e).tables s.cr3 i = s.tables s.cr3 i := by
  have hne : s.cr3 ≠ (s.pde v).base := (hw.dir _ (pdeIndex_lt hv) hp).symm
  show update s.tables _ _ s.cr3 i = _
  rw [update_of_ne hne]

/-- Writing the entry of a page whose table exists changes the translation of that page. -/
theorem setPage_translate :
    translate (s.setPage v e) v = (if e.p then some e.base else none) ∧
      ChangesOnly s (s.setPage v e) (· = v) := by
  have hpde : ∀ w, (s.setPage v e).pde w = s.pde w := fun w => setPage_directory hw hv hp e _
  constructor
  · rw [translate_eq hv, State.pt, hpde, hp]
    simp [State.setPage, State.setEntry]
  · intro w hw' hwv
    have hpt : (s.pde w).p = true → (s.setPage v e).pt w = s.pt w := by
      intro hpw
      unfold State.pt
      rw [hpde]
      show update s.tables _ _ _ _ = _
      by_cases hb : (s.pde w).base = (s.pde v).base
      · have hidx : w / 1024 = v / 1024 :=
          hw.inj _ (pdeIndex_lt hw') _ (pdeIndex_lt hv) hpw hp hb
        have hmod : w % 1024 ≠ v % 1024 := by
          intro hmod
          exact hwv (by rw [← Nat.div_add_mod w 1024, hidx, hmod, Nat.div_add_mod])
        rw [hb, update_self, update_of_ne hmod]
      · rw [update_of_ne hb]
    rw [translate_eq hw', translate_eq hw', hpde]
    cases hpw : (s.pde w).p with
    | true => rw [hpt hpw]
    | false => rfl

theorem setPage_grows : Grows s (s.setPage v e) :=
  Grows.of_sameDirectory hw rfl (setPage_directory hw hv hp e) rfl rfl fun _ h => h

end

/-- The directory entry `i` names the empty table in frame `t`. -/
structure NewTable (s s' : State) (i t : Nat) : Prop where
  cr3   : s'.cr3 = s.cr3
  free  : s'.Free = s.Free
  base  : s'.basePfn = s.basePfn
  count : s'.frameDescCount = s.frameDescCount
  entry : s'.tables s.cr3 i = .present t
  dir   : ∀ j, j ≠ i → s'.tables s.cr3 j = s.tables s.cr3 j
  empty : ∀ j, s'.tables t j = .zero
  rest  : ∀ f, f ≠ s.cr3 → f ≠ t → s'.tables f = s.tables f

section NewTable

variable {i t : Nat}

theorem addTable_newTable (ht : t < 2 ^ 20) (hne : t ≠ s.cr3) :
    NewTable s (s.addTable v t) (v / 1024) t := by
  have hb : (Pte.present t).base = t := Nat.mod_eq_of_lt ht
  have hent : (s.setEntry s.cr3 (v / 1024) (.present t)).pde v = .present t := by
    simp [State.pde, State.setEntry]
  unfold State.addTable
  dsimp only
  rw [hent, hb]
  refine ⟨rfl, rfl, rfl, rfl, ?_, fun j hj => ?_, fun j => ?_, fun f hf hft => ?_⟩
  · simp [State.setEntry, hne.symm]
  · simp [State.setEntry, hne.symm, hj]
  · simp
  · simp [State.setEntry, hft, hf]

/-- No other frame becomes a page table. -/
theorem NewTable.isTable (h : NewTable s s' i t) (ht : t < 2 ^ 20) (hf : s'.IsTable f) :
    s.IsTable f ∨ f = t := by
  rw [State.IsTable, h.cr3] at hf
  rcases hf with rfl | ⟨j, hj, hp, hb⟩
  · exact .inl (.inl rfl)
  · by_cases hji : j = i
    · subst hji
      rw [h.entry] at hb
      exact .inr (hb.symm.trans (Nat.mod_eq_of_lt ht))
    · rw [h.dir j hji] at hp hb
      exact .inl (.inr ⟨j, hj, hp, hb⟩)

theorem NewTable.wf (h : NewTable s s' i t) (hw : Wf s) (hi : i < 1023) (ht : t < 2 ^ 20)
    (habs : (s.tables s.cr3 i).p = false) (hfree : ¬ s.Free t) (hnew : ¬ s.IsTable t) : Wf s' where
  range := by rw [h.base, h.count]; exact hw.range
  self := by rw [h.cr3, h.dir 1023 (by omega)]; exact hw.self
  cr3 := by rw [h.cr3]; exact hw.cr3
  taken := fun f hf => by
    rw [h.free]
    rcases h.isTable ht hf with hf | rfl
    · exact hw.taken f hf
    · exact hfree
  dir := fun j hj hp => by
    rw [h.cr3] at hp ⊢
    by_cases hji : j = i
    · subst hji
      rw [h.entry]
      exact fun hb => hnew (.inl ((Nat.mod_eq_of_lt ht).symm.trans hb))
    · rw [h.dir j hji] at hp ⊢
      exact hw.dir j hj hp
  inj := fun j hj k hk hpj hpk hb => by
    rw [h.cr3] at hpj hpk hb
    have hbase : (Pte.present t).base = t := Nat.mod_eq_of_lt ht
    by_cases hji : j = i <;> by_cases hki : k = i
    · rw [hji, hki]
    · subst hji
      rw [h.entry, h.dir k hki, hbase] at hb
      rw [h.dir k hki] at hpk
      exact absurd (.inr ⟨k, hk, hpk, hb.symm⟩) hnew
    · subst hki
      rw [h.entry, h.dir j hji, hbase] at hb
      rw [h.dir j hji] at hpj
      exact absurd (.inr ⟨j, hj, hpj, hb⟩) hnew
    · rw [h.dir j hji] at hpj hb
      rw [h.dir k hki] at hpk hb
      exact hw.inj j hj k hk hpj hpk hb

/-- An empty table translates nothing, as the missing one did. -/
theorem NewTable.translate (h : NewTable s s' i t) (hw : Wf s) (ht : t < 2 ^ 20)
    (habs : (s.tables s.cr3 i).p = false) (hnew : ¬ s.IsTable t) :
    ChangesOnly s s' (fun _ => False) := by
  intro w hwin _
  have hbase : (Pte.present t).base = t := Nat.mod_eq_of_lt ht
  rw [translate_eq hwin, translate_eq hwin]
  by_cases hwi : w / 1024 = i
  · have hpt : s'.pt w = .zero := by
      unfold State.pt State.pde
      rw [h.cr3, hwi, h.entry, hbase, h.empty]
    have hpde : (s.pde w).p = false := by rw [State.pde, hwi]; exact habs
    rw [hpt, hpde]
    simp [Pte.zero]
  · have hpde : s'.pde w = s.pde w := by
      unfold State.pde
      rw [h.cr3, h.dir _ hwi]
    rw [hpde]
    cases hp : (s.pde w).p with
    | false => rfl
    | true =>
      have hlt := pdeIndex_lt hwin
      have hrest : s'.tables (s.pde w).base = s.tables (s.pde w).base :=
        h.rest _ (hw.dir _ hlt hp) fun hb => hnew (.inr ⟨_, hlt, hp, hb⟩)
      rw [State.pt, hpde, hrest, State.pt]

end NewTable

/-- The directory has new tables only, and only at the places of `P`. -/
structure NewTables (s s' : State) (P : Nat → Prop) : Prop where
  cr3  : s'.cr3 = s.cr3
  kept : ∀ j < 1023, s'.tables s.cr3 j = s.tables s.cr3 j ∨ (s.tables s.cr3 j).p = false ∧ P j

theorem NewTables.refl (s : State) (P : Nat → Prop) : NewTables s s P :=
  ⟨rfl, fun _ _ => .inl rfl⟩

theorem NewTables.trans (h : NewTables s s' P) (h' : NewTables s' s'' P) : NewTables s s'' P := by
  refine ⟨h'.cr3.trans h.cr3, fun j hj => ?_⟩
  have hkept' := h'.kept j hj
  rw [h.cr3] at hkept'
  rcases h.kept j hj with heq | hnew
  · rwa [heq] at hkept'
  · exact .inr hnew

theorem NewTables.mono (h : NewTables s s' P) (hPQ : ∀ j, P j → Q j) : NewTables s s' Q :=
  ⟨h.cr3, fun j hj => (h.kept j hj).imp_right fun hn => ⟨hn.1, hPQ j hn.2⟩⟩

/-- A table that is there stays there. -/
theorem NewTables.pde (h : NewTables s s' P) (hv : v < windowVpn) (hp : (s.pde v).p = true) :
    (s'.pde v).p = true := by
  unfold State.pde at hp ⊢
  rw [h.cr3]
  rcases h.kept _ (pdeIndex_lt hv) with heq | ⟨habs, -⟩
  · rwa [heq]
  · rw [habs] at hp
    cases hp

/-- A new page table: the frame was free, and no page translates differently. -/
theorem ensureTable_spec (hw : Wf s) (hv : v < windowVpn) (h : ensureTable s v = (st, s')) :
    Grows s s' ∧ ChangesOnly s s' (fun _ => False) ∧ NewTables s s' (· = v / 1024) ∧
      (st.ok = true → (s'.pde v).p = true) := by
  unfold ensureTable at h
  by_cases hp : (s.pde v).p = true
  · rw [if_pos hp] at h
    cases h
    exact ⟨Grows.refl hw, ChangesOnly.refl _ _, NewTables.refl _ _, fun _ => hp⟩
  · rw [if_neg hp] at h
    obtain ⟨st1, s1, t, halloc⟩ : ∃ st1 s1 t, pmaAllocateFrame s 1 = (st1, s1, t) := ⟨_, _, _, rfl⟩
    rw [halloc] at h
    rcases ok_cases h with ⟨hok, rfl, hno⟩ | ⟨hok, h⟩
    · rw [pmaAllocateFrame_error halloc hok]
      exact ⟨Grows.refl hw, ChangesOnly.refl _ _, NewTables.refl _ _, fun h => absurd h hno⟩
    · cases h
      obtain ⟨-, -, -, -, hcr3, htab, -⟩ := pmaAllocateFrame_spec Nat.one_pos halloc hok
      have htaken : Taken s s1 t := pmaAllocateFrame_taken hw Nat.one_pos halloc hok 0 Nat.one_pos
      have ht := htaken.lt hw
      obtain ⟨hfr, hnotFree, hnotTable⟩ := htaken
      obtain ⟨hg, htr⟩ := pmaAllocateFrame_grows hw Nat.one_pos halloc
      have habs : (s1.tables s1.cr3 (v / 1024)).p = false := by
        rw [htab, hcr3]
        exact Bool.eq_false_iff.mpr hp
      have hnew : NewTable s1 (s1.addTable v t) (v / 1024) t :=
        addTable_newTable ht fun h => hnotTable (.inl h)
      have hlt := pdeIndex_lt hv
      refine ⟨⟨hnew.wf hg.wf hlt ht habs hnotFree hnotTable, ?_, ?_⟩, ?_,
        ⟨hnew.cr3.trans hcr3, fun j _ => ?_⟩, ?_⟩
      · intro f hf
        exact hg.free f (by rwa [hnew.free] at hf)
      · intro f hf
        rcases hnew.isTable ht hf with hf | rfl
        · exact hg.tables f hf
        · exact .inr hfr
      · intro w hw' _
        exact (hnew.translate hg.wf ht habs hnotTable w hw' id).trans (htr w)
      · by_cases hj : j = v / 1024
        · subst hj
          exact .inr ⟨Bool.eq_false_iff.mpr hp, rfl⟩
        · rw [← hcr3, hnew.dir j hj, htab]
          exact .inl rfl
      · intro _
        rw [State.pde, hnew.cr3, hnew.entry]
        rfl

/-- `map`: on success the page translates to the frame, and either way no other page
changes and no other table is made. -/
theorem map_spec {pfn : Nat} (hw : Wf s) (hv : v < windowVpn) (h : map s pfn v flags = (st, s')) :
    Grows s s' ∧ ChangesOnly s s' (· = v) ∧ NewTables s s' (· = v / 1024) ∧
      (st.ok = true → translate s' v = some (pfn % 2 ^ 20) ∧ (s'.pde v).p = true) := by
  unfold map at h
  rw [if_neg (by unfold windowVpn at hv; omega)] at h
  obtain ⟨st1, s1, hens⟩ : ∃ st1 s1, ensureTable s v = (st1, s1) := ⟨_, _, rfl⟩
  rw [hens] at h
  obtain ⟨hg, hsame, hnew, hp⟩ := ensureTable_spec hw hv hens
  have hsame' : ChangesOnly s s1 (· = v) := hsame.mono fun _ h => h.elim
  rcases ok_cases h with ⟨-, rfl, hno⟩ | ⟨hok, h⟩
  · exact ⟨hg, hsame', hnew, fun h => absurd h hno⟩
  · by_cases hc : ((s1.pt v).p && conflicts flags (s1.pt v)) = true
    · rw [if_pos hc] at h
      cases h
      exact ⟨hg, hsame', hnew, fun h => absurd h (by decide)⟩
    · rw [if_neg hc] at h
      cases h
      obtain ⟨htr, honly⟩ := setPage_translate hg.wf hv (hp hok) (entryFor pfn flags)
      have hdir : NewTables s1 (s1.setPage v (entryFor pfn flags)) (· = v / 1024) :=
        ⟨rfl, fun j _ => .inl (setPage_directory hg.wf hv (hp hok) _ j)⟩
      exact ⟨hg.trans (setPage_grows hg.wf hv (hp hok) _), hsame'.trans honly, hnew.trans hdir,
        fun _ => ⟨htr, hdir.pde hv (hp hok)⟩⟩

/-! ## Ranges of pages -/

/-- The pages of a range. -/
def InRange (vpn count v : Nat) : Prop := vpn ≤ v ∧ v < vpn + count

theorem InRange.eq_add {n w : Nat} (h : InRange v n w) : ∃ i < n, w = v + i := by
  obtain ⟨i, rfl⟩ := Nat.exists_eq_add_of_le h.1
  exact ⟨i, Nat.lt_of_add_lt_add_left h.2, rfl⟩

theorem InRange.succ {n w : Nat} (h : InRange (v + 1) n w) : InRange v (n + 1) w :=
  ⟨by have := h.1; omega, by have := h.2; omega⟩

theorem not_inRange_succ {n : Nat} : ¬ InRange (v + 1) n v := fun h => absurd h.1 (by omega)

/-- A change of the first page, then of the others. -/
theorem ChangesOnly.cons {n : Nat} (h : ChangesOnly s s' (· = v))
    (h' : ChangesOnly s' s'' (InRange (v + 1) n)) : ChangesOnly s s'' (InRange v (n + 1)) :=
  (h.mono fun w hw => ⟨by omega, by omega⟩).trans (h'.mono fun _ => InRange.succ)

theorem next_vpn {n : Nat} (hv : v + (n + 1) ≤ windowVpn) : (v + 1) % 2 ^ 32 = v + 1 := by
  unfold windowVpn at hv
  omega

/-- `mm_map` on success maps page `v + i` to frame `pfn + i`; it makes the tables of its pages, and
no others. -/
theorem mapPages_spec (n : Nat) {pfn : Nat} (hw : Wf s) (hv : v + n ≤ windowVpn)
    (h : mapPages s pfn v flags n = (st, s')) :
    Grows s s' ∧ ChangesOnly s s' (InRange v n) ∧
      NewTables s s' (fun j => ∃ w, InRange v n w ∧ w / 1024 = j) ∧
      (st.ok = true → ∀ i < n, translate s' (v + i) = some ((pfn + i) % 2 ^ 20) ∧
      (s'.pde (v + i)).p = true) := by
  induction n generalizing s pfn v with
  | zero =>
    cases h
    exact ⟨Grows.refl hw, ChangesOnly.refl _ _, NewTables.refl _ _,
      fun _ i hi => absurd hi (Nat.not_lt_zero i)⟩
  | succ n ih =>
    obtain ⟨st1, s1, hmap⟩ : ∃ st1 s1, map s pfn v flags = (st1, s1) := ⟨_, _, rfl⟩
    rw [mapPages, hmap, next_vpn hv] at h
    obtain ⟨hg, honly, hnew, htr⟩ := map_spec hw (by omega) hmap
    have hnew' : NewTables s s1 (fun j => ∃ w, InRange v (n + 1) w ∧ w / 1024 = j) :=
      hnew.mono fun j hj => ⟨v, ⟨le_rfl, by omega⟩, hj.symm⟩
    rcases ok_cases h with ⟨-, rfl, hno⟩ | ⟨hok, h⟩
    · exact ⟨hg, honly.cons (.refl _ _), hnew', fun h => absurd h hno⟩
    · obtain ⟨hg', honly2, hnew2, htr'⟩ := ih hg.wf (by omega) h
      refine ⟨hg.trans hg', honly.cons honly2,
        hnew'.trans (hnew2.mono fun j ⟨w, hr, hj⟩ => ⟨w, hr.succ, hj⟩), fun hst i hi => ?_⟩
      cases i with
      | zero =>
        rw [Nat.add_zero, Nat.add_zero, honly2 v (by omega) not_inRange_succ]
        exact ⟨(htr hok).1, hnew2.pde (by omega) (htr hok).2⟩
      | succ i =>
        rw [show v + (i + 1) = v + 1 + i by omega, show pfn + (i + 1) = pfn + 1 + i by omega]
        exact htr' hst i (by omega)

/-- The page translates to a frame taken since `s`. -/
def GotFrame (s s' : State) (v : Nat) : Prop := ∃ f, Taken s s' f ∧ translate s' v = some f

theorem vpnToPfn_of_none (hv : v < windowVpn) (h : translate s v = none) :
    vpnToPfn s v = .error .pageNotPresent := by
  have hle : ¬ v > 0xFFFFF := by unfold windowVpn at hv; omega
  rw [translate_eq hv] at h
  unfold vpnToPfn
  rw [if_neg hle]
  cases hd : (s.pde v).p with
  | false => rfl
  | true =>
    cases ht : (s.pt v).p with
    | false => rfl
    | true => rw [hd, ht] at h; cases h

theorem vpnToPfn_of_some (h : translate s v = some f) : vpnToPfn s v = .ok f := by
  unfold translate at h
  cases hv : vpnToPfn s v with
  | error e => rw [hv] at h; cases h
  | ok g => rw [hv] at h; exact congrArg Except.ok (Option.some.inj h)

theorem allocatePage_mapped (h : translate s v = some f) : allocatePage s v = (.success, s) := by
  rw [allocatePage, vpnToPfn_of_some h]

theorem allocatePage_spec (hw : Wf s) (hv : v < windowVpn) (hnone : translate s v = none)
    (h : allocatePage s v = (st, s')) :
    Grows s s' ∧ ChangesOnly s s' (· = v) ∧ (st.ok = true → GotFrame s s' v) := by
  rw [allocatePage, vpnToPfn_of_none hv hnone] at h
  obtain ⟨st1, s1, f, halloc⟩ : ∃ st1 s1 f, pmaAllocateFrame s 1 = (st1, s1, f) := ⟨_, _, _, rfl⟩
  rw [halloc] at h
  obtain ⟨hg, htr⟩ := pmaAllocateFrame_grows hw Nat.one_pos halloc
  have hsame : ChangesOnly s s1 (· = v) := fun w _ _ => htr w
  rcases ok_cases h with ⟨-, rfl, hno⟩ | ⟨hok, h⟩
  · exact ⟨hg, hsame, fun h => absurd h hno⟩
  · have htaken : Taken s s1 f := pmaAllocateFrame_taken hw Nat.one_pos halloc hok 0 Nat.one_pos
    obtain ⟨hg', honly, -, hmapped⟩ := mapPages_spec 1 hg.wf (by omega) h
    refine ⟨hg.trans hg', hsame.trans (honly.mono fun w hr => ?_), fun hst => ?_⟩
    · have := hr.1
      have := hr.2
      omega
    · have := (hmapped hst 0 Nat.one_pos).1
      rw [Nat.add_zero, Nat.add_zero, Nat.mod_eq_of_lt (htaken.lt hw)] at this
      exact ⟨f, htaken.grows hg', this⟩

/-- `mm_allocate_pages_to` over pages none of which is mapped. -/
theorem allocatePagesTo_spec (n : Nat) (hw : Wf s) (hv : v + n ≤ windowVpn)
    (hnone : ∀ i < n, translate s (v + i) = none) (h : allocatePagesTo s v n = (st, s')) :
    Grows s s' ∧ ChangesOnly s s' (InRange v n) ∧
      (st.ok = true → ∀ i < n, GotFrame s s' (v + i)) := by
  induction n generalizing s v with
  | zero =>
    cases h
    exact ⟨Grows.refl hw, ChangesOnly.refl _ _, fun _ i hi => absurd hi (Nat.not_lt_zero i)⟩
  | succ n ih =>
    obtain ⟨st1, s1, hone⟩ : ∃ st1 s1, allocatePage s v = (st1, s1) := ⟨_, _, rfl⟩
    rw [allocatePagesTo, hone, next_vpn hv] at h
    obtain ⟨hg, honly, hgot⟩ := allocatePage_spec hw (by omega) (hnone 0 (by omega)) hone
    rcases ok_cases h with ⟨-, rfl, hno⟩ | ⟨hok, h⟩
    · exact ⟨hg, honly.cons (.refl _ _), fun h => absurd h hno⟩
    · have hnone' : ∀ i < n, translate s1 (v + 1 + i) = none := fun i hi => by
        rw [honly _ (by omega) (by omega), show v + 1 + i = v + (i + 1) by omega]
        exact hnone (i + 1) (by omega)
      obtain ⟨hg', honly2, hgot'⟩ := ih hg.wf (by omega) hnone' h
      refine ⟨hg.trans hg', honly.cons honly2, fun hst i hi => ?_⟩
      cases i with
      | zero =>
        obtain ⟨f, hf, htr⟩ := hgot hok
        exact ⟨f, hf.grows hg', (honly2 v (by omega) not_inRange_succ).trans htr⟩
      | succ i =>
        obtain ⟨f, hf, htr⟩ := hgot' hst i (by omega)
        exact ⟨f, hf.of_grows hg, by rwa [show v + (i + 1) = v + 1 + i by omega]⟩

/-- Over pages all of which are mapped `mm_allocate_pages_to` does nothing. -/
theorem allocatePagesTo_mapped (n : Nat) (hv : v + n ≤ windowVpn)
    (hmapped : ∀ i < n, ∃ f, translate s (v + i) = some f) :
    allocatePagesTo s v n = (.success, s) := by
  induction n generalizing v with
  | zero => exact rfl
  | succ n ih =>
    obtain ⟨f, hf⟩ := hmapped 0 (by omega)
    rw [Nat.add_zero] at hf
    rw [allocatePagesTo, allocatePage_mapped hf, next_vpn hv]
    refine ih (by omega) fun i hi => ?_
    rw [show v + 1 + i = v + (i + 1) by omega]
    exact hmapped (i + 1) (by omega)

/-- `mm_pma_free_frame` of one frame. -/
theorem pmaFreeFrame_spec (s : State) (f : Nat) :
    (pmaFreeFrame s f 1).cr3 = s.cr3 ∧ (pmaFreeFrame s f 1).tables = s.tables ∧
      (pmaFreeFrame s f 1).basePfn = s.basePfn ∧
      (pmaFreeFrame s f 1).frameDescCount = s.frameDescCount ∧
      ∀ g, (pmaFreeFrame s f 1).Free g → s.Free g ∨ g = f := by
  obtain hnone | ⟨hle, hone⟩ : freedDescriptors s f 1 = [] ∨
      s.basePfn ≤ f ∧ freedDescriptors s f 1 = [f - s.basePfn] := by
    unfold freedDescriptors
    dsimp only
    split
    · exact .inl rfl
    · rw [if_neg (by omega)]
      rcases Nat.lt_or_ge (f - s.basePfn + 1) (2 ^ 32) with hlt | hge
      · rw [Nat.mod_eq_of_lt hlt, Nat.add_sub_cancel_left]
        exact .inr ⟨by omega, rfl⟩
      · have hzero : (f - s.basePfn + 1) % 2 ^ 32 - (f - s.basePfn) = 0 := by omega
        rw [hzero]
        exact .inl rfl
  · rw [pmaFreeFrame, hnone]
    exact ⟨rfl, rfl, rfl, rfl, fun g hg => .inl hg⟩
  · rw [pmaFreeFrame, hone, List.foldl_cons, List.foldl_nil, freeDescriptor]
    by_cases ha : s.bitmap (f - s.basePfn) = .allocated
    · rw [if_neg (not_not.mpr ha)]
      refine ⟨rfl, rfl, rfl, rfl, fun g hg => ?_⟩
      obtain ⟨h1, h2, h3⟩ := hg
      dsimp only at h1 h2 h3
      by_cases hgf : g = f
      · exact .inr hgf
      · have hidx : g - s.basePfn ≠ f - s.basePfn := fun h => hgf (by omega)
        exact .inl ⟨h1, h2, by rwa [update_of_ne hidx] at h3⟩
    · rw [if_pos ha]
      exact ⟨rfl, rfl, rfl, rfl, fun g hg => .inl hg⟩

theorem freePage_spec (hw : Wf s) (hv : v < windowVpn) (hf : translate s v = some f)
    (hnot : ¬ s.IsTable f) :
    Wf (freePage s v) ∧ ChangesOnly s (freePage s v) (· = v) ∧
      (∀ g, (freePage s v).IsTable g ↔ s.IsTable g) ∧
      ∀ g, (freePage s v).Free g → s.Free g ∨ g = f := by
  have hp : (s.pde v).p = true ∧ (s.pt v).p = true := by
    rw [translate_eq hv] at hf
    simpa using (Option.ite_none_right_eq_some.mp hf).1
  have hunmap : unmap s v = s.setPage v .zero := by
    unfold unmap
    rw [if_neg (by unfold windowVpn at hv; omega), hp.1, hp.2]
    rfl
  have heq : freePage s v = pmaFreeFrame (s.setPage v .zero) f 1 := by
    rw [freePage, vpnToPfn_of_some hf, hunmap]
  obtain ⟨hcr3, htab, hbase, hcount, hfree⟩ := pmaFreeFrame_spec (s.setPage v .zero) f
  have hdir : ∀ i, (pmaFreeFrame (s.setPage v .zero) f 1).tables s.cr3 i = s.tables s.cr3 i := by
    intro i
    rw [htab]
    exact setPage_directory hw hv hp.1 .zero i
  have hcr3' : (pmaFreeFrame (s.setPage v .zero) f 1).cr3 = s.cr3 := hcr3
  have htable := isTable_sameDirectory hcr3' hdir
  rw [heq]
  refine ⟨hw.of_sameDirectory hcr3' hdir hbase hcount fun g hg hfr => ?_, ?_, htable, hfree⟩
  · rcases hfree g hfr with hfr | rfl
    · exact hfr
    · exact absurd hg hnot
  · intro w hwin hne
    rw [translate_sameTables hcr3 htab]
    exact (setPage_translate hw hv hp.1 .zero).2 w hwin hne

/-- `mm_free_pages` over mapped pages whose frames are not page tables: only those frames
become free. -/
theorem freePages_spec (n : Nat) (hw : Wf s) (hv : v + n ≤ windowVpn)
    (hmapped : ∀ i < n, ∃ f, translate s (v + i) = some f ∧ ¬ s.IsTable f) :
    Wf (freePages s v n) ∧ ChangesOnly s (freePages s v n) (InRange v n) ∧
      (∀ g, (freePages s v n).IsTable g ↔ s.IsTable g) ∧ ∀ g, (freePages s v n).Free g → s.Free g ∨
      ∃ i < n, translate s (v + i) = some g := by
  induction n generalizing s v with
  | zero => exact ⟨hw, ChangesOnly.refl _ _, fun _ => Iff.rfl, fun _ hg => .inl hg⟩
  | succ n ih =>
    obtain ⟨f, hf, hnot⟩ := hmapped 0 (by omega)
    rw [Nat.add_zero] at hf
    obtain ⟨hw1, honly, htable, hfree⟩ := freePage_spec hw (by omega) hf hnot
    have hmapped' : ∀ i < n, ∃ g, translate (freePage s v) (v + 1 + i) = some g ∧
        ¬ (freePage s v).IsTable g := by
      intro i hi
      obtain ⟨g, hg, hng⟩ := hmapped (i + 1) (by omega)
      refine ⟨g, ?_, fun ht => hng ((htable g).mp ht)⟩
      rw [honly _ (by omega) (by omega), show v + 1 + i = v + (i + 1) by omega]
      exact hg
    rw [freePages, next_vpn hv]
    obtain ⟨hw2, honly2, htable2, hfree2⟩ := ih hw1 (by omega) hmapped'
    refine ⟨hw2, honly.cons honly2, fun g => (htable2 g).trans (htable g), fun g hg => ?_⟩
    rcases hfree2 g hg with hg | ⟨i, hi, hg⟩
    · rcases hfree g hg with hg | rfl
      · exact .inl hg
      · exact .inr ⟨0, by omega, hf⟩
    · refine .inr ⟨i + 1, by omega, ?_⟩
      rw [show v + (i + 1) = v + 1 + i by omega, ← honly _ (by omega) (by omega)]
      exact hg

end FoliOS.Vellum.Mm
