import FoliOS.Strata.Paging.Entries

/-!
# Strata — page tables as a tree

The four levels of tables below a root are a radix tree of height 3: `look`
gives the entry that maps a page, at whatever level, and is what the kernel's
own walks compute (`walkPage_eq`). `Paged` collects what every address space
keeps between calls: no table is shared between two places of the tree, and
frames that may still be handed out for tables are not in use.
-/

namespace FoliOS.Strata.Paging

open Lib

variable {vpn w v : Nat}

/-- The table named by an entry at depth `d`; above the PDPT there are no huge pages. -/
def child (d : Nat) (e : Word) : Option Nat :=
  if isPresent e && (decide (d = 0) || !isHuge e) then some (frameOf e) else none

def path (vpn : Nat) : List (Fin 512) := [pml4Index vpn, pdptIndex vpn, pdIndex vpn, ptIndex vpn]

/-- The entry that maps a page, with its depth. -/
def State.look (s : State) (root vpn : Nat) : Option (Nat × Word) :=
  lookup child isPresent s.mem 0 root (path vpn)

/-- The table reached along a list of indices. -/
def State.tableAt (s : State) (root : Nat) (p : List (Fin 512)) : Option Nat :=
  Lib.tableAt child s.mem 0 root p

/-- The page bits below an entry at depth `d`. -/
def pageMask : Nat → Nat
  | 1 => 0x3FFFF
  | 2 => 0x1FF
  | _ => 0

/-- Pages a virtual address can lie in: the two halves around the hole. -/
def Canonical (vpn : Nat) : Prop := vpn < pml4HoleStart ∨ (pml4HoleEnd < vpn ∧ vpn ≤ virtPageMax)

theorem child_zero (e : Word) : child 0 e = if isPresent e then some (frameOf e) else none := by
  simp [child]

theorem child_succ (d : Nat) (e : Word) :
    child (d + 1) e = if isPresent e && !isHuge e then some (frameOf e) else none := by
  simp [child]

theorem child_blank (d : Nat) : child d 0 = none := by
  rfl

theorem walkPage_eq (s : State) (root : Nat) (hv : Canonical vpn) :
    walkPage s root vpn =
      match s.look root vpn with
      | some (d, e) => .ok (e, pageMask d)
      | none => .error .pageNotPresent := by
  have hmax : ¬vpn > virtPageMax := by
    simp only [Canonical, pml4HoleStart, virtPageMax] at *
    omega
  have hhole : ¬(pml4HoleStart ≤ vpn ∧ vpn ≤ pml4HoleEnd) := by
    simp only [Canonical] at hv
    omega
  unfold walkPage State.look path
  rw [if_neg hmax, if_neg hhole]
  simp only [lookup, List.isEmpty_cons, List.isEmpty_nil, Bool.false_eq_true, if_false, if_true,
    child_zero, child_succ, Nat.zero_add]
  generalize s.mem root (pml4Index vpn) = e4
  cases h4 : isPresent e4 with
  | false => simp
  | true =>
    simp only [Bool.not_true, Bool.false_eq_true, if_false, if_true]
    generalize s.mem (frameOf e4) (pdptIndex vpn) = e3
    cases h3 : isPresent e3 with
    | false => simp
    | true =>
      cases h3' : isHuge e3 with
      | true => simp [pageMask]
      | false =>
        simp only [Bool.not_true, Bool.not_false, Bool.and_self, Bool.false_eq_true, if_false,
          if_true]
        generalize s.mem (frameOf e3) (pdIndex vpn) = e2
        cases h2 : isPresent e2 with
        | false => simp
        | true =>
          cases h2' : isHuge e2 with
          | true => simp [pageMask]
          | false =>
            simp only [Bool.not_true, Bool.not_false, Bool.and_self, Bool.false_eq_true, if_false,
              if_true]
            generalize s.mem (frameOf e2) (ptIndex vpn) = e1
            cases h1 : isPresent e1 <;> simp [pageMask]

theorem walkPage_of_not_canonical (s : State) (root : Nat) (hv : ¬Canonical vpn) :
    ∃ st, walkPage s root vpn = .error st := by
  unfold walkPage
  by_cases hmax : vpn > virtPageMax
  · exact ⟨_, if_pos hmax⟩
  · rw [if_neg hmax, if_pos ?_]
    · exact ⟨_, rfl⟩
    · simp only [Canonical] at hv
      omega

/-- The partial map from pages to frames and flags that the tables stand for. -/
def pageMap (env : Env) (s : State) (root vpn : Nat) : Option (Nat × MapFlags) :=
  match vpnToPfn s root vpn, vpnToPageMapFlags env s root vpn with
  | .ok pfn, .ok mf => some (pfn, mf)
  | _, _ => none

/-- What an entry at depth `d` maps a page to. -/
def decode (env : Env) (vpn : Nat) (x : Nat × Word) : Nat × MapFlags :=
  (frameOf x.2 + (vpn &&& pageMask x.1), pteToMapflags env.hasNx x.2)

theorem pageMap_eq (env : Env) (s : State) (root : Nat) (hv : Canonical vpn) :
    pageMap env s root vpn = (s.look root vpn).map (decode env vpn) := by
  unfold pageMap vpnToPfn vpnToPageMapFlags
  rw [walkPage_eq s root hv]
  cases s.look root vpn with
  | none => rfl
  | some x => rfl

theorem pageMap_of_not_canonical (env : Env) (s : State) (root : Nat) (hv : ¬Canonical vpn) :
    pageMap env s root vpn = none := by
  obtain ⟨st, h⟩ := walkPage_of_not_canonical s root hv
  unfold pageMap vpnToPfn
  rw [h]
  rfl

/-! ## Paths -/

@[simp] theorem length_path (vpn : Nat) : (path vpn).length = 3 + 1 := rfl

/-- A page range inside one half, short of the last page below the hole. -/
def ValidRange (vpn count : Nat) : Prop :=
  vpn + count < pml4HoleStart ∨ (pml4HoleEnd < vpn ∧ vpn + count ≤ virtPageMax + 1)

theorem ValidRange.canonical {count : Nat} (h : ValidRange vpn count) (h1 : vpn ≤ w)
    (h2 : w < vpn + count) : Canonical w := by
  simp only [ValidRange, Canonical, pml4HoleStart, pml4HoleEnd, virtPageMax] at *
  omega

/-- Canonical pages are told apart by their indices. -/
theorem path_inj (hv : Canonical v) (hw : Canonical w) (h : path v = path w) : v = w := by
  simp only [path, List.cons.injEq, and_true, pml4Index, pdptIndex, pdIndex, ptIndex, Fin.ext_iff,
    Fin.val_ofNat] at h
  simp only [Canonical, pml4HoleStart, pml4HoleEnd, virtPageMax] at hv hw
  omega

/-- Within a page table, the path of the `k`-th next page differs in the last index only. -/
theorem path_add {k : Nat} (h : (ptIndex v).val + k < 512) :
    path (v + k) =
      [pml4Index v, pdptIndex v, pdIndex v] ++ [Fin.ofNat 512 ((ptIndex v).val + k)] := by
  simp only [ptIndex, Fin.val_ofNat] at h
  simp only [path, List.cons_append, List.nil_append, List.cons.injEq, and_true, pml4Index,
    pdptIndex, pdIndex, ptIndex, Fin.ext_iff, Fin.val_ofNat]
  omega

/-! ## What an address space keeps between calls -/

/-- Frames that a later call may take for a table. -/
def Available (env : Env) (s : State) (f : Nat) : Prop :=
  f ∈ s.cache ∨ f ∈ s.quarantine ∨ ∃ k, s.pulls ≤ k ∧ env.supply k = .ok f

/-- The page tables below `root` are a tree, and the frames still to be handed out
for tables are distinct, unused and no tables; `used` holds the frames in use for
other purposes. -/
structure Paged (env : Env) (used : Nat → Prop) (root : Nat) (s : State) : Prop where
  tree    : IsTree child s.mem 3 root
  off     : ∀ f, Available env s f → ∀ p, p.length ≤ 3 → s.tableAt root p ≠ some f
  unused  : ∀ f, Available env s f → ¬used f
  small   : ∀ f, Available env s f → f < 2 ^ 40
  nodup   : (s.cache ++ s.quarantine).Nodup
  apart   : ∀ k f, s.pulls ≤ k → env.supply k = .ok f → f ∉ s.cache ∧ f ∉ s.quarantine
  once    : ∀ j k f, s.pulls ≤ j → s.pulls ≤ k → env.supply j = .ok f → env.supply k = .ok f → j = k
  failure : ∀ k e, env.supply k = .error e → checkSuccess e = false

/-- An operation that changes the entries of the `n` pages from `vpn` on by `g`, and
maps every other page as before. -/
structure Effect (env : Env) (used : Nat → Prop) (root : Nat) (s s' : State) (vpn n : Nat)
    (g : Nat → Option (Nat × Word) → Option (Nat × Word)) : Prop where
  ok     : Paged env used root s'
  look   : ∀ w, Canonical w → s'.look root w =
             if vpn ≤ w ∧ w < vpn + n then g w (s.look root w) else s.look root w
  tables : ∀ p f, p.length ≤ 3 → s'.tableAt root p = some f →
             (∃ q, q.length ≤ 3 ∧ s.tableAt root q = some f) ∨ ¬used f
  keeps  : ∀ p f, p.length ≤ 3 → s.tableAt root p = some f → s'.tableAt root p = some f

section Effect

variable {env : Env} {used : Nat → Prop} {root vpn n k : Nat} {s s1 s2 : State}
  {g : Nat → Option (Nat × Word) → Option (Nat × Word)}

section

variable (h : Paged env used root s1) (hlook : ∀ w, s1.look root w = s.look root w)
include h hlook

theorem Effect.none_of
    (htab : ∀ p f, p.length ≤ 3 → s1.tableAt root p = some f →
      (∃ q, q.length ≤ 3 ∧ s.tableAt root q = some f) ∨ ¬used f)
    (hkeeps : ∀ p f, p.length ≤ 3 → s.tableAt root p = some f → s1.tableAt root p = some f) :
    Effect env used root s s1 vpn 0 g := by
  refine ⟨h, fun w _ => ?_, htab, hkeeps⟩
  rw [if_neg (by omega), hlook]

/-- An update that leaves all tables where they are. -/
theorem Effect.same_tables (htab : ∀ p, p.length ≤ 3 → s1.tableAt root p = s.tableAt root p) :
    Effect env used root s s1 vpn 0 g :=
  .none_of h hlook (fun p _ hp hf => .inl ⟨p, hp, (htab p hp).symm.trans hf⟩)
    fun p _ hp hf => (htab p hp).trans hf

end

theorem Effect.refl (h : Paged env used root s) : Effect env used root s s vpn 0 g :=
  .same_tables h (fun _ => rfl) fun _ _ => rfl

section

variable (h : Effect env used root s s1 vpn n g)
include h

/-- Effects on adjacent page ranges compose. -/
theorem Effect.trans (h' : Effect env used root s1 s2 (vpn + n) k g) :
    Effect env used root s s2 vpn (n + k) g := by
  refine ⟨h'.ok, fun w hw => ?_, fun p f hp hf => ?_,
    fun p f hp hf => h'.keeps p f hp (h.keeps p f hp hf)⟩
  · rw [h'.look w hw, h.look w hw]
    by_cases h1 : vpn ≤ w ∧ w < vpn + n
    · rw [if_neg (by omega), if_pos h1, if_pos (by omega)]
    · rw [if_neg h1]
      by_cases h2 : vpn + n ≤ w ∧ w < vpn + n + k
      · rw [if_pos h2, if_pos (by omega)]
      · rw [if_neg h2, if_neg (by omega)]
  · rcases h'.tables p f hp hf with ⟨q, hq, hf'⟩ | hu
    · exact h.tables q f hq hf'
    · exact .inr hu

theorem Effect.congr {g' : Nat → Option (Nat × Word) → Option (Nat × Word)}
    (hg : ∀ w x, vpn ≤ w → w < vpn + n → g' w x = g w x) : Effect env used root s s1 vpn n g' := by
  refine ⟨h.ok, fun w hw => ?_, h.tables, h.keeps⟩
  rw [h.look w hw]
  split
  · rename_i hin
    rw [hg w _ hin.1 hin.2]
  · rfl

/-- Frames in use that are no tables do not become tables. -/
theorem Effect.notTable {f : Nat} (hu : used f) (hf : ∀ p, p.length ≤ 3 →
      s.tableAt root p ≠ some f) :
    ∀ p, p.length ≤ 3 → s1.tableAt root p ≠ some f := by
  intro p hp heq
  rcases h.tables p f hp heq with ⟨q, hq, hf'⟩ | hn
  · exact hf q hq hf'
  · exact hn hu

end

end Effect

/-! ## Updates outside the tables -/

section Outside

variable {env : Env} {used : Nat → Prop} {root : Nat} {s s' : State}

/-- Only frames that hold no table were written, and no frame became available. -/
theorem Paged.of_agree (h : Paged env used root s)
    (hmem : ∀ q t, q.length ≤ 3 → s.tableAt root q = some t → ∀ j, s'.mem t j = s.mem t j)
    (hcache : s'.cache = s.cache) (hquar : s'.quarantine = s.quarantine)
    (hpulls : s.pulls ≤ s'.pulls) : Paged env used root s' := by
  have havail : ∀ f, Available env s' f → Available env s f := by
    rintro f (hf | hf | ⟨k, hk, hf⟩)
    · exact .inl (hcache ▸ hf)
    · exact .inr (.inl (hquar ▸ hf))
    · exact .inr (.inr ⟨k, by omega, hf⟩)
  have htab : ∀ q, q.length ≤ 3 → s'.tableAt root q = s.tableAt root q := fun q hq =>
    tableAt_of_agree hmem hq
  refine ⟨fun p q f hp hq hf hf' => ?_, fun f hf p hp => ?_, fun f hf => h.unused f (havail f hf),
    fun f hf => h.small f (havail f hf), ?_, fun k f hk hf => ?_, fun j k f hj hk => ?_, h.failure⟩
  · exact h.tree p q f hp hq ((htab p hp).symm.trans hf) ((htab q hq).symm.trans hf')
  · rw [htab p hp]
    exact h.off f (havail f hf) p hp
  · rw [hcache, hquar]
    exact h.nodup
  · rw [hcache, hquar]
    exact h.apart k f (by omega) hf
  · exact h.once j k f (by omega) (by omega)

theorem look_of_agree
    (hmem : ∀ q t, q.length ≤ 3 → s.tableAt root q = some t → ∀ j, s'.mem t j = s.mem t j)
    (vpn : Nat) : s'.look root vpn = s.look root vpn :=
  lookup_of_agree hmem (length_path vpn)

theorem Paged.preempt (h : Paged env used root s) (n : Int) :
    Paged env used root { s with preempt := n } :=
  h.of_agree (fun _ _ _ _ _ => rfl) rfl rfl le_rfl

/-- Ending the quarantine moves frames between two lists of available ones. -/
theorem Paged.release (h : Paged env used root s) :
    Paged env used root (releaseQuarantinedPageTableFrames s) := by
  have havail : ∀ f, Available env (releaseQuarantinedPageTableFrames s) f → Available env s f := by
    rintro f (hf | hf | hf)
    · rcases List.mem_append.mp hf with hf | hf
      · exact .inr (.inl hf)
      · exact .inl hf
    · simp [releaseQuarantinedPageTableFrames] at hf
    · exact .inr (.inr hf)
  refine ⟨h.tree, fun f hf => h.off f (havail f hf), fun f hf => h.unused f (havail f hf),
    fun f hf => h.small f (havail f hf), ?_, fun k f hk hf => ?_, h.once, h.failure⟩
  · show (s.quarantine ++ s.cache ++ []).Nodup
    rw [List.append_nil]
    exact List.nodup_append_comm.mp h.nodup
  · obtain ⟨h1, h2⟩ := h.apart k f hk hf
    refine ⟨fun hmem => ?_, by simp [releaseQuarantinedPageTableFrames]⟩
    rcases List.mem_append.mp hmem with hm | hm
    · exact h2 hm
    · exact h1 hm

end Outside

end FoliOS.Strata.Paging
