import FoliOS.Strata.Paging.Remap

/-!
# Strata — the page tables refine a partial map

`pageMap` reads the tables of an address space, through the kernel's own walks,
as a partial map from pages to frames and flags. A successful `map_memory`,
`remap_memory` or `unmap_memory` changes that map as it should, provided no page of
the range hides behind a huge page at a level the function does not check
(`Call.Covered.refines`); `unmap_huge_diverges` shows what happens otherwise. A call
that the argument checks turn away changes nothing: for `unmap_memory`, which has no
way to say so, that is right exactly if nothing is mapped in the range.
-/

namespace FoliOS.Strata.Paging

open Lib

/-- A call that changes the page tables. -/
inductive Call where
  | map (pfn vpn count : UInt64) (mf : MapFlags)
  | remap (vpn count : UInt64) (mf : MapFlags)
  | unmap (vpn count : UInt64)

/-- The state after a call that succeeds. -/
def Call.run (env : Env) (root : Nat) (s : State) : Call → Option State
  | .map pfn vpn count mf =>
    let r := mapMemory env s root pfn.toNat vpn.toNat count.toNat mf
    if checkSuccess r.1 then some r.2 else none
  | .remap vpn count mf =>
    let r := remapMemory env s root vpn.toNat count.toNat mf
    if checkSuccess r.1 then some r.2 else none
  | .unmap vpn count => unmapMemory env s root vpn.toNat count.toNat

def Call.vpn : Call → Nat
  | .map _ vpn _ _ | .remap vpn _ _ | .unmap vpn _ => vpn.toNat

def Call.count : Call → Nat
  | .map _ _ count _ | .remap _ count _ | .unmap _ count => count.toNat

/-- What a call is to do to the entry of a page of its range. -/
def Call.entry (hasNx : Bool) (w : Nat) (x : Option (Nat × MapFlags)) :
    Call → Option (Nat × MapFlags)
  | .map pfn vpn _ mf => some (pfn.toNat + (w - vpn.toNat), mf &&& visibleFlags hasNx)
  | .remap _ _ mf => x.map fun y => (y.1, mf &&& visibleFlags hasNx)
  | .unmap _ _ => none

/-- What a call is to do to the page map. -/
def Call.effect (hasNx : Bool) (c : Call) (m : Nat → Option (Nat × MapFlags)) (w : Nat) :
    Option (Nat × MapFlags) :=
  if c.vpn ≤ w ∧ w < c.vpn + c.count then c.entry hasNx w (m w) else m w

/-- The caller's side: mapped frames are physical ones, a frame to be cleared is in use and
no table, and global pages are mapped through the base address space. -/
def Call.Proper (env : Env) (used : Nat → Prop) (root : Nat) (s : State) : Call → Prop
  | .map pfn vpn count mf =>
    pfn.toNat + count.toNat ≤ 2 ^ 40 ∧
    (root = env.baseRoot ∨ vpn.toNat + count.toNat ≤ globalVpnBase) ∧
    (hasFlag mf mfZeroFill = true →
      ∀ k, k < count.toNat → Clearable used root s (pfn.toNat + k))
  | .remap _ _ _ | .unmap _ _ => True

/-- The state in which a call returns, with whatever status; `none` when it panics. -/
def Call.after (env : Env) (root : Nat) (s : State) : Call → Option State
  | .map pfn vpn count mf => some (mapMemory env s root pfn.toNat vpn.toNat count.toNat mf).2
  | .remap vpn count mf => some (remapMemory env s root vpn.toNat count.toNat mf).2
  | .unmap vpn count => unmapMemory env s root vpn.toNat count.toNat

/-- The argument checks turn the call away. -/
def Call.Rejected : Call → Prop
  | .map _ vpn count _ =>
    (vpn.toNat + count.toNat) % wordLimit > virtPageMax ∨
      (pml4HoleStart ≤ vpn.toNat ∧ vpn.toNat ≤ pml4HoleEnd) ∨ endsInHole vpn.toNat count.toNat
  | .remap vpn count _ | .unmap vpn count =>
    vpn.toNat > virtPageMax ∨ (pml4HoleStart ≤ vpn.toNat ∧ vpn.toNat ≤ pml4HoleEnd) ∨
      endsInHole vpn.toNat count.toNat

/-- The range lies in one half, and holds no huge page the function fails to check for. -/
def Call.Covered (root : Nat) (s : State) (c : Call) : Prop :=
  ValidRange c.vpn c.count ∧
  match c with
  | .map _ _ _ _ => True
  | .remap vpn count _ => NoHugePdpt root s vpn.toNat count.toNat
  | .unmap vpn count => OnlySmall root s vpn.toNat count.toNat

/-- Nothing is mapped in the range of an `unmap_memory`. -/
def Call.Idle (env : Env) (root : Nat) (s : State) : Call → Prop
  | .unmap vpn count =>
    ∀ w, vpn.toNat ≤ w → w < vpn.toNat + count.toNat → pageMap env s root w = none
  | .map _ _ _ _ | .remap _ _ _ => True

variable {env : Env} {used : Nat → Prop} {root : Nat} {s s' : State}

theorem Call.Rejected.same {c : Call} (h : c.Rejected) (hrun : c.after env root s = some s') :
    s' = s := by
  cases c with
  | map pfn vpn count mf =>
    rw [← Option.some.inj hrun, mapMemory, ite_checks]
    exact congrArg Prod.snd (if_pos h)
  | remap vpn count mf =>
    rw [← Option.some.inj hrun, remapMemory, ite_checks]
    exact congrArg Prod.snd (if_pos h)
  | unmap vpn count =>
    refine (Option.some.inj (Eq.trans ?_ hrun)).symm
    rw [Call.after, unmapMemory, ite_checks]
    exact (if_pos h).symm


/-- An effect on entries as the effect of a call on the page map. -/
theorem Effect.refines {c : Call} {g : Nat → Option (Nat × Word) → Option (Nat × Word)}
    (h : Effect env used root s s' c.vpn c.count g) (hrange : ValidRange c.vpn c.count)
    (hg : ∀ w x, c.vpn ≤ w → w < c.vpn + c.count →
      (g w x).map (decode env w) = c.entry env.hasNx w (x.map (decode env w))) :
    Paged env used root s' ∧
      ∀ w, pageMap env s' root w = c.effect env.hasNx (pageMap env s root) w := by
  refine ⟨h.ok, fun w => ?_⟩
  unfold Call.effect
  by_cases hw : Canonical w
  · rw [pageMap_eq env s' root hw, pageMap_eq env s root hw, h.look w hw]
    split
    · rename_i hin
      exact hg w _ hin.1 hin.2
    · rfl
  · have hout : ¬(c.vpn ≤ w ∧ w < c.vpn + c.count) := fun hin =>
      hw (hrange.canonical hin.1 hin.2)
    rw [if_neg hout, pageMap_of_not_canonical env s' root hw,
      pageMap_of_not_canonical env s root hw]

theorem decode_leaf (env : Env) (mf : MapFlags) {pfn : Nat} (hpfn : pfn < 2 ^ 40) (w d : Nat) :
    decode env w (d, withFrame (pteTemplate env.hasNx mf) pfn) =
      (pfn + (w &&& pageMask d), mf &&& visibleFlags env.hasNx) := by
  rw [decode, frameOf_withFrame _ hpfn, pteToMapflags_leaf env.hasNx mf hpfn]

theorem checkSuccess_of_some {α : Type} {st : StStatus} {a b : α}
    (h : (if checkSuccess st = true then some a else none) = some b) :
    checkSuccess st = true ∧ a = b := by
  split at h
  · rename_i hst
    exact ⟨hst, Option.some.inj h⟩
  · simp at h

/-- A call that succeeds returns. -/
theorem Call.after_of_run {c : Call} (hrun : c.run env root s = some s') :
    c.after env root s = some s' := by
  cases c with
  | map pfn vpn count mf => exact congrArg some (checkSuccess_of_some hrun).2
  | remap vpn count mf => exact congrArg some (checkSuccess_of_some hrun).2
  | unmap vpn count => exact hrun

/-- A call that the checks turn away is no success, unless it cannot tell. -/
theorem Call.Rejected.refines_iff {c : Call} (hrej : c.Rejected)
    (hrun : c.run env root s = some s') :
    (∀ w, pageMap env s' root w = c.effect env.hasNx (pageMap env s root) w) ↔
      c.Idle env root s := by
  rw [hrej.same (Call.after_of_run hrun)]
  cases c with
  | map pfn vpn count mf =>
    have hst := (checkSuccess_of_some hrun).1
    rw [mapMemory, ite_checks, if_pos (show _ ∨ _ ∨ _ from hrej)] at hst
    cases hst
  | remap vpn count mf =>
    have hst := (checkSuccess_of_some hrun).1
    rw [remapMemory, ite_checks, if_pos (show _ ∨ _ ∨ _ from hrej)] at hst
    cases hst
  | unmap vpn count =>
    constructor
    · intro heff w hle hlt
      rw [heff w]
      exact if_pos ⟨hle, hlt⟩
    · intro hidle w
      unfold Call.effect
      split
      next hin => exact hidle w hin.1 hin.2
      next => rfl

/-- **Refinement.** A successful call that is covered changes the page map as it
should, and leaves the tables in order for the next one. -/
theorem Call.Covered.refines (c : Call) (h : Paged env used root s) (hp : c.Proper env used root s)
    (hc : c.Covered root s) (hrun : c.run env root s = some s') :
    Paged env used root s' ∧
      ∀ w, pageMap env s' root w = c.effect env.hasNx (pageMap env s root) w := by
  cases c with
  | map pfn vpn count mf =>
    obtain ⟨hpfn, hroot, hclear⟩ := hp
    have hrange : ValidRange vpn.toNat count.toNat := hc.1
    obtain ⟨st, s1, j, heq, heff, hst⟩ := mapMemory_effect h mf hrange hpfn hroot hclear
    simp only [Call.run, heq] at hrun
    obtain ⟨hsucc, rfl⟩ := checkSuccess_of_some hrun
    have hj : j = count.toNat := by
      rcases hst with ⟨-, hj⟩ | ⟨hf, -⟩
      · exact hj
      · rw [hsucc] at hf
        simp at hf
    rw [hj] at heff
    refine Effect.refines (c := .map pfn vpn count mf) heff hrange fun w x hle hlt => ?_
    have hw : vpn.toNat ≤ w ∧ w < vpn.toNat + count.toNat := ⟨hle, hlt⟩
    rw [mapsTo, Option.map_some, decode_leaf env mf (by omega)]
    show some (_ + (w &&& 0), _) = some (_, _)
    rw [Nat.and_zero, Nat.add_zero]
  | remap vpn count mf =>
    obtain ⟨hsucc, rfl⟩ := checkSuccess_of_some hrun
    refine Effect.refines (c := .remap vpn count mf)
      (remapMemory_effect h mf hc.1 hc.2 hsucc) hc.1 fun w x _ _ => ?_
    cases x with
    | none => rfl
    | some y =>
      show some (decode env w (y.1, withFrame (pteTemplate env.hasNx mf) (frameOf y.2))) = _
      rw [decode_leaf env mf (frameOf_lt _)]
      rfl
  | unmap vpn count =>
    have heff := unmapMemory_effect h hc.1 hc.2 hrun
    exact Effect.refines (c := .unmap vpn count) heff hc.1 fun _ _ _ _ => rfl

/-- A PMM with no frames to hand out. -/
def bareEnv : Env where
  baseRoot := 1
  hasNx := true
  hasInvlpg := true
  supply _ := .error .insufficientMemory
  manyFree := false

/-- An empty address space, with three table frames in the cache. -/
def emptyState : State where
  mem _ _ := 0
  cache := [2, 3, 4]
  quarantine := []
  pulls := 0
  preempt := 0

theorem emptyState_paged : Paged bareEnv (fun _ => False) 1 emptyState := by
  have htables : ∀ p f, emptyState.tableAt 1 p = some f → p = [] ∧ f = 1 := by
    rintro (_ | ⟨i, p⟩) f hf
    · exact ⟨rfl, (Option.some.inj hf).symm⟩
    · exact absurd hf (by
        rw [State.tableAt, Lib.tableAt, show emptyState.mem 1 i = 0 from rfl, child_blank]
        simp)
  have havail : ∀ f, Available bareEnv emptyState f → f = 2 ∨ f = 3 ∨ f = 4 := by
    rintro f (hf | hf | ⟨k, -, hf⟩)
    · simpa [emptyState] using hf
    · simp [emptyState] at hf
    · simp [bareEnv] at hf
  refine ⟨fun p q f _ _ hp hq => ?_, fun f hf p _ hp => ?_, fun f _ hf => hf,
    fun f hf => ?_, by decide, fun k f _ hf => ?_, fun j k f _ _ hf => ?_, fun k e he => ?_⟩
  · rw [(htables p f hp).1, (htables q f hq).1]
  · have := havail f hf
    have := (htables p f hp).2
    omega
  · have := havail f hf
    omega
  · simp [bareEnv] at hf
  · simp [bareEnv] at hf
  · cases he
    rfl

/-! ## A call on a huge page -/

/-- The first page of the direct map. -/
def directMapVpn : UInt64 := 0xFFFFC00000000

/-- The direct map as the boot code builds it: root 1, a PDPT in frame 2, and in it a
1 GiB entry for the frames from 0x40000 on. The first frame of these happens to hold
what looks like an entry for frame 5, and that one an entry for frame 6. -/
def directMapState : State where
  mem f i :=
    if f = 1 ∧ i = 384 then 0x2003
    else if f = 2 ∧ i = 0 then 0x40000083
    else if f = 0x40000 ∧ i = 0 then 0x5003
    else if f = 5 ∧ i = 0 then 0x6003
    else 0
  cache := []
  quarantine := []
  pulls := 0
  preempt := 0

theorem directMapState_child (d f : Nat) (i : Fin 512) :
    child d (directMapState.mem f i) =
      if f = 1 ∧ i = 384 then some 2
      else if f = 2 ∧ i = 0 then if d = 0 then some 0x40000 else none
      else if f = 0x40000 ∧ i = 0 then some 5
      else if f = 5 ∧ i = 0 then some 6
      else none := by
  have hhuge : child d 0x40000083 = if d = 0 then some 0x40000 else none := by
    rw [child, show isPresent 0x40000083 = true by decide, show isHuge 0x40000083 = true by decide,
      show frameOf 0x40000083 = 0x40000 by decide]
    simp
  have htable : ∀ e, isPresent e = true → isHuge e = false → child d e = some (frameOf e) := by
    intro e hp hh
    rw [child, hp, hh]
    simp
  simp only [directMapState]
  split_ifs <;>
    first
      | exact child_blank d
      | exact hhuge.trans (by simp [*])
      | exact htable _ (by decide) (by decide)

/-- The only tables are the root and the PDPT of the direct map. -/
theorem directMapState_tables {p : List (Fin 512)} {f : Nat}
    (h : directMapState.tableAt 1 p = some f) : p = [] ∧ f = 1 ∨ p = [384] ∧ f = 2 := by
  rcases p with _ | ⟨i, _ | ⟨j, p⟩⟩
  · exact .inl ⟨rfl, (Option.some.inj h).symm⟩
  · simp only [State.tableAt, Lib.tableAt, directMapState_child] at h
    by_cases hi : i = 384
    · simp_all
    · simp [hi] at h
  · simp only [State.tableAt, Lib.tableAt, directMapState_child] at h
    by_cases hi : i = 384
    · simp [hi] at h
    · simp [hi] at h

theorem directMapState_paged : Paged bareEnv (fun _ => False) 1 directMapState := by
  have hnone : ∀ f, ¬Available bareEnv directMapState f := by
    rintro f (hf | hf | ⟨k, -, hf⟩) <;> simp [directMapState, bareEnv] at hf
  refine ⟨fun p q f _ _ hp hq => ?_, fun f hf => absurd hf (hnone f),
    fun f hf => absurd hf (hnone f), fun f hf => absurd hf (hnone f), List.nodup_nil,
    fun k f _ hf => ?_, fun j k f _ _ hf => ?_,
    fun k e he => ?_⟩
  · rcases directMapState_tables hp with ⟨rfl, rfl⟩ | ⟨rfl, rfl⟩ <;>
      rcases directMapState_tables hq with ⟨rfl, hf⟩ | ⟨rfl, hf⟩ <;> simp at hf ⊢
  · simp [bareEnv] at hf
  · simp [bareEnv] at hf
  · cases he
    rfl

/-- **A huge page stays mapped.** On the direct map `unmap_memory` takes the 1 GiB entry
for a table: it returns with the page still mapped, after clearing a word of frame 5. -/
theorem unmap_huge_diverges :
    Paged bareEnv (fun _ => False) 1 directMapState ∧
    (Call.unmap directMapVpn 1).Proper bareEnv (fun _ => False) 1 directMapState ∧
    ∃ s', (Call.unmap directMapVpn 1).run bareEnv 1 directMapState = some s' ∧
      pageMap bareEnv s' 1 directMapVpn.toNat ≠
        (Call.unmap directMapVpn 1).effect bareEnv.hasNx (pageMap bareEnv directMapState 1)
          directMapVpn.toNat := by
  refine ⟨directMapState_paged, trivial, ?_⟩
  have hrun : ((Call.unmap directMapVpn 1).run bareEnv 1 directMapState).map
      (fun s' => pageMap bareEnv s' 1 directMapVpn.toNat) = some (some (0x40000, mfWritable)) := by
    decide +kernel
  obtain ⟨s', hs', hmap⟩ := Option.map_eq_some_iff.mp hrun
  refine ⟨s', hs', ?_⟩
  rw [hmap, Call.effect, if_pos (by decide)]
  simp [Call.entry]

end FoliOS.Strata.Paging
