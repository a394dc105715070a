import FoliOS.Strata.Basic
import Mathlib.Data.List.Induction
import Mathlib.Data.List.Pairwise
import Mathlib.Data.Set.Lattice
import Mathlib.Order.CompletePartialOrder

/-!
# Interfaces of a node (`gnt/interface.c`)

A node lists its interfaces in the order of their registration. No function id is stored: a query
adds up the spans in front of the interface it finds. `queryInterface_history` says what the
callers see of that, over every history of registrations.

The list from `interface_head` to `interface_tail` is a `List`; what the pool answers is part of a
call.
-/

namespace FoliOS.Strata.Gnt

/-! ## The code -/

/-- `struct StUuid` -/
abbrev Uuid := Vector UInt8 16

/-- `struct StGnt_NodeInterface` -/
structure NodeInterface where
  uuid       : Uuid
  abiVersion : UInt32
  funcidSpan : UInt32

/-- The arguments of a call of `StGnt_RegisterInterface`, and the status of its allocation. -/
structure Registration where
  ifUuid     : Option Uuid
  abiVersion : UInt32
  funcidSpan : UInt32
  pool       : StStatus

/-- `StGnt_RegisterInterface` -/
def stGntRegisterInterface (entries : List NodeInterface) (call : Registration) :
    StStatus × List NodeInterface :=
  match call.ifUuid with
  | none => (.invalidValue, entries)
  | some uuid =>
    if call.funcidSpan = 0 then (.invalidValue, entries)
    else
      match entries.find? fun e => e.uuid = uuid ∧ e.abiVersion = call.abiVersion with
      | some e => (if e.funcidSpan ≠ call.funcidSpan then .conflictingState else .success, entries)
      | none =>
        if !checkSuccess call.pool then (call.pool, entries)
        else (.success, entries ++ [⟨uuid, call.abiVersion, call.funcidSpan⟩])

/-- The loop of `StGnt_QueryInterface`: `matched` is the base and the version found so far. -/
def queryLoop (uuid : Uuid) (request : UInt32) :
    List NodeInterface → UInt32 → Option (UInt32 × UInt32) → Option (UInt32 × UInt32)
  | [], _, matched => matched
  | e :: entries, funcidBase, matched =>
    queryLoop uuid request entries (funcidBase + e.funcidSpan)
      (if e.uuid = uuid ∧ e.abiVersion ≤ request ∧ matched.all (·.2 < e.abiVersion) then
        some (funcidBase, e.abiVersion)
      else matched)

/-- `StGnt_QueryInterface`: the base and the version. -/
def stGntQueryInterface (node : Option (List NodeInterface)) (ifUuid : Option Uuid)
    (request : UInt32) :
    Except StStatus (UInt32 × UInt32) :=
  match node, ifUuid with
  | some entries, some uuid => (queryLoop uuid request entries 0 none).elim
      (.error .notSupported) .ok
  | _, _ => .error .invalidValue

/-- The interfaces of a node after a history of registrations. -/
def registerAll (calls : List Registration) : List NodeInterface :=
  calls.foldl (fun entries call => (stGntRegisterInterface entries call).2) []

/-- A call of the history registered the interface, or found it registered. -/
def Registered (calls : List Registration) (e : NodeInterface) : Prop :=
  ∃ before call after, calls = before ++ call :: after ∧
    (stGntRegisterInterface (registerAll before) call).1 = .success ∧
    call.ifUuid = some e.uuid ∧ call.abiVersion = e.abiVersion ∧ call.funcidSpan = e.funcidSpan

def spanSum : List NodeInterface → Nat
  | [] => 0
  | e :: entries => e.funcidSpan.toNat + spanSum entries

/-- The function ids of an interface with the given base. -/
def NodeInterface.funcids (e : NodeInterface) (base : UInt32) : Set Nat :=
  Set.Ico base.toNat (base.toNat + e.funcidSpan.toNat)

variable {calls later : List Registration} {call : Registration} {entries : List NodeInterface}
  {e e' : NodeInterface} {uuid : Uuid} {request base v : UInt32}

/-! ## Registration -/

/-- What a registration does: it leaves the list alone, and then a success has found the interface
there; or it appends an interface that is not there yet, under any span. -/
theorem register_cases (entries : List NodeInterface) (call : Registration) :
    ((stGntRegisterInterface entries call).2 = entries ∧
      ((stGntRegisterInterface entries call).1 = .success → ∃ e ∈ entries,
        call.ifUuid = some e.uuid ∧ call.abiVersion = e.abiVersion ∧
        call.funcidSpan = e.funcidSpan)) ∨
    ∃ e, stGntRegisterInterface entries call = (.success, entries ++ [e]) ∧
      call.ifUuid = some e.uuid ∧ call.abiVersion = e.abiVersion ∧ call.funcidSpan = e.funcidSpan ∧
      ∀ e' ∈ entries, ¬(e'.uuid = e.uuid ∧ e'.abiVersion = e.abiVersion) := by
  unfold stGntRegisterInterface
  split
  next => exact .inl ⟨rfl, fun h => by cases h⟩
  next uuid huuid =>
    split
    next => exact .inl ⟨rfl, fun h => by cases h⟩
    split
    next e hfind =>
      have hkey := List.find?_some hfind
      simp only [Bool.decide_and, Bool.and_eq_true, decide_eq_true_eq] at hkey
      refine .inl ⟨rfl, fun h => ⟨e, List.mem_of_find?_eq_some hfind, ?_⟩⟩
      by_cases hspan : e.funcidSpan = call.funcidSpan
      · exact ⟨by rw [huuid, hkey.1], hkey.2.symm, hspan.symm⟩
      · rw [if_pos hspan] at h
        cases h
    next hfind =>
      split
      next hpool =>
        refine .inl ⟨rfl, fun h => ?_⟩
        rw [show call.pool = .success from h] at hpool
        cases hpool
      next =>
        refine .inr ⟨_, rfl, huuid, rfl, rfl, fun e' he' hkey => ?_⟩
        exact List.find?_eq_none.mp hfind e' he' (decide_eq_true hkey)

theorem registerAll_concat (calls : List Registration) (call : Registration) :
    registerAll (calls ++ [call]) = (stGntRegisterInterface (registerAll calls) call).2 := by
  rw [registerAll, List.foldl_append, List.foldl_cons, List.foldl_nil, registerAll]

/-- Later registrations only append. -/
theorem registerAll_append (calls later : List Registration) :
    registerAll calls <+: registerAll (calls ++ later) := by
  induction later using List.reverseRecOn with
  | nil => simp
  | append_singleton later call ih =>
    rw [← List.append_assoc, registerAll_concat]
    rcases register_cases (registerAll (calls ++ later)) call with ⟨hsame, -⟩ | ⟨e, heq, -⟩
    · rw [hsame]
      exact ih
    · rw [heq]
      exact ih.trans (List.prefix_append _ _)

/-- The list holds what the history registered. -/
theorem registered_iff : Registered calls e ↔ e ∈ registerAll calls := by
  constructor
  · rintro ⟨before, call, after, rfl, hok, huuid, hver, hspan⟩
    have hsub := registerAll_append (before ++ [call]) after
    rw [List.append_assoc, List.singleton_append, registerAll_concat] at hsub
    refine hsub.subset ?_
    -- the interface with the arguments of the call is unique
    have hsame : ∀ x : NodeInterface, call.ifUuid = some x.uuid ∧ call.abiVersion = x.abiVersion ∧
        call.funcidSpan = x.funcidSpan → e = x := by
      rintro ⟨u, w, n⟩ ⟨hu, hw, hn⟩
      cases huuid.symm.trans hu
      obtain rfl := hver.symm.trans hw
      obtain rfl := hspan.symm.trans hn
      rfl
    rcases register_cases (registerAll before) call with ⟨heq, hfound⟩ | ⟨x, heq, hu, hw, hn, -⟩
    · obtain ⟨x, hx, hargs⟩ := hfound hok
      rw [heq, hsame x hargs]
      exact hx
    · rw [heq, hsame x ⟨hu, hw, hn⟩]
      exact List.mem_append_right _ (List.mem_singleton_self x)
  · intro he
    induction calls using List.reverseRecOn with
    | nil => cases he
    | append_singleton calls call ih =>
      have hold : e ∈ registerAll calls → Registered (calls ++ [call]) e := by
        intro h
        obtain ⟨before, c, after, rfl, hc⟩ := ih h
        exact ⟨before, c, after ++ [call], by simp, hc⟩
      rw [registerAll_concat] at he
      rcases register_cases (registerAll calls) call with ⟨heq, -⟩ | ⟨x, heq, hu, hw, hn, -⟩
      · exact hold (heq ▸ he)
      · rw [heq] at he
        rcases List.mem_append.mp he with he | he
        · exact hold he
        · obtain rfl := List.mem_singleton.mp he
          exact ⟨calls, call, [], rfl, by rw [heq], hu, hw, hn⟩

/-- No two interfaces of a node have the same uuid and version. -/
theorem registerAll_distinct (calls : List Registration) :
    (registerAll calls).Pairwise fun e e' =>
      ¬(e.uuid = e'.uuid ∧ e.abiVersion = e'.abiVersion) := by
  induction calls using List.reverseRecOn with
  | nil => exact List.Pairwise.nil
  | append_singleton calls call ih =>
    rw [registerAll_concat]
    rcases register_cases (registerAll calls) call with ⟨heq, -⟩ | ⟨e, heq, -, -, -, hnew⟩
    · rw [heq]
      exact ih
    · rw [heq]
      refine List.pairwise_append.mpr ⟨ih, List.pairwise_singleton _ _, fun x hx y hy => ?_⟩
      rw [List.mem_singleton.mp hy]
      exact hnew x hx

/-! ## Queries -/

/-- The entries with their bases: `funcid_base` when the loop comes to them. -/
def withBases : List NodeInterface → UInt32 → List (NodeInterface × UInt32)
  | [], _ => []
  | e :: entries, base => (e, base) :: withBases entries (base + e.funcidSpan)

theorem withBases_fst : ∀ (entries : List NodeInterface) (start : UInt32),
    (withBases entries start).map Prod.fst = entries
  | [], _ => rfl
  | e :: entries, _ => congrArg (e :: ·) (withBases_fst entries _)

/-- An entry that is appended leaves the others their bases. -/
theorem withBases_extends (l l' : List NodeInterface) : ∀ start : UInt32,
    withBases l start <+: withBases (l ++ l') start := by
  induction l with
  | nil => exact fun start => List.nil_prefix
  | cons e l ih => exact fun start => List.cons_prefix_cons.mpr ⟨rfl, ih _⟩

/-- Two entries differ in uuid or version, and have no function id in common. -/
def Apart (x y : NodeInterface × UInt32) : Prop :=
  ¬(x.1.uuid = y.1.uuid ∧ x.1.abiVersion = y.1.abiVersion) ∧
  Disjoint (x.1.funcids x.2) (y.1.funcids y.2)

instance : Std.Symm Apart :=
  ⟨fun _ _ h => ⟨fun hkey => h.1 ⟨hkey.1.symm, hkey.2.symm⟩, h.2.symm⟩⟩

/-- With fewer than `2 ^ 32` ids no base wraps. -/
theorem le_of_mem_withBases (entries : List NodeInterface) : ∀ start : UInt32,
    start.toNat + spanSum entries < 2 ^ 32 → ∀ x ∈ withBases entries start,
    start.toNat ≤ x.2.toNat := by
  induction entries with
  | nil => exact fun start _ x hx => absurd hx List.not_mem_nil
  | cons e entries ih =>
    intro start hspan x hx
    rw [spanSum] at hspan
    have hnext : (start + e.funcidSpan).toNat = start.toNat + e.funcidSpan.toNat := by
      rw [UInt32.toNat_add, Nat.mod_eq_of_lt (by omega)]
    rcases List.mem_cons.mp hx with rfl | hx
    · exact Nat.le_refl _
    · have := ih _ (by omega) x hx
      omega

theorem withBases_apart : ∀ start : UInt32, start.toNat + spanSum entries < 2 ^ 32 →
    (entries.Pairwise fun e e' => ¬(e.uuid = e'.uuid ∧ e.abiVersion = e'.abiVersion)) →
    (withBases entries start).Pairwise Apart := by
  induction entries with
  | nil => exact fun start _ _ => List.Pairwise.nil
  | cons e entries ih =>
    intro start hspan hd
    rw [spanSum] at hspan
    obtain ⟨hfirst, hd⟩ := List.pairwise_cons.mp hd
    have hnext : (start + e.funcidSpan).toNat = start.toNat + e.funcidSpan.toNat := by
      rw [UInt32.toNat_add, Nat.mod_eq_of_lt (by omega)]
    refine List.pairwise_cons.mpr ⟨fun x hx => ⟨hfirst _ ?_, ?_⟩, ih _ (by omega) hd⟩
    · rw [← withBases_fst entries (start + e.funcidSpan)]
      exact List.mem_map_of_mem hx
    · -- the ids of the entry end where those behind it start
      have hle := le_of_mem_withBases entries _ (by omega) x hx
      refine Set.disjoint_left.mpr fun i hi hx => ?_
      have hlt := hi.2
      have hge := hx.1
      dsimp only at hlt
      omega

/-- What the loop of a query finds: nothing below a version that it passed or had, and only what it
had or what the entries hold. -/
theorem queryLoop_spec (uuid : Uuid) (request : UInt32) (entries : List NodeInterface) :
    ∀ (start : UInt32) (matched : Option (UInt32 × UInt32)),
      (∀ e ∈ entries, e.uuid = uuid → e.abiVersion ≤ request →
        ∃ r, queryLoop uuid request entries start matched = some r ∧ e.abiVersion ≤ r.2) ∧
      (∀ m, matched = some m →
        ∃ r, queryLoop uuid request entries start matched = some r ∧ m.2 ≤ r.2) ∧
      ∀ r, queryLoop uuid request entries start matched = some r → matched = some r ∨
        ∃ x ∈ withBases entries start, x.1.uuid = uuid ∧ x.1.abiVersion ≤ request ∧
        r = (x.2, x.1.abiVersion) := by
  induction entries with
  | nil =>
    refine fun start matched => ⟨fun e he => absurd he List.not_mem_nil, fun m hm => ?_,
      fun r hr => .inl hr⟩
    exact ⟨m, hm, UInt32.le_refl _⟩
  | cons e entries ih =>
    intro start matched
    rw [queryLoop]
    split
    next htake =>
      obtain ⟨huuid, hle, hall⟩ := htake
      obtain ⟨hin, hhad, honly⟩ := ih (start + e.funcidSpan) (some (start, e.abiVersion))
      obtain ⟨r, hr, hrle⟩ := hhad _ rfl
      refine ⟨fun x hx hxu hxle => ?_, fun m hm => ⟨r, hr, ?_⟩, fun r' hr' => .inr ?_⟩
      · rcases List.mem_cons.mp hx with rfl | hx
        · exact ⟨r, hr, hrle⟩
        · exact hin x hx hxu hxle
      · rw [hm, Option.all_some, decide_eq_true_eq] at hall
        exact UInt32.le_trans (UInt32.le_of_lt hall) hrle
      · rcases honly r' hr' with h | ⟨x, hx, hrest⟩
        · exact ⟨(e, start), List.mem_cons_self, huuid, hle, (Option.some.inj h).symm⟩
        · exact ⟨x, List.mem_cons_of_mem _ hx, hrest⟩
    next hskip =>
      obtain ⟨hin, hhad, honly⟩ := ih (start + e.funcidSpan) matched
      refine ⟨fun x hx hxu hxle => ?_, hhad, fun r' hr' => ?_⟩
      · rcases List.mem_cons.mp hx with rfl | hx
        · -- passed over for a version that is as high
          cases matched with
          | none => exact absurd ⟨hxu, hxle, rfl⟩ hskip
          | some m =>
            obtain ⟨r, hr, hrle⟩ := hhad m rfl
            have hge : ¬ m.2 < x.abiVersion := fun h => hskip ⟨hxu, hxle, decide_eq_true h⟩
            exact ⟨r, hr, UInt32.le_trans (UInt32.not_lt.mp hge) hrle⟩
        · exact hin x hx hxu hxle
      · rcases honly r' hr' with h | ⟨x, hx, hrest⟩
        · exact .inl h
        · exact .inr ⟨x, List.mem_cons_of_mem _ hx, hrest⟩

/-- **`StGnt_QueryInterface`** on a list: a refusal, with no version to offer, or the entry with the
greatest one, at its base. -/
theorem stGntQueryInterface_cases (entries : List NodeInterface) (uuid : Uuid) (request : UInt32) :
    (stGntQueryInterface (some entries) (some uuid) request = .error .notSupported ∧
      ∀ e ∈ entries, e.uuid = uuid → ¬ e.abiVersion ≤ request) ∨
    ∃ x ∈ withBases entries 0,
      stGntQueryInterface (some entries) (some uuid) request = .ok (x.2, x.1.abiVersion) ∧
      x.1.uuid = uuid ∧ x.1.abiVersion ≤ request ∧
      ∀ e ∈ entries, e.uuid = uuid → e.abiVersion ≤ request → e.abiVersion ≤ x.1.abiVersion := by
  obtain ⟨hin, -, honly⟩ := queryLoop_spec uuid request entries 0 none
  unfold stGntQueryInterface
  dsimp only
  cases hloop : queryLoop uuid request entries 0 none with
  | none =>
    refine .inl ⟨rfl, fun e he huuid hle => ?_⟩
    obtain ⟨r, hr, -⟩ := hin e he huuid hle
    rw [hloop] at hr
    cases hr
  | some r =>
    rcases honly _ hloop with h | ⟨x, hx, huuid, hle, rfl⟩
    · cases h
    · refine .inr ⟨x, hx, rfl, huuid, hle, fun e he hu hle' => ?_⟩
      obtain ⟨r, hr, hrle⟩ := hin e he hu hle'
      cases hloop.symm.trans hr
      exact hrle

theorem spanSum_append (l l' : List NodeInterface) :
    spanSum (l ++ l') = spanSum l + spanSum l' := by
  induction l with
  | nil => exact (Nat.zero_add _).symm
  | cons e l ih => rw [List.cons_append, spanSum, spanSum, ih, Nat.add_assoc]

/-! ## Histories -/

/-- What a history of registrations offers: of the versions of a uuid that it registered, a query
finds the greatest up to the request, and interfaces that are not the same have no id in common. -/
structure Offered (calls : List Registration) : Prop where
  found    :
      ∀ uuid request base v, stGntQueryInterface (some (registerAll calls)) (some uuid) request =
    .ok (base, v) → v ≤ request ∧ (∃ span, Registered calls ⟨uuid, v, span⟩) ∧
      ∀ w span, Registered calls ⟨uuid, w, span⟩ → w ≤ request → w ≤ v
  refused  :
      ∀ uuid request err, stGntQueryInterface (some (registerAll calls)) (some uuid) request =
    .error err → err = .notSupported ∧ ∀ w span, Registered calls ⟨uuid, w, span⟩ → ¬ w ≤ request
  disjoint : ∀ e e' request request' base base', Registered calls e → Registered calls e' →
    stGntQueryInterface (some (registerAll calls)) (some e.uuid) request =
      .ok (base, e.abiVersion) →
    stGntQueryInterface (some (registerAll calls)) (some e'.uuid) request' =
      .ok (base', e'.abiVersion) →
    ¬(e.uuid = e'.uuid ∧ e.abiVersion = e'.abiVersion) →
    Disjoint (e.funcids base) (e'.funcids base')

/-- Of the entries of a history, two that are not the same are apart. -/
theorem registerAll_apart (hspan : spanSum (registerAll calls) < 2 ^ 32) :
    ∀ ⦃x⦄, x ∈ withBases (registerAll calls) 0 → ∀ ⦃y⦄, y ∈ withBases (registerAll calls) 0 →
    x ≠ y → Apart x y :=
  (withBases_apart 0 (by simpa using hspan) (registerAll_distinct calls)).forall

/-- A query answers with the entry of its version. -/
theorem eq_of_query (hspan : spanSum (registerAll calls) < 2 ^ 32) {x : NodeInterface × UInt32}
    (hx : x ∈ withBases (registerAll calls) 0)
    (h : stGntQueryInterface (some (registerAll calls)) (some x.1.uuid) request =
      .ok (base, x.1.abiVersion)) :
    x.2 = base := by
  rcases stGntQueryInterface_cases (registerAll calls) x.1.uuid request with
    ⟨heq, -⟩ | ⟨y, hy, heq, huuid, -⟩ <;> rw [h] at heq
  · cases heq
  · obtain ⟨rfl, hver⟩ := Prod.mk.inj (Except.ok.inj heq)
    by_cases hxy : x = y
    · rw [hxy]
    · exact absurd ⟨huuid.symm, hver⟩ (registerAll_apart hspan hx hy hxy).1

theorem exists_mem_withBases (he : Registered calls e) :
    ∃ b, (e, b) ∈ withBases (registerAll calls) 0 := by
  rw [registered_iff, ← withBases_fst (registerAll calls) 0] at he
  obtain ⟨⟨x, b⟩, hx, rfl⟩ := List.mem_map.mp he
  exact ⟨b, hx⟩

theorem offered (calls : List Registration) (hspan : spanSum (registerAll calls) < 2 ^ 32) :
    Offered calls := by
  refine ⟨fun uuid request base v h => ?_, fun uuid request err h => ?_, ?_⟩
  · rcases stGntQueryInterface_cases (registerAll calls) uuid request with
      ⟨heq, -⟩ | ⟨x, hx, heq, rfl, hle, hmax⟩ <;> rw [h] at heq
    · cases heq
    · cases heq
      have hmem := List.mem_map_of_mem (f := Prod.fst) hx
      rw [withBases_fst] at hmem
      exact ⟨hle, ⟨x.1.funcidSpan, registered_iff.mpr hmem⟩,
        fun w span hw hle' => hmax _ (registered_iff.mp hw) rfl hle'⟩
  · rcases stGntQueryInterface_cases (registerAll calls) uuid request with
      ⟨heq, hnone⟩ | ⟨x, -, heq, -⟩ <;> rw [h] at heq
    · exact ⟨Except.error.inj heq, fun w span hw => hnone _ (registered_iff.mp hw) rfl⟩
    · cases heq
  · intro e e' request request' base base' he he' h h' hne
    obtain ⟨b, hb⟩ := exists_mem_withBases he
    obtain ⟨b', hb'⟩ := exists_mem_withBases he'
    obtain rfl : b = base := eq_of_query hspan hb h
    obtain rfl : b' = base' := eq_of_query hspan hb' h'
    refine (registerAll_apart hspan hb hb' fun h => hne ?_).2
    rw [(Prod.mk.inj h).1]
    exact ⟨rfl, rfl⟩

/-- **Histories of registrations.** As long as there are fewer than `2 ^ 32` function ids, queries
are answered as `Offered` says, and a base that was returned once is returned ever after: whatever
is registered later, refused or repeated, the version is still found there. -/
theorem queryInterface_history (calls later : List Registration)
    (hspan : spanSum (registerAll (calls ++ later)) < 2 ^ 32) :
    Offered calls ∧ ∀ uuid request base v,
      stGntQueryInterface (some (registerAll calls)) (some uuid) request = .ok (base, v) →
      stGntQueryInterface (some (registerAll (calls ++ later))) (some uuid) v = .ok (base, v) ∧
      ∀ request' base',
        stGntQueryInterface (some (registerAll (calls ++ later))) (some uuid) request' =
          .ok (base', v) → base' = base := by
  obtain ⟨more, hmore⟩ := registerAll_append calls later
  have hfew : spanSum (registerAll calls) < 2 ^ 32 := by
    rw [← hmore, spanSum_append] at hspan
    omega
  refine ⟨offered calls hfew, fun uuid request base v h => ?_⟩
  rcases stGntQueryInterface_cases (registerAll calls) uuid request with
    ⟨heq, -⟩ | ⟨x, hx, heq, rfl, -⟩ <;> rw [h] at heq
  · cases heq
  cases heq
  -- the entry stays in its place, and there is no other with its key
  have hstays : x ∈ withBases (registerAll (calls ++ later)) 0 :=
    hmore ▸ (withBases_extends (registerAll calls) more 0).subset hx
  have hmem := List.mem_map_of_mem (f := Prod.fst) hstays
  rw [withBases_fst] at hmem
  refine ⟨?_, fun request' base' h' => (eq_of_query hspan hstays h').symm⟩
  rcases stGntQueryInterface_cases (registerAll (calls ++ later)) x.1.uuid x.1.abiVersion with
    ⟨-, hnone⟩ | ⟨y, -, heq', -, hle, hmax⟩
  · exact absurd (UInt32.le_refl _) (hnone _ hmem rfl)
  · rw [UInt32.le_antisymm hle (hmax _ hmem rfl (UInt32.le_refl _))] at heq'
    rw [heq', eq_of_query hspan hstays heq']

/-- Two interfaces, a registration that is refused, and a second version of the first interface: the
other one keeps its base. -/
theorem queryInterface_history_kept :
    stGntQueryInterface (some (registerAll
      ([⟨some (Vector.replicate 16 1), 1, 4, .success⟩,
        ⟨some (Vector.replicate 16 2), 7, 3, .success⟩] ++
        [⟨some (Vector.replicate 16 1), 1, 9, .success⟩,
          ⟨some (Vector.replicate 16 1), 3, 9, .success⟩])))
      (some (Vector.replicate 16 2)) 7 = .ok (4, 7) :=
  ((queryInterface_history _ _ (by decide +kernel)).2 _ 9 4 7 (by decide +kernel)).1

end FoliOS.Strata.Gnt
