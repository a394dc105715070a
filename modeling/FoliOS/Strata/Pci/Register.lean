import FoliOS.Strata.Gnt.Tree
import FoliOS.Strata.Pci.Places

/-!
# The nodes `register_gnt_nodes` leaves

The callbacks of `register_gnt_nodes` all let the scan continue while the pool has memory, so the
tree they build is that of `places`: `Located` keeps, for every node made, where it is.

* `register_iff` — the scan ends exactly when no descent through bridges is endless; and on a tree
  of buses every present function has exactly one node, in its own place, exactly when nothing
  follows a bridge.
-/

namespace FoliOS.Strata.Pci

open Function

open Gnt (Addr Heap Node Tree typeDirectory typeLink)

variable {x d f : Nat} {v : Visit} {q : Place} {h h' : Heap} {p : Option Addr} {name n : List Nat}
  {m : Addr} {vs : List Visit} {b : UInt8}

/-! ## One callback -/

/-- The name a node gets from a zero-terminated one. -/
def storedName (name : List Nat) : List Nat :=
  name.take (min (Gnt.countUtf32Chars name (4 * Gnt.nodenameMax)) Gnt.nodenameMax)

/-- What the place of a node depends on, and its type. -/
def view (h : Heap) (m : Addr) : Option (Option Addr × List Nat × Nat) :=
  (h m).map fun nd => (nd.parent, nd.name, nd.type)

/-- A node that can get children. -/
def Usable (h : Heap) (p : Option Addr) : Prop :=
  ∀ a, p = some a → ∃ nd, h a = some nd ∧ nd.type ≠ typeLink

/-- The heap is a forest. -/
def IsForest (h : Heap) : Prop := ∃ kids held rank, Tree h kids held rank fun _ => False

/-- The pool hands out a different free block each time, from the `n`-th allocation on. -/
structure Supply (pool : Nat → Except StStatus Addr) (n : Nat) (h : Heap) : Prop where
  free     : ∀ k, n ≤ k → ∃ a, pool k = .ok a ∧ h a = none
  distinct : ∀ k k' a, n ≤ k → n ≤ k' → pool k = .ok a → pool k' = .ok a → k = k'

/-- A context of the callbacks. -/
structure Good (pool : Nat → Except StStatus Addr) (s : IterData) : Prop where
  forest : IsForest s.heap
  supply : Supply pool s.allocations s.heap
  root   : Usable s.heap s.pciRootNode
  bus    : Usable s.heap s.currentBusNode
  device : Usable s.heap s.currentDeviceNode
  status : s.status = .success

section Callbacks

variable {pool : Nat → Except StStatus Addr} {h h' : Heap} {s : IterData} {p : Option Addr}
  {a m : Addr} {name : List Nat}

theorem view_eq_none_iff : view h m = none ↔ h m = none := by
  simp [view]

theorem exists_of_view {nd : Node} (hview : view h' m = view h m) (hm : h m = some nd) :
    ∃ nd', h' m = some nd' ∧ nd'.parent = nd.parent ∧ nd'.name = nd.name ∧ nd'.type = nd.type := by
  obtain ⟨nd', hm', heq⟩ := Gnt.exists_of_map hview.symm hm
  simp only [Prod.mk.injEq] at heq
  exact ⟨nd', hm', heq⟩

theorem Usable.of_view (hp : Usable h p) (hview : ∀ a, p = some a → view h' a = view h a) :
    Usable h' p := by
  intro a ha
  obtain ⟨nd, hnd, hty⟩ := hp a ha
  obtain ⟨nd', hnd', -, -, hty'⟩ := exists_of_view (hview a ha) hnd
  exact ⟨nd', hnd', hty' ▸ hty⟩

/-- One node more: `a` was free and is a child of `p` now, all others are where they were. -/
structure Grown (h h' : Heap) (a : Addr) (p : Option Addr) (name : List Nat) : Prop where
  free  : h a = none
  node  : ∃ nd, h' a = some nd ∧ nd.parent = p ∧ nd.name = storedName name
  other : ∀ m, m ≠ a → view h' m = view h m

theorem Grown.ne (hg : Grown h h' a p name) {md : Node} (hm : h m = some md) : m ≠ a := by
  rintro rfl
  rw [hg.free] at hm
  cases hm

theorem Grown.usable {q : Option Addr} (hg : Grown h h' a p name) (hq : Usable h q) :
    Usable h' q := by
  refine hq.of_view fun m hm => ?_
  obtain ⟨nd, hnd, -⟩ := hq m hm
  exact hg.other m (hg.ne hnd)

theorem Grown.supply {n : Nat} (hg : Grown h h' a p name) (hs : Supply pool n h)
    (ha : pool n = .ok a) : Supply pool (n + 1) h' := by
  refine ⟨fun k hk => ?_, fun k k' b hk hk' => hs.distinct k k' b (by omega) (by omega)⟩
  obtain ⟨b, hb, hfree⟩ := hs.free k (by omega)
  have hba : b ≠ a := by
    rintro rfl
    have heq := hs.distinct k n b (by omega) le_rfl hb ha
    omega
  exact ⟨b, hb, view_eq_none_iff.mp ((hg.other b hba).trans (view_eq_none_iff.mpr hfree))⟩

/-- `StGnt_AddNode` under a usable node. -/
theorem addNode_grown (name : List Nat) (hf : IsForest h) (ha : h a = none) (hp : Usable h p) :
    ∃ h', Gnt.addNode (.ok a) p (some name) h = some (.success, some a, h') ∧ IsForest h' ∧
      Grown h h' a p name := by
  obtain ⟨kids, held, rank, ht⟩ := hf
  cases p with
  | none =>
    obtain ⟨hrun, ht'⟩ := ht.addRoot ha
    refine ⟨_, hrun, ⟨_, _, _, ht'⟩, ha, ⟨_, Heap.set_self _ _ _, ?_, rfl⟩, fun m hm => ?_⟩
    · exact (Gnt.newNode_fields none (some name)).2.1
    · simp only [view, Heap.set_of_ne hm]
  | some q =>
    obtain ⟨qd, hq, hty⟩ := hp q rfl
    obtain ⟨h', hrun, ht', hr⟩ : ∃ h', Gnt.addNode (.ok a) (some q) (some name) h =
        some (.success, some a, h') ∧ _ := ht.addNode ha hq hty id id
    refine ⟨h', hrun, ⟨_, _, _, ht'⟩, ha, ⟨_, hr.self, ?_, rfl⟩, fun m hm => ?_⟩
    · exact (Gnt.newNode_fields (some q) (some name)).2.1
    · cases hm' : h' m with
      | some md' =>
        obtain ⟨md, hmd, hpar, hty, hname, -⟩ := hr.back hq hm' hm
        simp [view, hm', hmd, hpar, hty, hname]
      | none =>
        cases hmd : h m with
        | none => simp [view, hm', hmd]
        | some md =>
          obtain ⟨md', hmd'⟩ := hr.forth hq hmd hm
          rw [hm'] at hmd'
          cases hmd'

/-- The new node becomes a directory. -/
theorem makeDirectory_grown (hf : IsForest h') (hg : Grown h h' a p name) :
    ∃ h'', makeDirectory (some a) h' = some h'' ∧ IsForest h'' ∧ Grown h h'' a p name ∧
      Usable h'' (some a) := by
  obtain ⟨kids, held, rank, ht⟩ := hf
  obtain ⟨nd, hnd, hpar, hname⟩ := hg.node
  refine ⟨h'.set a { nd with type := typeDirectory }, by simp [makeDirectory, hnd],
    ⟨kids, held, rank, ?_⟩, ⟨hg.free, ⟨_, Heap.set_self _ _ _, hpar, hname⟩, fun m hm => ?_⟩, ?_⟩
  · have hcounts := ht.counts hnd
    exact ht.store hnd rfl rfl (fun _ => ⟨rfl, rfl⟩)
      (fun h => absurd h (show typeDirectory ≠ typeLink by decide))
      hcounts
      (fun _ _ => rfl) (fun _ h => h) (fun _ h => Or.inl h)
  · rw [← hg.other m hm]
    simp only [view, Heap.set_of_ne hm]
  · rintro b ⟨⟩
    exact ⟨_, Heap.set_self _ _ _, show typeDirectory ≠ typeLink by decide⟩

theorem addIterNode_grown (name : List Nat) (hgood : Good pool s) (hp : Usable s.heap p) :
    ∃ a h', pool s.allocations = .ok a ∧ IsForest h' ∧ Grown s.heap h' a p name ∧
      addIterNode pool p name s =
        some (.ok (some a, { s with heap := h', allocations := s.allocations + 1 })) := by
  obtain ⟨a, ha, hfree⟩ := hgood.supply.free s.allocations le_rfl
  obtain ⟨h', hrun, hf, hg⟩ := addNode_grown name hgood.forest hfree hp
  exact ⟨a, h', ha, hf, hg, by simp [addIterNode, ha, hrun, checkSuccess]⟩

/-- The call of a callback for a visit. -/
def callback (pool : Nat → Except StStatus Addr) (v : Visit) (s : IterData) :
    Option (Decision × IterData) :=
  match v with
  | .bus b => iterateBus pool b s
  | .device b d => iterateDevice pool b d s
  | .function b d f => iterateFunction pool b d f s

/-- What a callback leaves. -/
def act (pool : Nat → Except StStatus Addr) (v : Visit) (s : IterData) : IterData :=
  ((callback pool v s).map Prod.snd).getD s

/-- The node a callback adds to. -/
def visitParent (s : IterData) : Visit → Option Addr
  | .bus _ => s.pciRootNode
  | .device _ _ => s.currentBusNode
  | .function _ _ _ => s.currentDeviceNode

/-- The name a callback gives. -/
def visitName : Visit → List Nat
  | .bus b => twoDigitName b.toNat
  | .device _ d => twoDigitName d
  | .function _ _ f => oneDigitName f

/-- What a callback does: one node more, which becomes current. -/
structure Acted (pool : Nat → Except StStatus Addr) (v : Visit) (s : IterData) (a : Addr) :
    Prop where
  result : callback pool v s = some (.proceed, act pool v s)
  good   : Good pool (act pool v s)
  grown  : Grown s.heap (act pool v s).heap a (visitParent s v) (visitName v)
  root   : (act pool v s).pciRootNode = s.pciRootNode
  bus    : (act pool v s).currentBusNode = if v.isBus then some a else s.currentBusNode
  device : (act pool v s).currentDeviceNode = if v.isDevice then some a else s.currentDeviceNode

theorem Acted.of_callback {t : IterData} (hcall : callback pool v s = some (.proceed, t))
    (hgood : Good pool t) (hg : Grown s.heap t.heap a (visitParent s v) (visitName v))
    (hroot : t.pciRootNode = s.pciRootNode)
    (hbus : t.currentBusNode = if v.isBus then some a else s.currentBusNode)
    (hdevice : t.currentDeviceNode = if v.isDevice then some a else s.currentDeviceNode) :
    Acted pool v s a := by
  obtain rfl : act pool v s = t := by simp [act, hcall]
  exact ⟨hcall, hgood, hg, hroot, hbus, hdevice⟩

theorem Good.parent (hgood : Good pool s) (v : Visit) : Usable s.heap (visitParent s v) := by
  cases v with
  | bus b => exact hgood.root
  | device b d => exact hgood.bus
  | function b d f => exact hgood.device

theorem exists_acted (hgood : Good pool s) (v : Visit) : ∃ a, Acted pool v s a := by
  obtain ⟨a, h', ha, hf, hg, hrun⟩ := addIterNode_grown (visitName v) hgood (hgood.parent v)
  obtain ⟨h'', hdir, hf', hg', husable⟩ := makeDirectory_grown hf hg
  have hsupply' := hg'.supply hgood.supply ha
  refine ⟨a, ?_⟩
  cases v with
  | bus b =>
    refine .of_callback (t := { s with
      heap := h'', allocations := s.allocations + 1, currentBusNode := some a }) ?_
      ⟨hf', hsupply', hg'.usable hgood.root, husable, hg'.usable hgood.device, hgood.status⟩ hg' rfl
        rfl rfl
    simp only [callback, iterateBus]
    rw [show addIterNode pool s.pciRootNode (twoDigitName b.toNat) s = _ from hrun]
    simp [hdir]
  | device b d =>
    refine .of_callback (t := { s with
      heap := h'', allocations := s.allocations + 1, currentDeviceNode := some a }) ?_
      ⟨hf', hsupply', hg'.usable hgood.root, hg'.usable hgood.bus, husable, hgood.status⟩ hg' rfl
        rfl rfl
    simp only [callback, iterateDevice]
    rw [show addIterNode pool s.currentBusNode (twoDigitName d) s = _ from hrun]
    simp [hdir]
  | function b d f =>
    refine .of_callback (t := { s with
      heap := h', allocations := s.allocations + 1, currentFunctionNode := some a }) ?_
      ⟨hf, hg.supply hgood.supply ha, hg.usable hgood.root, hg.usable hgood.bus,
        hg.usable hgood.device, hgood.status⟩ hg rfl rfl rfl
    simp only [callback, iterateFunction]
    rw [show addIterNode pool s.currentDeviceNode (oneDigitName f) s = _ from hrun]

theorem proceeds (pool : Nat → Except StStatus Addr) :
    Proceeds (gntCallbacks pool) (Good pool) (act pool) := by
  have hresult : ∀ v s, Good pool s → callback pool v s = some (.proceed, act pool v s) :=
    fun v s hgood => (exists_acted hgood v).elim fun a hact => hact.result
  exact ⟨⟨_, rfl, fun b => hresult (.bus b)⟩, ⟨_, rfl, fun b d => hresult (.device b d)⟩,
    ⟨_, rfl, fun b d f => hresult (.function b d f)⟩,
    fun v s hgood => (exists_acted hgood v).elim fun a hact => hact.good⟩

end Callbacks

/-! ## Names -/

/-- The number a stored name stands for. -/
def nameValue (name : List Nat) : Nat :=
  name.foldl (fun n c => 16 * n + if c < 58 then c - 48 else c - 55) 0

theorem nameValue_twoDigit : ∀ n < 256, nameValue (storedName (twoDigitName n)) = n := by
  decide +kernel

theorem nameValue_oneDigit : ∀ n < 16, nameValue (storedName (oneDigitName n)) = n := by
  decide +kernel

/-- The numbers a scan visits. -/
def Visit.InRange : Visit → Prop
  | .bus _ => True
  | .device _ d => d < 32
  | .function _ _ f => f < 8

/-- The name of the node with number `x` at a depth below the PCI node. -/
def nameAt (depth x : Nat) : List Nat :=
  storedName (if depth < 2 then twoDigitName x else oneDigitName x)

/-- The numbers at a depth. -/
def limitAt (depth : Nat) : Nat := if depth < 2 then 256 else 16

theorem nameAt_inj {depth y : Nat} (hx : x < limitAt depth) (hy : y < limitAt depth)
    (h : nameAt depth x = nameAt depth y) : x = y := by
  have hvalue := congrArg nameValue h
  unfold nameAt limitAt at *
  split at hx
  next hdepth =>
    rw [if_pos hdepth] at hy hvalue
    rwa [if_pos hdepth, nameValue_twoDigit x hx, nameValue_twoDigit y hy] at hvalue
  next hdepth =>
    rw [if_neg hdepth] at hy hvalue
    rwa [if_neg hdepth, nameValue_oneDigit x hx, nameValue_oneDigit y hy] at hvalue

/-! ## Where the nodes are -/

/-- `c` is a child of `p` with that name. -/
def IsChild (h : Heap) (p : Addr) (name : List Nat) (c : Addr) : Prop :=
  ∃ nd, h c = some nd ∧ nd.parent = some p ∧ nd.name = name

/-- The node `PCI/bus/device/function`. -/
def NodeAt (h : Heap) (root : Addr) (bus : UInt8) (device function : Nat) (a : Addr) : Prop :=
  ∃ b d, IsChild h root (storedName (twoDigitName bus.toNat)) b ∧
    IsChild h b (storedName (twoDigitName device)) d ∧
    IsChild h d (storedName (oneDigitName function)) a

/-- `loc` is the place of every node below the PCI node, and `made` are the nodes the callbacks
have added so far, in order. -/
structure Located (root : Addr) (s : IterData) (c : Cursor) (loc : Addr → Option Place)
    (made : List Addr) : Prop where
  top    : ∀ a, loc a = some [] → a = root
  root   : s.pciRootNode = some root ∧ loc root = some []
  live   : ∀ a, loc a ≠ none → s.heap a ≠ none
  down   : ∀ a q x, loc a = some (q ++ [x]) → x < limitAt q.length ∧
    ∃ p, IsChild s.heap p (nameAt q.length x) a ∧ loc p = some q
  up     : ∀ a nd p q, s.heap a = some nd → nd.parent = some p → loc p = some q →
    ∃ x, loc a = some (q ++ [x])
  bus    : s.currentBusNode.bind loc = c.bus ∧ ∀ q, c.bus = some q → q.length = 1
  device : s.currentDeviceNode.bind loc = c.device ∧ ∀ q, c.device = some q → q.length = 2
  nodup  : made.Nodup
  used   : ∀ a ∈ made, s.heap a ≠ none
  mem    : ∀ a q x, loc a = some (q ++ [x]) → a ∈ made

/-- The number of a visit, and its depth below the PCI node. -/
def Visit.number : Visit → Nat
  | .bus b => b.toNat
  | .device _ d => d
  | .function _ _ f => f

def Visit.depth : Visit → Nat
  | .bus _ => 0
  | .device _ _ => 1
  | .function _ _ _ => 2

theorem storedName_visitName (v : Visit) : storedName (visitName v) = nameAt v.depth v.number := by
  cases v <;> rfl

theorem Visit.InRange.number_lt (h : v.InRange) : v.number < limitAt v.depth := by
  cases v with
  | bus b => exact b.toNat_lt
  | device b d => exact lt_of_lt_of_le h (show 32 ≤ 256 by decide)
  | function b d f => exact lt_of_lt_of_le h (show 8 ≤ 16 by decide)

section Located

variable {pool : Nat → Except StStatus Addr} {root a : Addr} {s : IterData} {c : Cursor}
  {loc : Addr → Option Place} {made : List Addr} {v : Visit}

/-- A node goes below the place of its parent. -/
theorem Located.place_eq (hl : Located root s c loc made) (v : Visit) :
    c.place v = ((visitParent s v).bind loc).map (· ++ [v.number]) := by
  cases v with
  | bus b =>
    simp only [visitParent, hl.root.1, Option.bind_some, hl.root.2]
    rfl
  | device b d =>
    simp only [visitParent, hl.bus.1]
    rfl
  | function b d f =>
    simp only [visitParent, hl.device.1]
    rfl

theorem Located.parent_depth (hl : Located root s c loc made)
    (hq : (visitParent s v).bind loc = some q) : q.length = v.depth := by
  cases v with
  | bus b =>
    simp only [visitParent, hl.root.1, Option.bind_some, hl.root.2, Option.some.injEq] at hq
    rw [← hq]
    rfl
  | device b d => exact hl.bus.2 q (hl.bus.1 ▸ hq)
  | function b d f => exact hl.device.2 q (hl.device.1 ▸ hq)

theorem Grown.live (hg : Grown h h' a p name) (hm : h m ≠ none) : h' m ≠ none := by
  have hma : m ≠ a := fun heq => hm (heq ▸ hg.free)
  intro hnone
  exact hm (view_eq_none_iff.mp ((hg.other m hma).symm.trans (view_eq_none_iff.mpr hnone)))

theorem Grown.isChild (hg : Grown h h' a p name) {q : Addr} (hm : IsChild h q n m) :
    IsChild h' q n m := by
  obtain ⟨md, hmd, hpar, hname⟩ := hm
  obtain ⟨md', hmd', hp, hn, -⟩ := exists_of_view (hg.other m (hg.ne hmd)) hmd
  exact ⟨md', hmd', hp.trans hpar, hn.trans hname⟩

/-- Nothing is below the new node: a node of the old heap has a live parent. -/
theorem Grown.parent_ne (hg : Grown h h' a p name) (hf : IsForest h) (hp : p ≠ some a) {md : Node}
    {r : Addr} (hmd : h' m = some md) (hr : md.parent = some r) : r ≠ a := by
  by_cases hma : m = a
  · subst hma
    obtain ⟨nd, hnd, hpar, -⟩ := hg.node
    cases hnd.symm.trans hmd
    rintro rfl
    exact hp (hpar.symm.trans hr)
  · obtain ⟨md0, hmd0, hpar0, -⟩ := exists_of_view (hg.other m hma).symm hmd
    obtain ⟨kids, held, rank, ht⟩ := hf
    obtain ⟨pd, hpd, -⟩ := ht.dir hmd0 (hpar0.trans hr)
    exact hg.ne hpd

/-- **One callback puts one more node where the cursor says.** -/
theorem Located.step (hl : Located root s c loc made) (hgood : Good pool s)
    (hact : Acted pool v s a) (hr : v.InRange) :
    Located root (act pool v s) (c.next v) (update loc a (c.place v)) (made ++ [a]) := by
  have hg := hact.grown
  have hloca : loc a = none := by
    by_contra hne
    exact hl.live a hne hg.free
  have hne : ∀ {m}, loc m ≠ none → m ≠ a := fun hm heq => hm (heq ▸ hloca)
  have hnone : ∀ {p : Option Addr}, Usable s.heap p → p ≠ some a := by
    rintro p hp rfl
    obtain ⟨nd, hnd, -⟩ := hp a rfl
    exact hg.ne hnd rfl
  have hbind : ∀ {p : Option Addr}, Usable s.heap p →
      p.bind (update loc a (c.place v)) = p.bind loc := by
    intro p hp
    cases p with
    | none => rfl
    | some m =>
      have hma : m ≠ a := fun heq => hnone hp (congrArg some heq)
      simp only [Option.bind_some, update_of_ne hma]
  obtain ⟨nd, hnd, hpar, hname⟩ := hg.node
  have hparent : visitParent s v ≠ some a := hnone (hgood.parent v)
  refine ⟨?_, ⟨hact.root.trans hl.root.1, ?_⟩, ?_, ?_, ?_, ?_, ?_, ?_, ?_, ?_⟩
  · intro m hm
    by_cases hma : m = a
    · subst hma
      rw [update_self, hl.place_eq v] at hm
      obtain ⟨q, -, hq⟩ := Option.map_eq_some_iff.mp hm
      simp at hq
    · rw [update_of_ne hma] at hm
      exact hl.top m hm
  · rw [update_of_ne (hne (by rw [hl.root.2]; simp))]
    exact hl.root.2
  · intro m hm
    by_cases hma : m = a
    · rw [hma, hnd]
      simp
    · rw [update_of_ne hma] at hm
      exact hg.live (hl.live m hm)
  · intro m q x hm
    by_cases hma : m = a
    · subst hma
      rw [update_self, hl.place_eq v] at hm
      obtain ⟨q', hq', heq⟩ := Option.map_eq_some_iff.mp hm
      obtain ⟨rfl, hx⟩ := List.append_inj' heq rfl
      obtain rfl : v.number = x := by simpa using hx
      obtain ⟨p, hp, hlocp⟩ := Option.bind_eq_some_iff.mp hq'
      rw [hl.parent_depth hq']
      refine ⟨hr.number_lt, p, ⟨nd, hnd, hpar.trans hp, ?_⟩, ?_⟩
      · rw [hname, storedName_visitName]
      · rw [update_of_ne (hne (by rw [hlocp]; simp)), hlocp]
    · rw [update_of_ne hma] at hm
      obtain ⟨hx, p, hchild, hlocp⟩ := hl.down m q x hm
      exact ⟨hx, p, hg.isChild hchild, by
        rw [update_of_ne (hne (by rw [hlocp]; simp)), hlocp]⟩
  · intro m md p q hmd hmp hq
    rw [update_of_ne (hg.parent_ne hgood.forest hparent hmd hmp)] at hq
    by_cases hma : m = a
    · subst hma
      rw [hnd] at hmd
      cases hmd
      refine ⟨v.number, ?_⟩
      rw [update_self, hl.place_eq v, hpar.symm.trans hmp, Option.bind_some, hq]
      rfl
    · obtain ⟨md0, hmd0, hpar0, -⟩ := exists_of_view (hg.other m hma).symm hmd
      obtain ⟨x, hx⟩ := hl.up m md0 p q hmd0 (hpar0.trans hmp) hq
      exact ⟨x, by rw [update_of_ne hma, hx]⟩
  · rw [hact.bus]
    cases v with
    | bus b =>
      refine ⟨by simp [Visit.isBus, Cursor.next], ?_⟩
      rintro q ⟨⟩
      rfl
    | device b d | function b d f => exact ⟨(hbind hgood.bus).trans hl.bus.1, hl.bus.2⟩
  · rw [hact.device]
    cases v with
    | device b d =>
      refine ⟨by simp [Visit.isDevice, Cursor.next], ?_⟩
      intro q hq
      obtain ⟨q', hq', rfl⟩ :=
        Option.map_eq_some_iff.mp (show c.bus.map (· ++ [d]) = some q from hq)
      rw [List.length_append, hl.bus.2 q' hq']
      rfl
    | bus b | function b d f => exact ⟨(hbind hgood.device).trans hl.device.1, hl.device.2⟩
  · refine List.nodup_append.mpr ⟨hl.nodup, by simp, ?_⟩
    rintro m hm b hb rfl
    rw [List.mem_singleton.mp hb] at hm
    exact hl.used a hm hg.free
  · intro m hm
    rcases List.mem_append.mp hm with hm | hm
    · exact hg.live (hl.used m hm)
    · rw [List.mem_singleton.mp hm, hnd]
      simp
  · intro m q x hm
    by_cases hma : m = a
    · simp [hma]
    · rw [update_of_ne hma] at hm
      exact List.mem_append_left _ (hl.mem m q x hm)

/-- **A list of callbacks puts the nodes at the places of its visits.** -/
theorem Located.run (hl : Located root s c loc made) (hgood : Good pool s)
    (hr : ∀ v ∈ vs, v.InRange) : ∃ loc' made',
      Located root (Pci.run (act pool) vs s) (c.after vs) loc' made' ∧
      made'.map loc' = made.map loc ++ places c vs := by
  induction vs generalizing s c loc made with
  | nil => exact ⟨loc, made, hl, by simp [places]⟩
  | cons v vs ih =>
    obtain ⟨a, hact⟩ := exists_acted hgood v
    have hstep := hl.step hgood hact (hr v List.mem_cons_self)
    obtain ⟨loc', made', hl', hmap⟩ :=
      ih hstep hact.good fun w hw => hr w (List.mem_cons_of_mem v hw)
    refine ⟨loc', made', hl', ?_⟩
    have hsame : made.map (update loc a (c.place v)) = made.map loc := by
      refine List.map_congr_left fun m hm => update_of_ne ?_ _ _
      rintro rfl
      exact hl.used m hm hact.grown.free
    rw [hmap, List.map_append, hsame]
    simp [places]

theorem IsChild.unique {p q : Addr} {n' : List Nat} (hc : IsChild h p n a)
    (hc' : IsChild h q n' a) :
    n = n' := by
  obtain ⟨nd, hnd, -, hname⟩ := hc
  obtain ⟨nd', hnd', -, hname'⟩ := hc'
  cases hnd.symm.trans hnd'
  exact hname.symm.trans hname'

/-- A child is located by its number. -/
theorem Located.child (hl : Located root s c loc made) {p : Addr} (hp : loc p = some q)
    (hx : x < limitAt q.length) (hc : IsChild s.heap p (nameAt q.length x) a) :
    loc a = some (q ++ [x]) := by
  obtain ⟨nd, hnd, hpar, hname⟩ := id hc
  obtain ⟨y, hy⟩ := hl.up a nd p q hnd hpar hp
  obtain ⟨hylt, p', hc', -⟩ := hl.down a q y hy
  have hnames := hc.unique hc'
  rw [hy, nameAt_inj hx hylt hnames]

theorem Located.nodeAt_iff (hl : Located root s c loc made) (hd : d < 32) (hf : f < 8) :
    NodeAt s.heap root b d f a ↔ loc a = some [b.toNat, d, f] := by
  constructor
  · rintro ⟨bn, dn, hbn, hdn, ha⟩
    have hlocb := hl.child hl.root.2 (show b.toNat < limitAt 0 from b.toNat_lt) hbn
    have hlocd := hl.child hlocb (show d < 256 by omega) hdn
    exact hl.child hlocd (show f < 16 by omega) ha
  · intro ha
    obtain ⟨-, dn, hcf, hlocd⟩ := hl.down a [b.toNat, d] f ha
    obtain ⟨-, bn, hcd, hlocb⟩ := hl.down dn [b.toNat] d hlocd
    obtain ⟨-, r, hcb, hlocr⟩ := hl.down bn [] b.toNat hlocb
    obtain rfl := hl.top r hlocr
    exact ⟨bn, dn, hcb, hcd, hcf⟩

end Located

/-! ## The registration -/

/-- The tree and the pool `register_gnt_nodes` starts from: a forest in which the parent node can
get children, and memory for every node. -/
structure Ready (pool : Nat → Except StStatus Addr) (h : Heap) (parentNode : Addr) : Prop where
  forest : IsForest h
  parent : Usable h (some parentNode)
  supply : Supply pool 0 h

section Register

variable {pool : Nat → Except StStatus Addr} {h : Heap} {parentNode : Addr} {cfg : Config}

theorem scanBus_eq {s : IterData} (hgood : Good pool s) (cfg : Config) (fuel : Nat) :
    scanBus cfg (gntCallbacks pool) fuel s =
      (visits cfg fuel 0).map fun vs => (.success, run (act pool) (.bus 0 :: vs) s) := by
  obtain ⟨a, hact⟩ := exists_acted hgood (.bus 0)
  have hcall : iterateBus pool 0 s = some (.proceed, act pool (.bus 0) s) := hact.result
  have hscan : scanPciBus cfg (gntCallbacks pool) fuel .proceed 0 (act pool (.bus 0) s) = _ :=
    scanPciBus_eq (proceeds pool) fuel 0 _ hact.good
  have hbus : (gntCallbacks pool).bus = some (iterateBus pool) := rfl
  simp only [scanBus, hbus, hcall, reduceCtorEq, or_self, if_false, hscan, completed,
    Option.map_map]
  rfl

/-- The PCI node is new, so it has no children. -/
theorem located_init {h2 : Heap} {root : Addr} (hr : Ready pool h parentNode)
    (hg : Grown h h2 root (some parentNode) pciName) :
    Located root ⟨h2, 1, .success, some root, none, none, none⟩ ⟨none, none⟩
      (fun a => if a = root then some [] else none) [] := by
  obtain ⟨nd, hnd, -, -⟩ := hg.node
  have hroot : ∀ {a : Addr} {q : Place}, (if a = root then some [] else none) = some q →
      a = root := by
    intro a q ha
    by_contra hne
    rw [if_neg hne] at ha
    cases ha
  refine ⟨fun a => hroot, ⟨rfl, if_pos rfl⟩, ?_, ?_, ?_, ⟨rfl, by simp⟩, ⟨rfl, by simp⟩,
    List.nodup_nil, by simp, ?_⟩
  · intro a ha
    obtain ⟨q, hq⟩ := Option.ne_none_iff_exists'.mp ha
    obtain rfl := hroot hq
    show h2 a ≠ none
    rw [hnd]
    simp
  · intro a q x ha
    split at ha <;> simp at ha
  · intro a ad p q had hap hp
    obtain rfl := hroot hp
    obtain ⟨pd, hpd, -⟩ := hr.parent parentNode rfl
    have hne : some parentNode ≠ some p := fun heq => hg.ne hpd (Option.some.inj heq)
    exact absurd rfl (hg.parent_ne hr.forest hne had hap)
  · intro a q x ha
    split at ha <;> simp at ha

/-- The registration is the run of the callbacks over the visits, from a state with just the PCI
node. -/
theorem registerGntNodes_eq (hr : Ready pool h parentNode) :
    ∃ s root loc, Good pool s ∧ Located root s ⟨none, none⟩ loc [] ∧
      ∀ cfg fuel, registerGntNodes pool cfg fuel parentNode h =
        (visits cfg fuel 0).map fun vs => (.success, run (act pool) (.bus 0 :: vs) s) := by
  obtain ⟨root, hroot, hfree⟩ := hr.supply.free 0 le_rfl
  obtain ⟨h1, hadd, hf1, hg1⟩ := addNode_grown pciName hr.forest hfree hr.parent
  obtain ⟨h2, hdir, hf2, hg2, husable⟩ := makeDirectory_grown hf1 hg1
  have hnone : Usable h2 none := fun a ha => by cases ha
  have hgood : Good pool ⟨h2, 1, .success, some root, none, none, none⟩ :=
    ⟨hf2, hg2.supply hr.supply hroot, husable, hnone, hnone, rfl⟩
  refine ⟨_, root, _, hgood, located_init hr hg2, fun cfg fuel => ?_⟩
  simp only [registerGntNodes, hroot, hadd, checkSuccess, if_true, hdir, scanBus_eq hgood]
  cases hvs : visits cfg fuel 0 with
  | none => rfl
  | some vs =>
    have hstatus : (run (act pool) (.bus 0 :: vs)
        ⟨h2, 1, .success, some root, none, none, none⟩).status = .success :=
      ((proceeds pool).run _ hgood).status
    simp only [Option.map_some, if_true, hstatus]

end Register

/-! ## The nodes of the present functions -/

/-- A function that answers on a bus that bridges lead to. -/
def Config.Present (cfg : Config) (b : UInt8) (d f : Nat) : Prop :=
  cfg.Reach 0 b ∧ d ∈ cfg.devices b ∧ f ∈ cfg.functions b d

/-- The registration ends, and the present functions, and only these, have exactly one node
`PCI/bus/device/function`. -/
def Registers (pool : Nat → Except StStatus Addr) (cfg : Config) (parentNode : Addr) (h : Heap) :
    Prop :=
  ∃ fuel s root, registerGntNodes pool cfg fuel parentNode h = some (.success, s) ∧
    s.pciRootNode = some root ∧
    ∀ b d f, d < 32 → f < 8 →
      (cfg.Present b d f → ∃! a, NodeAt s.heap root b d f a) ∧
      (¬ cfg.Present b d f → ∀ a, ¬ NodeAt s.heap root b d f a)

theorem Visit.own_inj {w : Visit} (h : v.own = w.own) : v = w := by
  cases v <;> cases w <;> simp_all [Visit.own, UInt8.toNat_inj]

theorem inRange_of_under {cfg : Config} (h : v.Under cfg b) : v.InRange := by
  cases v with
  | bus x => trivial
  | device x d => exact Config.device_lt h.2
  | function x d f => exact Config.function_lt h.2.2

section Counting

variable {cfg : Config} {root : Addr} {s : IterData} {c : Cursor} {loc : Addr → Option Place}
  {made : List Addr} {fuel : Nat} {vs : List Visit}

/-- Every node in its own place: one for each present function. -/
theorem registers_of_own (ht : cfg.IsTree) (hvs : visits cfg fuel 0 = some vs)
    (hl : Located root s c loc made) (hmap : made.map loc = (.bus 0 :: vs).map fun v => some v.own)
    (hd : d < 32) (hf : f < 8) :
    (cfg.Present b d f → ∃! a, NodeAt s.heap root b d f a) ∧
      (¬ cfg.Present b d f → ∀ a, ¬ NodeAt s.heap root b d f a) := by
  have hnodup : (made.map loc).Nodup := by
    rw [hmap]
    exact (nodup_visits ht .refl hvs).map fun v w h => Visit.own_inj (Option.some.inj h)
  have hmem : ∀ {a}, loc a = some [b.toNat, d, f] → a ∈ made := fun h =>
    hl.mem _ [b.toNat, d] f h
  have hpresent : some [b.toNat, d, f] ∈ made.map loc ↔ cfg.Present b d f := by
    rw [hmap]
    constructor
    · intro h
      obtain ⟨v, hv, hown⟩ := List.mem_map.mp h
      obtain rfl : v = .function b d f := Visit.own_inj (Option.some.inj hown)
      rcases List.mem_cons.mp hv with heq | hv
      · cases heq
      · exact (mem_visits_iff hvs).mp hv
    · intro h
      exact List.mem_map.mpr ⟨.function b d f,
        List.mem_cons_of_mem _ ((mem_visits_iff hvs).mpr h), rfl⟩
  constructor
  · intro hp
    obtain ⟨a, ha, hloc⟩ := List.mem_map.mp (hpresent.mpr hp)
    refine ⟨a, (hl.nodeAt_iff hd hf).mpr hloc, fun a' ha' => ?_⟩
    have hloc' := (hl.nodeAt_iff hd hf).mp ha'
    exact List.inj_on_of_nodup_map hnodup (hmem hloc') ha (hloc'.trans hloc.symm)
  · intro hp a ha
    have hloc := (hl.nodeAt_iff hd hf).mp ha
    exact hp (hpresent.mp (List.mem_map.mpr ⟨a, hmem hloc, hloc⟩))

end Counting

section Registration

variable {pool : Nat → Except StStatus Addr} {cfg : Config} {parentNode : Addr} {h : Heap}

/-- The registration ends exactly when no descent through the bridges is endless. -/
theorem register_returns_iff (hr : Ready pool h parentNode) :
    (∃ fuel r, registerGntNodes pool cfg fuel parentNode h = some r) ↔
      Acc (fun s b => cfg.Behind b s) 0 := by
  obtain ⟨s, root, loc, -, -, hrun⟩ := registerGntNodes_eq hr
  rw [← exists_visits_iff]
  constructor
  · rintro ⟨fuel, r, hres⟩
    rw [hrun cfg fuel] at hres
    obtain ⟨vs, hvs, -⟩ := Option.map_eq_some_iff.mp hres
    exact ⟨fuel, vs, hvs⟩
  · rintro ⟨fuel, vs, hvs⟩
    exact ⟨fuel, _, by rw [hrun cfg fuel, hvs]; rfl⟩

theorem inRange_of_visits {fuel : Nat} (hvs : visits cfg fuel 0 = some vs) :
    ∀ v ∈ Visit.bus 0 :: vs, v.InRange := by
  intro v hv
  rcases List.mem_cons.mp hv with rfl | hv
  · trivial
  · exact inRange_of_under ((mem_visits_iff hvs).mp hv)

/-- A registration that gives every function its node has nothing after a bridge. -/
theorem bridgesLast_of_registers (hr : Ready pool h parentNode) (ht : cfg.IsTree)
    (hreg : Registers pool cfg parentNode h) : cfg.BridgesLast := by
  obtain ⟨s, root, loc, hgood, hl, hrun⟩ := registerGntNodes_eq hr
  obtain ⟨fuel, s', root', hres, hroot', hnodes⟩ := hreg
  rw [hrun cfg fuel] at hres
  obtain ⟨vs, hvs, hs'⟩ := Option.map_eq_some_iff.mp hres
  obtain rfl := (Prod.mk.inj hs').2
  obtain ⟨loc', made, hl', hmap⟩ := hl.run hgood (inRange_of_visits hvs)
  cases hl'.root.1.symm.trans hroot'
  by_contra hlast
  obtain ⟨b, d, f, hb, hd, hf, hmissing⟩ := exists_missing ht hvs hlast
  have hd' := Config.device_lt hd
  have hf' := Config.function_lt hf
  obtain ⟨a, ha, -⟩ := (hnodes b d f hd' hf').1 ⟨hb, hd, hf⟩
  have hloc := (hl'.nodeAt_iff hd' hf').mp ha
  refine hmissing ?_
  rw [List.map_nil, List.nil_append] at hmap
  rw [← hmap]
  exact List.mem_map.mpr ⟨a, hl'.mem a [b.toNat, d] f hloc, hloc⟩

theorem registers_of_bridgesLast (hr : Ready pool h parentNode) (ht : cfg.IsTree)
    (hlast : cfg.BridgesLast) : Registers pool cfg parentNode h := by
  obtain ⟨s, root, loc, hgood, hl, hrun⟩ := registerGntNodes_eq hr
  obtain ⟨fuel, vs, hvs⟩ := exists_visits_iff.mpr ht.finite
  obtain ⟨loc', made, hl', hmap⟩ := hl.run hgood (inRange_of_visits hvs)
  refine ⟨fuel, _, root, by rw [hrun cfg fuel, hvs]; rfl, hl'.root.1, fun b d f hd hf => ?_⟩
  refine registers_of_own ht hvs hl' ?_ hd hf
  rw [hmap, List.map_nil, List.nil_append]
  show some [(0 : UInt8).toNat] :: places _ vs = _
  rw [places_eq_own hlast .refl hvs rfl]
  rfl

end Registration

/-- **`register_gnt_nodes` and the bridges.** The scan ends exactly when no descent through the
bridges is endless. On a finite tree of buses it gives every present function exactly one node, in
the place of its own bus and device, exactly when no device follows a bridge on its bus and no
function follows it in its device while there is a device behind it. -/
theorem register_iff (pool : Nat → Except StStatus Addr) (cfg : Config) (parentNode : Addr)
    (h : Heap) (hr : Ready pool h parentNode) :
    ((∃ fuel r, registerGntNodes pool cfg fuel parentNode h = some r) ↔
      Acc (fun s b => cfg.Behind b s) 0) ∧
    (cfg.IsTree → (Registers pool cfg parentNode h ↔ cfg.BridgesLast)) :=
  ⟨register_returns_iff hr, fun ht =>
    ⟨bridgesLast_of_registers hr ht, registers_of_bridgesLast hr ht⟩⟩

/-! ## Small machines -/

/-- A configuration space with single-function devices: `site b d` is absent, a plain device
(`some 0`) or a bridge to the given bus. -/
def sample (site : UInt8 → Nat → Option UInt8) : Config where
  byte b d f offset :=
    match if f = 0 then site b d else none with
    | none => 0xFF
    | some s =>
      if offset = baseClassOffset then (if s = 0 then 0x00 else 0x06)
      else if offset = subClassOffset then (if s = 0 then 0x00 else 0x04)
      else if offset = secondaryBusOffset then s
      else 0
  ecam _ := false

/-- A device at 0:0, a bridge to bus 1 at 0:1, a device at 1:0. -/
def bridgeAfter : Config := sample fun b d =>
  if b = 0 ∧ d = 0 then some 0 else if b = 0 ∧ d = 1 then some 1
  else if b = 1 ∧ d = 0 then some 0 else none

/-- A bridge to bus 1 at 0:0, a device at 0:1, a device at 1:0. -/
def bridgeBefore : Config := sample fun b d =>
  if b = 0 ∧ d = 0 then some 1 else if b = 0 ∧ d = 1 then some 0
  else if b = 1 ∧ d = 0 then some 0 else none

/-- A bridge to bus 1 at 0:0, and one from bus 1 to itself at 1:0. -/
def bridgeLoop : Config := sample fun b d =>
  if b = 0 ∧ d = 0 then some 1 else if b = 1 ∧ d = 0 then some 1 else none

/-- A tree with one directory, at address 1. -/
def oneDirectory : Heap := Heap.set (fun _ => none) 1 { refCount := 1, type := typeDirectory }

/-- A pool with blocks from address 2 on. -/
def freshPool (n : Nat) : Except StStatus Addr := .ok (n + 2)

theorem ready_oneDirectory : Ready freshPool oneDirectory 1 := by
  refine ⟨⟨fun _ => [], update (fun _ => 0) 1 1, fun _ => 0, ?_⟩, ?_, ?_, ?_⟩
  · -- a root without a name, made a directory
    obtain ⟨-, hroot⟩ := @Tree.addRoot _ _ _ _ _ 1 none Tree.empty rfl
    rw [oneDirectory, ← Heap.set_set _ 1 (Gnt.newNode none none)]
    exact hroot.store (Heap.set_self _ _ _) rfl rfl (fun _ => ⟨rfl, rfl⟩) (fun _ => rfl)
      ⟨rfl, by decide⟩ (fun _ _ => rfl) (fun _ h => h) fun _ => Or.inl
  · rintro a ⟨⟩
    exact ⟨_, rfl, show typeDirectory ≠ typeLink by decide⟩
  · intro k _
    have hne : k + 2 ≠ 1 := by omega
    exact ⟨k + 2, rfl, Heap.set_of_ne hne _ _⟩
  · intro k k' a _ _ hk hk'
    have heq : k + 2 = k' + 2 := Except.ok.inj (hk.trans hk'.symm)
    omega

/-- The bridges among the visits. -/
def bridgesOf (cfg : Config) (vs : List Visit) : List Visit :=
  vs.filter fun
    | .function b d f => (cfg.secondary b d f).isSome
    | _ => false

section Samples

variable {cfg : Config} {fuel : Nat} {vs : List Visit} {b s : UInt8} {d f : Nat}

theorem mem_bridgesOf (hvs : visits cfg fuel 0 = some vs) (hb : cfg.Reach 0 b)
    (hbr : cfg.Bridge b d f s) : .function b d f ∈ bridgesOf cfg vs := by
  have hunder : (Visit.function b d f).Under cfg 0 := ⟨hb, hbr.device_mem, hbr.function_mem⟩
  refine List.mem_filter.mpr ⟨(mem_visits_iff hvs).mpr hunder, ?_⟩
  show (cfg.secondary b d f).isSome = true
  rw [hbr.secondary_eq]
  rfl

/-- With one bridge the buses form a tree. -/
theorem isTree_of_bridgesOf (hvs : visits cfg fuel 0 = some vs) (hone : bridgesOf cfg vs = [v]) :
    cfg.IsTree where
  finite := exists_visits_iff.mp ⟨fuel, vs, hvs⟩
  distinct hb hb' hbr hbr' := by
    have hv := mem_bridgesOf hvs hb hbr
    have hv' := mem_bridgesOf hvs hb' hbr'
    rw [hone, List.mem_singleton] at hv hv'
    exact Visit.function.inj (hv.trans hv'.symm)

end Samples

theorem visits_bridgeAfter : visits bridgeAfter 2 0 = some
    [.device 0 0, .function 0 0 0, .device 0 1, .function 0 1 0, .bus 1, .device 1 0,
      .function 1 0 0] := by
  decide +kernel

theorem isTree_bridgeAfter : bridgeAfter.IsTree :=
  isTree_of_bridgesOf (v := .function 0 1 0) visits_bridgeAfter (by decide +kernel)

theorem bridgesLast_bridgeAfter : bridgeAfter.BridgesLast := by
  intro b d f s hb hbr
  have hmem := mem_bridgesOf visits_bridgeAfter hb hbr
  obtain ⟨rfl, rfl, rfl⟩ : b = 0 ∧ d = 1 ∧ f = 0 := by
    have hone : Visit.function b d f = .function 0 1 0 := List.mem_singleton.mp hmem
    exact Visit.function.inj hone
  have hdevices : bridgeAfter.devices 0 = [0, 1] := by decide +kernel
  have hfunctions : bridgeAfter.functions 0 1 = [0] := by decide +kernel
  refine ⟨by decide, fun f' hf' hlt => ?_⟩
  rw [List.mem_singleton.mp hf'] at hlt
  exact absurd hlt (Nat.lt_irrefl 0)

/-- The device at 0:0, the bridge at 0:1 and the device at 1:0 get their nodes. -/
theorem register_iff_bridgeAfter :
    (∃ fuel r, registerGntNodes freshPool bridgeAfter fuel 1 oneDirectory = some r) ∧
      Registers freshPool bridgeAfter 1 oneDirectory := by
  obtain ⟨hreturns, hregisters⟩ := register_iff freshPool bridgeAfter 1 oneDirectory
    ready_oneDirectory
  exact ⟨hreturns.mpr isTree_bridgeAfter.finite,
    (hregisters isTree_bridgeAfter).mpr bridgesLast_bridgeAfter⟩

theorem visits_bridgeBefore : visits bridgeBefore 2 0 = some
    [.device 0 0, .function 0 0 0, .bus 1, .device 1 0, .function 1 0 0, .device 0 1,
      .function 0 1 0] := by
  decide +kernel

theorem isTree_bridgeBefore : bridgeBefore.IsTree :=
  isTree_of_bridgesOf (v := .function 0 0 0) visits_bridgeBefore (by decide +kernel)

theorem not_bridgesLast_bridgeBefore : ¬ bridgeBefore.BridgesLast := by
  intro hlast
  have hbr : bridgeBefore.Bridge 0 0 0 1 :=
    ⟨by decide +kernel, by decide +kernel, by decide +kernel⟩
  have hle := (hlast 0 0 0 1 .refl hbr).1 1 (by decide +kernel)
  exact absurd hle (by decide)

/-- Bus 1 of `bridgeLoop` is behind itself. -/
theorem not_acc_bridgeLoop : ¬ Acc (fun s b => bridgeLoop.Behind b s) 0 := by
  intro hacc
  have h01 : bridgeLoop.Behind 0 1 :=
    ⟨0, 0, by decide +kernel, by decide +kernel, by decide +kernel⟩
  have h11 : bridgeLoop.Behind 1 1 :=
    ⟨0, 0, by decide +kernel, by decide +kernel, by decide +kernel⟩
  exact not_reach_back (hacc.inv h01) 1 h11 .refl

/-- The device after the bridge does not get its place, and the scan of `bridgeLoop` has no end. -/
theorem register_bridgeBefore_bridgeLoop :
    (Ready freshPool oneDirectory 1 ∧ bridgeBefore.IsTree ∧
      ¬ Registers freshPool bridgeBefore 1 oneDirectory) ∧
    ¬ ∃ fuel r, registerGntNodes freshPool bridgeLoop fuel 1 oneDirectory = some r := by
  refine ⟨⟨ready_oneDirectory, isTree_bridgeBefore, fun hreg => ?_⟩, fun hres => ?_⟩
  · exact not_bridgesLast_bridgeBefore
      (bridgesLast_of_registers ready_oneDirectory isTree_bridgeBefore hreg)
  · exact not_acc_bridgeLoop ((register_returns_iff ready_oneDirectory).mp hres)

end FoliOS.Strata.Pci
