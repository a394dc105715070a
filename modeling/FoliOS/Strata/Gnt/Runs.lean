import FoliOS.Strata.Gnt.Tree

/-!
# Runs of the node tree

Sequences of `StGnt_AddNode`, `StGnt_RemoveNode`, `StGnt_AcquireNode` and `StGnt_ReleaseNode`
from the empty tree. `State.held` counts, node by node, the references the callers hold: the one
a node without a parent is created with, and those they acquired. A node added under a parent
has one reference as well, but that is the tree's: `StGnt_RemoveNode` and the finaliser of the
parent give it back. The stores by which callers turn a new node into a directory or a link are
a call of their own (`Call.configure`).

`StGnt_AddNode` writes the parent pointer before it resolves a link. A node added through a link
ends up among the children of the link's target while its parent pointer names the link, and
`StGnt_RemoveNode` then runs into its own `assert(parent->type != GNT_NODETYPE_LINK)`.

* `wellFormed_of_plain` — the tree is well formed in every run that adds no node through a link
  (and lets no count wrap); an addition through a link breaks it.
-/

namespace FoliOS.Strata.Gnt

open Function Lib

/-! ## Calls -/

/-- The heap and the references the callers hold. -/
structure State where
  heap : Heap
  held : Addr → Nat

/-- The calls of a run. -/
inductive Call where
  | add (slot : Except StStatus Addr) (parent : Option Addr) (name : Option (List Nat))
  | configure (n : Addr) (type : Nat) (isVirtual : Bool) (target : Option Addr)
  | remove (n : Addr)
  | acquire (n : Addr)
  | release (n : Addr)

/-- The pool hands out free blocks, nodes named in a call exist, only held references are
released, and a node becomes a link only while it has no children. -/
def Call.Legal (s : State) : Call → Prop
  | .add slot parent _ => (∀ a, slot = .ok a → s.heap a = none) ∧
      ∀ p, parent = some p → s.heap p ≠ none
  | .configure n type _ _ => ∃ nd, s.heap n = some nd ∧
      (type = typeLink → nd.childrenHead = none)
  | .remove n => s.heap n ≠ none
  | .acquire n => s.heap n ≠ none
  | .release n => 0 < s.held n

/-- The stores of a caller to a node it has added. -/
def configureNode (n : Addr) (type : Nat) (isVirtual : Bool) (target : Option Addr) (h : Heap) :
    Option Heap :=
  (h n).map fun nd =>
    h.set n { nd with type := type, isVirtual := isVirtual, targetNode := target }

/-- A fuelled function returns `r`: it does so with any fuel from some point on. -/
def Returns {α : Type} (f : Nat → Option α) (r : α) : Prop :=
  ∃ fuel₀, ∀ fuel, fuel₀ ≤ fuel → f fuel = some r

theorem Returns.unique {α : Type} {f : Nat → Option α} {r r' : α} (h : Returns f r)
    (h' : Returns f r') : r = r' := by
  obtain ⟨n, hn⟩ := h
  obtain ⟨n', hn'⟩ := h'
  exact Option.some.inj ((hn (max n n') (by omega)).symm.trans (hn' (max n n') (by omega)))

/-- One call. -/
def Step (s : State) (call : Call) (s' : State) : Prop :=
  call.Legal s ∧
  match call with
  | .add slot parent name => ∃ status node, addNode slot parent name s.heap =
      some (status, node, s'.heap) ∧
      s'.held = match parent, node with
        | none, some a => update s.held a 1
        | _, _ => s.held
  | .configure n type isVirtual target =>
      configureNode n type isVirtual target s.heap = some s'.heap ∧ s'.held = s.held
  | .remove n => Returns (fun fuel => removeNode fuel n s.heap) s'.heap ∧ s'.held = s.held
  | .acquire n => acquireNode n s.heap = some s'.heap ∧
      s'.held = update s.held n (s.held n + 1)
  | .release n => Returns (fun fuel => releaseNode fuel n s.heap) s'.heap ∧
      s'.held = update s.held n (s.held n - 1)

/-- The condition under which the calls keep the tree: no node is added through a link, and no
reference count wraps around. -/
def Call.Plain (s : State) : Call → Prop
  | .add _ parent _ => ∀ p pd, parent = some p → s.heap p = some pd → pd.type ≠ typeLink
  | .acquire n => ∀ nd, s.heap n = some nd → nd.refCount + 1 < refLimit
  | _ => True

/-- The states of the runs whose calls all meet `Call.Plain`. -/
inductive Reached : State → Prop
  | init : Reached ⟨fun _ => none, fun _ => 0⟩
  | step {s s' : State} (call : Call) : Reached s → call.Plain s → Step s call s' → Reached s'

/-! ## Well-formed trees -/

/-- `l` are the children of `p`, as the sibling pointers link them. -/
def Children (h : Heap) (p : Addr) (l : List Addr) : Prop :=
  ∃ pd, h p = some pd ∧ Links (sibling h) pd.childrenHead l

/-- `p` is the parent of `n`. -/
def IsParent (h : Heap) (n p : Addr) : Prop := ∃ nd, h n = some nd ∧ nd.parent = some p

/-- What the tree is to be in every state. -/
structure WellFormed (h : Heap) : Prop where
  parent  : ∀ n p, IsParent h n p → ∃ pd l, h p = some pd ∧ pd.type ≠ typeLink ∧
    Children h p l ∧ l.count n = 1
  tail    : ∀ p pd, h p = some pd → ∃ l, Children h p l ∧ pd.childrenTail = l.getLast?
  acyclic : ∀ n, ¬ Relation.TransGen (IsParent h) n n

section

variable {h : Heap} {kids : Addr → List Addr} {held rank : Addr → Nat} {n p : Addr} {pd : Node}
  {l : List Addr}

section

variable (ht : Tree h kids held rank fun _ => False)
include ht

theorem Tree.children (hp : h p = some pd) : Children h p (kids p) := by
  refine ⟨pd, hp, ?_⟩
  rw [(ht.ends hp id).1]
  exact ht.links p

theorem Tree.children_eq (hl : Children h p l) : l = kids p := by
  obtain ⟨pd, hp, hl⟩ := hl
  obtain ⟨pd', hp', hl'⟩ := ht.children hp
  cases hp.symm.trans hp'
  exact hl.unique hl'

theorem Tree.rank_lt (hpath : Relation.TransGen (IsParent h) n p) : rank n < rank p := by
  induction hpath with
  | single hstep =>
    obtain ⟨nd, hn, hpar⟩ := hstep
    exact ht.ranked hn hpar
  | tail _ hstep ih =>
    obtain ⟨nd, hn, hpar⟩ := hstep
    exact ih.trans (ht.ranked hn hpar)

theorem Tree.wellFormed : WellFormed h := by
  refine ⟨?_, ?_, ?_⟩
  · rintro n p ⟨nd, hn, hpar⟩
    obtain ⟨pd, hp, hty⟩ := ht.dir hn hpar
    exact ⟨pd, kids p, hp, hty, ht.children hp,
      List.count_eq_one_of_mem (ht.nodup p) (ht.mem hn hpar)⟩
  · exact fun p pd hp => ⟨kids p, ht.children hp, (ht.ends hp id).2⟩
  · exact fun n hcyc => absurd (ht.rank_lt hcyc) (lt_irrefl _)

end

end

/-! ## Steps -/

/-- The forest behind a state. -/
def Forest (s : State) : Prop :=
  ∃ kids rank, Tree s.heap kids s.held rank fun _ => False

theorem forest_init : Forest ⟨fun _ => none, fun _ => 0⟩ := ⟨_, _, Tree.empty⟩

section

variable {s s' s'' : State} {call : Call} {slot : Except StStatus Addr} {name : Option (List Nat)}
  {type n p a : Addr} {isVirtual : Bool} {target : Option Addr} {pd : Node}

theorem Forest.add {parent : Option Addr} (hf : Forest s) (hl : (Call.add slot parent name).Legal s)
    (hp : (Call.add slot parent name).Plain s) :
    ∃ s', Step s (.add slot parent name) s' ∧ Forest s' := by
  obtain ⟨kids, rank, ht⟩ := hf
  cases slot with
  | error e =>
    exact ⟨s, ⟨hl, e, none, rfl, by cases parent <;> rfl⟩, kids, rank, ht⟩
  | ok a =>
    have ha : s.heap a = none := hl.1 a rfl
    cases parent with
    | none =>
      obtain ⟨hrun, ht'⟩ := ht.addRoot ha
      exact ⟨⟨_, _⟩, ⟨hl, _, _, hrun, rfl⟩, kids, rank, ht'⟩
    | some p =>
      obtain ⟨pd, hpd⟩ := Option.ne_none_iff_exists'.mp (hl.2 p rfl)
      obtain ⟨h', hrun, ht', -⟩ := ht.addNode ha hpd (hp p pd rfl hpd) id id
      exact ⟨⟨h', s.held⟩, ⟨hl, _, _, hrun, rfl⟩, _, _, ht'⟩

theorem Forest.configure (hf : Forest s) (hl : (Call.configure n type isVirtual target).Legal s) :
    ∃ s', Step s (.configure n type isVirtual target) s' ∧ Forest s' := by
  obtain ⟨kids, rank, ht⟩ := hf
  obtain ⟨nd, hn, hlink⟩ := id hl
  refine ⟨⟨s.heap.set n { nd with type := type, isVirtual := isVirtual, targetNode := target },
    s.held⟩, ⟨hl, by simp [configureNode, hn], rfl⟩, kids, rank, ?_⟩
  have hcounts := ht.counts hn
  refine ht.store hn rfl rfl (fun _ => ⟨rfl, rfl⟩) (fun hty => ?_) hcounts (fun _ _ => rfl)
    (fun _ h => h) (fun _ h => Or.inl h)
  have hhead := hlink hty
  rw [(ht.ends hn id).1] at hhead
  exact List.head?_eq_none_iff.mp hhead

theorem Forest.acquire (hf : Forest s) (hl : (Call.acquire n).Legal s)
    (hp : (Call.acquire n).Plain s) : ∃ s', Step s (.acquire n) s' ∧ Forest s' := by
  obtain ⟨kids, rank, ht⟩ := hf
  obtain ⟨nd, hn⟩ := Option.ne_none_iff_exists'.mp hl
  have hlim : nd.refCount + 1 < refLimit := hp nd hn
  refine ⟨⟨s.heap.set n { nd with refCount := (nd.refCount + 1) % refLimit },
    update s.held n (s.held n + 1)⟩, ⟨hl, by simp [acquireNode, hn], rfl⟩, kids, rank, ?_⟩
  refine ht.store hn rfl rfl (fun _ => ⟨rfl, rfl⟩) (fun hty => ?_) ?_
    (fun m hm => update_of_ne hm _ _) (fun _ h => h) (fun _ h => Or.inl h)
  · exact ht.kids_eq_nil fun md hmd => by
      cases hn.symm.trans hmd
      exact hty
  · have hcount := (ht.counts hn).1
    simp only [Nat.mod_eq_of_lt hlim, update_self]
    omega

theorem Forest.release (hf : Forest s) (hl : (Call.release n).Legal s) :
    ∃ s', Step s (.release n) s' ∧ Forest s' := by
  obtain ⟨kids, rank, ht⟩ := hf
  have hheld : 0 < s.held n := hl
  have hn : s.heap n ≠ none := by
    intro hnone
    rw [ht.dead hnone] at hheld
    exact absurd hheld (lt_irrefl _)
  obtain ⟨h', kids', fuel0, hrun, ht', -⟩ :=
    releasesBelow (rank n + 1) n s.heap kids s.held rank _ ht (Nat.lt_succ_self _) hn id hheld
  exact ⟨⟨h', _⟩, ⟨hl, ⟨fuel0, hrun⟩, rfl⟩, kids', rank, ht'⟩

/-- A removal, with what it does to the children of the former parent. -/
theorem Forest.remove (hf : Forest s) (hl : (Call.remove n).Legal s) :
    ∃ s', Step s (.remove n) s' ∧ Forest s' ∧ ∀ p l, IsParent s.heap n p →
      Children s.heap p l → Children s'.heap p (l.erase n) := by
  obtain ⟨kids, rank, ht⟩ := hf
  obtain ⟨nd, hn⟩ := Option.ne_none_iff_exists'.mp hl
  cases hpar : nd.parent with
  | none =>
    refine ⟨s, ⟨hl, ⟨0, fun fuel _ => by simp [removeNode, hn, hpar]⟩, rfl⟩,
      ⟨kids, rank, ht⟩, ?_⟩
    rintro p l ⟨nd', hn', hpar'⟩
    cases hn.symm.trans hn'
    rw [hpar] at hpar'
    cases hpar'
  | some p =>
    obtain ⟨h', kids', fuel0, hrun, ht', hp', hk⟩ := ht.removeNode hn hpar
    refine ⟨⟨h', s.held⟩, ⟨hl, ⟨fuel0, hrun⟩, rfl⟩, ⟨kids', rank, ht'⟩, ?_⟩
    rintro q l ⟨nd', hn', hpar'⟩ hl
    cases hn.symm.trans hn'
    cases hpar.symm.trans hpar'
    obtain ⟨pd, hpd⟩ := Option.ne_none_iff_exists'.mp hp'
    rw [ht.children_eq hl, ← hk]
    exact ht'.children hpd

/-- A call has one outcome. -/
theorem Step.unique (h : Step s call s') (h' : Step s call s'') : s' = s'' := by
  obtain ⟨heap, held⟩ := s'
  obtain ⟨heap', held'⟩ := s''
  cases call with
  | add slot parent name =>
    obtain ⟨-, status, node, hrun, hheld⟩ := h
    obtain ⟨-, status', node', hrun', hheld'⟩ := h'
    simp only at hrun hrun' hheld hheld'
    rw [hrun] at hrun'
    obtain ⟨-, rfl, rfl⟩ := hrun'
    rw [hheld, hheld']
  | configure n type isVirtual target | acquire n =>
    obtain ⟨-, hrun, hheld⟩ := h
    obtain ⟨-, hrun', hheld'⟩ := h'
    cases hrun.symm.trans hrun'
    rw [show held = held' from hheld.trans hheld'.symm]
  | remove n | release n =>
    obtain ⟨-, hrun, hheld⟩ := h
    obtain ⟨-, hrun', hheld'⟩ := h'
    obtain rfl := hrun.unique hrun'
    rw [show held = held' from hheld.trans hheld'.symm]

/-- Every legal call that meets the condition returns, and keeps the forest. -/
theorem Forest.step (hf : Forest s) (hl : call.Legal s) (hp : call.Plain s) :
    ∃ s', Step s call s' ∧ Forest s' := by
  cases call with
  | add slot parent name => exact hf.add hl hp
  | configure n type isVirtual target => exact hf.configure hl
  | remove n =>
    obtain ⟨s', hstep, hf', -⟩ := hf.remove hl
    exact ⟨s', hstep, hf'⟩
  | acquire n => exact hf.acquire hl hp
  | release n => exact hf.release hl

theorem Reached.forest (hr : Reached s) : Forest s := by
  induction hr with
  | init => exact forest_init
  | step call _ hplain hstep ih =>
    obtain ⟨s'', hstep', hf⟩ := ih.step hstep.1 hplain
    obtain rfl := hstep.unique hstep'
    exact hf

/-! ## Additions through a link -/

/-- A store that keeps the parent pointer and the type of its node keeps those of all. -/
theorem Heap.set_keeps {h : Heap} {x m : Addr} {xd md : Node} (xd' : Node) (hx : h x = some xd)
    (hpar : xd'.parent = xd.parent) (hty : xd'.type = xd.type) (hm : h m = some md) :
    ∃ md', h.set x xd' m = some md' ∧ md'.parent = md.parent ∧ md'.type = md.type := by
  by_cases hmx : m = x
  · subst hmx
    cases hx.symm.trans hm
    exact ⟨xd', Heap.set_self _ _ _, hpar, hty⟩
  · exact ⟨md, by rw [Heap.set_of_ne hmx, hm], rfl, rfl⟩

/-- The append to a child list changes no parent pointer and no type. -/
theorem attach_keeps {h h' : Heap} {t : Addr} (hatt : attach h t a = some h') {m : Addr} {md : Node}
    (hm : h m = some md) : ∃ md', h' m = some md' ∧ md'.parent = md.parent ∧
    md'.type = md.type := by
  unfold attach at hatt
  split at hatt
  · cases hatt
  next td ht =>
    split at hatt
    · cases hatt
      exact Heap.set_keeps _ ht rfl rfl hm
    · split at hatt
      · cases hatt
      · split at hatt
        · cases hatt
        next ld hlast =>
          simp only at hatt
          split at hatt
          · cases hatt
          next pd hpd =>
            cases hatt
            obtain ⟨md1, hm1, hpar1, hty1⟩ :=
              Heap.set_keeps { ld with sibling := some a } hlast rfl rfl hm
            obtain ⟨md2, hm2, hpar2, hty2⟩ :=
              Heap.set_keeps { pd with childrenTail := some a } hpd rfl rfl hm1
            exact ⟨md2, hm2, hpar2.trans hpar1, hty2.trans hty1⟩

/-- A node added through a link names the link as its parent, whether or not the link resolves. -/
theorem addNode_link {h h' : Heap} {status : StStatus} {node : Option Addr} (ha : h a = none)
    (hp : h p = some pd) (hty : pd.type = typeLink)
    (hrun : addNode (.ok a) (some p) name h = some (status, node, h')) :
    IsParent h' a p ∧ ∃ pd', h' p = some pd' ∧ pd'.type = typeLink := by
  have hpa : p ≠ a := by
    rintro rfl
    rw [ha] at hp
    cases hp
  generalize hx : ({ refCount := 1, parent := some p } : Node) = x at hrun
  have hxp : x.parent = some p := by rw [← hx]
  have ha0 : h.set a x a = some x := Heap.set_self h a x
  have hp0 : h.set a x p = some pd := by rw [Heap.set_of_ne hpa, hp]
  simp only [addNode, hx, hp0, if_pos hty] at hrun
  split at hrun
  · cases hrun
  · obtain ⟨-, -, rfl⟩ := hrun
    exact ⟨⟨x, ha0, hxp⟩, pd, hp0, hty⟩
  · obtain ⟨h1, hatt, hname⟩ := Option.bind_eq_some_iff.mp hrun
    obtain ⟨ad, ha1, hpar, -⟩ := attach_keeps hatt ha0
    obtain ⟨pd1, hp1, -, hty1⟩ := attach_keeps hatt hp0
    simp only [nameNode, ha1, Option.some.injEq, Prod.mk.injEq] at hname
    obtain ⟨-, -, rfl⟩ := hname
    refine ⟨⟨storeName name ad, Heap.set_self _ _ _, ?_⟩, pd1, ?_, hty1.trans hty⟩
    · cases name <;> exact hpar.trans hxp
    · rw [Heap.set_of_ne hpa, hp1]

theorem not_wellFormed_of_link (hlink : s.heap p = some pd) (hty : pd.type = typeLink)
    (hstep : Step s (.add (.ok a) (some p) name) s') : ¬ WellFormed s'.heap := by
  obtain ⟨hl, status, node, hrun, -⟩ := hstep
  obtain ⟨hpar, pd', hp', hty'⟩ := addNode_link (hl.1 a rfl) hlink hty hrun
  intro hwf
  obtain ⟨pd2, l, hp2, hne, -⟩ := hwf.parent a p hpar
  cases hp'.symm.trans hp2
  exact hne hty'

end

/-! ## Every run -/

/-- **The tree stays well formed as long as no node is added through a link.** In every run whose
calls meet `Call.Plain` each state is well formed, every legal call returns, and a removal takes
exactly the removed node out of its parent's children. An addition through a link, in any state
of such a run, leaves a tree that is not well formed. -/
theorem wellFormed_of_plain (s : State) (hr : Reached s) :
    WellFormed s.heap ∧
    (∀ call : Call, call.Legal s → call.Plain s → ∃ s', Step s call s') ∧
    (∀ s' n p l, Step s (.remove n) s' → IsParent s.heap n p → Children s.heap p l →
      Children s'.heap p (l.erase n)) ∧
    ∀ s' a p pd name, s.heap p = some pd → pd.type = typeLink →
      Step s (.add (.ok a) (some p) name) s' → ¬ WellFormed s'.heap := by
  refine ⟨?_, ?_, ?_, ?_⟩
  · obtain ⟨kids, rank, ht⟩ := hr.forest
    exact ht.wellFormed
  · intro call hl hp
    obtain ⟨s', hstep, -⟩ := hr.forest.step hl hp
    exact ⟨s', hstep⟩
  · intro s' n p l hstep hpar hl
    obtain ⟨s'', hstep', -, hkids⟩ := hr.forest.remove hstep.1
    obtain rfl := hstep.unique hstep'
    exact hkids p l hpar hl
  · intro s' a p pd name hlink hty hstep
    exact not_wellFormed_of_link hlink hty hstep

/-- The outcome of an addition or of a store to a new node, where there is one. -/
def Call.outcome (s : State) : Call → State
  | .add slot parent name =>
    match addNode slot parent name s.heap with
    | some (_, node, h) => ⟨h, match parent, node with
      | none, some a => update s.held a 1
      | _, _ => s.held⟩
    | none => s
  | .configure n type isVirtual target =>
    ⟨(configureNode n type isVirtual target s.heap).getD s.heap, s.held⟩
  | _ => s

/-- A root directory at 1 and a virtual link to it at 2. -/
def linkCalls : List Call :=
  [.add (.ok 1) none none, .configure 1 typeDirectory false none,
    .add (.ok 2) (some 1) (some [76]), .configure 2 typeLink true (some 1)]

/-- The state after the first calls of `linkCalls`. -/
def linked (n : Nat) : State := (linkCalls.take n).foldl Call.outcome ⟨fun _ => none, fun _ => 0⟩

theorem reached_linked : Reached (linked 4) := by
  have h1 : Reached (linked 1) := by
    refine .step (.add (.ok 1) none none) .init ?_ ⟨⟨fun _ _ => rfl, ?_⟩, _, _, rfl, rfl⟩
    · rintro p pd ⟨⟩
    · rintro p ⟨⟩
  have h2 : Reached (linked 2) :=
    .step (.configure 1 typeDirectory false none) h1 trivial ⟨⟨_, rfl, by decide⟩, rfl, rfl⟩
  have h3 : Reached (linked 3) := by
    refine .step (.add (.ok 2) (some 1) (some [76])) h2 ?_ ⟨⟨?_, ?_⟩, _, _, rfl, rfl⟩
    · rintro p pd ⟨⟩ ⟨⟩
      decide
    · rintro a ⟨⟩
      rfl
    · rintro p ⟨⟩
      exact Option.some_ne_none _
  exact .step (.configure 2 typeLink true (some 1)) h3 trivial ⟨⟨_, rfl, fun _ => rfl⟩, rfl, rfl⟩

/-- A node added through the link at 2. -/
def throughLink : Call := .add (.ok 3) (some 2) (some [78])

theorem step_throughLink : Step (linked 4) throughLink (throughLink.outcome (linked 4)) := by
  refine ⟨⟨?_, ?_⟩, _, _, rfl, rfl⟩
  · rintro a ⟨⟩
    rfl
  · rintro p ⟨⟩
    exact Option.some_ne_none _

/-- The hypotheses hold together: the link is removed from the root's children, and an addition
through it breaks the tree. -/
theorem wellFormed_of_plain_linked :
    Reached (linked 4) ∧ WellFormed (linked 4).heap ∧
    (∃ s', Step (linked 4) (.remove 2) s' ∧ Children s'.heap 1 []) ∧
    ¬ WellFormed (throughLink.outcome (linked 4)).heap := by
  obtain ⟨hwf, hstep, hremove, hlink⟩ := wellFormed_of_plain (linked 4) reached_linked
  have hlegal : (Call.remove 2).Legal (linked 4) := Option.some_ne_none _
  obtain ⟨s', hs'⟩ := hstep (.remove 2) hlegal trivial
  refine ⟨reached_linked, hwf, ⟨s', hs', ?_⟩, ?_⟩
  · exact hremove s' 2 1 [2] hs' ⟨_, rfl, rfl⟩ ⟨_, rfl, rfl, rfl⟩
  · exact hlink _ 3 2 _ _ rfl rfl step_throughLink

/-- **Reference counts.** In such a run a count is the number of references held, and one more under
a parent; so no held reference dangles. -/
theorem refCount_held (s : State) (hr : Reached s) (n : Addr) :
    (∀ nd, s.heap n = some nd → nd.refCount = s.held n + if nd.parent.isSome then 1 else 0) ∧
    (0 < s.held n → ∃ nd, s.heap n = some nd ∧ 0 < nd.refCount) := by
  obtain ⟨kids, rank, ht⟩ := hr.forest
  refine ⟨fun nd hn => (ht.counts hn).1, fun hheld => ?_⟩
  cases hn : s.heap n with
  | none => exact absurd (ht.dead hn) (by omega)
  | some nd =>
    have := (ht.counts hn).1
    exact ⟨nd, rfl, by omega⟩

/-- The root is held by its maker. -/
theorem refCount_held_linked : ∃ nd, (linked 4).heap 1 = some nd ∧ 0 < nd.refCount :=
  (refCount_held (linked 4) reached_linked 1).2 (by decide)

/-- **A node added through a link has the link as its parent.** The call succeeds, the node stands
among the children of the root, and its removal runs into the assertion. -/
theorem addNode_through_link :
    Reached (linked 4) ∧ Step (linked 4) throughLink (throughLink.outcome (linked 4)) ∧
    IsParent (throughLink.outcome (linked 4)).heap 3 2 ∧
    Children (throughLink.outcome (linked 4)).heap 1 [2, 3] ∧
    ¬ WellFormed (throughLink.outcome (linked 4)).heap ∧
    ∀ fuel, removeNode fuel 3 (throughLink.outcome (linked 4)).heap = none :=
  ⟨reached_linked, step_throughLink, ⟨_, rfl, rfl⟩, ⟨_, rfl, rfl, rfl, rfl⟩,
    not_wellFormed_of_link (s := linked 4) rfl rfl step_throughLink, fun _ => rfl⟩

end FoliOS.Strata.Gnt
