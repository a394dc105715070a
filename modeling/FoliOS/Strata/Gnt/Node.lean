import FoliOS.Strata.Basic

/-!
# The global node tree (`strata/gnt/`)

Nodes are records in a heap and point at each other by address. A node holds its parent, its
next sibling, and the first and last of its children. `StGnt_AddNode`, `StGnt_RemoveNode`,
`StGnt_AcquireNode`, `StGnt_ReleaseNode`, `StGnt_FinalizeNode` and `StGnt_ResolveLink` are
modelled on that heap. A call that dereferences a null or freed pointer, or that runs into a
failing `assert`, has no result. The pool's answer is an argument of `addNode`: the address of
a free block, or a failure status.

The pointer loops and the recursion of the finaliser take a fuel argument.

Left out: the interface list and the handler module of a node, which none of these functions
reads in order to change the tree, and the path of a physical link, which is freed with it.
-/

namespace FoliOS.Strata.Gnt

/-! ## Nodes -/

/-- The address of a node. -/
abbrev Addr := Nat

/-- `GNT_NODETYPE_LEAF` -/
def typeLeaf : Nat := 0

/-- `GNT_NODETYPE_DIRECTORY` -/
def typeDirectory : Nat := 1

/-- `GNT_NODETYPE_LINK` -/
def typeLink : Nat := 2

/-- `NODENAME_MAX` -/
def nodenameMax : Nat := 256

/-- `NODELINK_MAX` -/
def nodelinkMax : Nat := 32

/-- The range of `ref_count`. -/
def refLimit : Nat := 2 ^ 32

/-- `struct StGnt_Node` -/
structure Node where
  refCount     : Nat
  parent       : Option Addr := none
  sibling      : Option Addr := none
  nameLen      : Nat := 0
  name         : List Nat := []
  type         : Nat := typeLeaf
  childrenHead : Option Addr := none
  childrenTail : Option Addr := none
  isVirtual    : Bool := false
  targetNode   : Option Addr := none
  deriving DecidableEq, Repr

/-- The allocated nodes. -/
abbrev Heap := Addr → Option Node

/-- A store to the node at `a`. -/
def Heap.set (h : Heap) (a : Addr) (nd : Node) : Heap := Function.update h a (some nd)

/-- `StPool_Free` -/
def Heap.free (h : Heap) (a : Addr) : Heap := Function.update h a none

@[simp] theorem Heap.set_self (h : Heap) (a : Addr) (nd : Node) : h.set a nd a = some nd := by
  simp [Heap.set]

theorem Heap.set_of_ne {a b : Addr} (hne : b ≠ a) (h : Heap) (nd : Node) : h.set a nd b = h b := by
  simp [Heap.set, hne]

theorem Heap.set_set (h : Heap) (a : Addr) (nd nd' : Node) :
    (h.set a nd).set a nd' = h.set a nd' := by
  simp [Heap.set]

@[simp] theorem Heap.free_self (h : Heap) (a : Addr) : h.free a a = none := by
  simp [Heap.free]

theorem Heap.free_of_ne {a b : Addr} (hne : b ≠ a) (h : Heap) : h.free a b = h b := by
  simp [Heap.free, hne]

/-! ## Adding -/

/-- `StUtf_CountUtf32Chars`: the loop tests `s <= bufsize / 4`, so it can count one character
more than the buffer holds. -/
def countUtf32Chars (str : List Nat) (bufsize : Nat) : Nat :=
  min (str.takeWhile (· ≠ 0)).length (bufsize / 4 + 1)

/-- The copy of a name into its node. `type` lies right behind the `NODENAME_MAX` characters
of `name`, so the one character too many lands there. -/
def storeName (name : Option (List Nat)) (nd : Node) : Node :=
  match name with
  | none => { nd with nameLen := 0 }
  | some str =>
    let n := countUtf32Chars str (4 * nodenameMax)
    { nd with
      nameLen := n
      name := str.take (min n nodenameMax)
      type := if nodenameMax < n then (str[nodenameMax]?).getD nd.type else nd.type }

/-- `resolve_link`, with the number of links that may still be followed. -/
def resolveLink (h : Heap) : Nat → Addr → Option (Except StStatus Addr)
  | left, a =>
    match h a with
    | none => none
    | some nd =>
      if nd.type ≠ typeLink then some (.ok a)
      else
        match left with
        | 0 => some (.error .tooManyLinks)
        | left + 1 =>
          if nd.isVirtual then
            if nd.targetNode = some a then some (.error .tooManyLinks)
            else
              match nd.targetNode with
              | none => none
              | some t => resolveLink h left t
          else some (.error .notImplemented)

/-- The append to the child list of `p` that `StGnt_AddNode` makes. -/
def attach (h : Heap) (p a : Addr) : Option Heap :=
  match h p with
  | none => none
  | some pd =>
    match pd.childrenHead with
    | none => some (h.set p { pd with childrenHead := some a, childrenTail := some a })
    | some _ =>
      match pd.childrenTail with
      | none => none
      | some t =>
        match h t with
        | none => none
        | some td =>
          let h := h.set t { td with sibling := some a }
          match h p with
          | none => none
          | some pd => some (h.set p { pd with childrenTail := some a })

/-- The last part of `StGnt_AddNode`. -/
def nameNode (a : Addr) (name : Option (List Nat)) (h : Heap) :
    Option (StStatus × Option Addr × Heap) :=
  match h a with
  | none => none
  | some nd => some (.success, some a, h.set a (storeName name nd))

/-- `StGnt_AddNode`. The status, the node, and the heap: where a link does not resolve, the new
node stays allocated and keeps its parent pointer. -/
def addNode (slot : Except StStatus Addr) (parent : Option Addr) (name : Option (List Nat))
    (h : Heap) : Option (StStatus × Option Addr × Heap) :=
  match slot with
  | .error e => some (e, none, h)
  | .ok a =>
    -- the parent pointer is written before a link is resolved
    let h := h.set a { refCount := 1, parent := parent }
    match parent with
    | none => nameNode a name h
    | some p =>
      match h p with
      | none => none
      | some pd =>
        if pd.type = typeLink then
          match resolveLink h nodelinkMax p with
          | none => none
          | some (.error e) => some (e, none, h)
          | some (.ok t) => (attach h t a).bind (nameNode a name)
        else (attach h p a).bind (nameNode a name)

/-! ## References -/

/-- `StGnt_AcquireNode` -/
def acquireNode (n : Addr) (h : Heap) : Option Heap :=
  match h n with
  | none => none
  | some nd => some (h.set n { nd with refCount := (nd.refCount + 1) % refLimit })

mutual

/-- `StGnt_ReleaseNode` with `StGnt_FinalizeNode`, which the last release calls. -/
def releaseNode : Nat → Addr → Heap → Option Heap
  | 0, _, _ => none
  | fuel + 1, n, h =>
    match h n with
    | none => none
    | some nd =>
      let rest := { nd with refCount := (nd.refCount + refLimit - 1) % refLimit }
      if nd.refCount ≠ 1 then some (h.set n rest)
      else if nd.type ≠ typeLink then
        (releaseChildren fuel nd.childrenHead
          (h.set n { rest with childrenHead := none, childrenTail := none })).map (·.free n)
      else some ((h.set n rest).free n)

/-- The loop of `StGnt_FinalizeNode` over the children. -/
def releaseChildren : Nat → Option Addr → Heap → Option Heap
  | 0, _, _ => none
  | _ + 1, none, h => some h
  | fuel + 1, some c, h =>
    match h c with
    | none => none
    | some cd =>
      (releaseNode fuel c (h.set c { cd with parent := none, sibling := none })).bind
        (releaseChildren fuel cd.sibling)

end

/-! ## Removing -/

/-- The search of `StGnt_RemoveNode` for the sibling before `n`. -/
def findPrev (h : Heap) (n : Addr) : Nat → Option Addr → Option (Option Addr)
  | 0, _ => none
  | _ + 1, none => some none
  | fuel + 1, some c =>
    match h c with
    | none => none
    | some cd => if cd.sibling = some n then some (some c) else findPrev h n fuel cd.sibling

/-- The unlinking of `n` from the child list of `p`: the heap and `prev`. -/
def unlink (fuel : Nat) (n p : Addr) (h : Heap) : Option (Option Addr × Heap) :=
  match h n, h p with
  | some nd, some pd =>
    if pd.childrenHead = some n then
      some (none, h.set p { pd with childrenHead := nd.sibling })
    else
      match findPrev h n fuel pd.childrenHead with
      | some (some prev) =>
        (h prev).map fun vd => (some prev, h.set prev { vd with sibling := nd.sibling })
      | _ => none
  | _, _ => none

/-- `StGnt_RemoveNode` -/
def removeNode (fuel : Nat) (n : Addr) (h : Heap) : Option Heap :=
  match h n with
  | none => none
  | some nd =>
    match nd.parent with
    | none => some h
    | some p =>
      match h p with
      | none => none
      | some pd =>
        -- assert(parent->type != GNT_NODETYPE_LINK)
        if pd.type = typeLink then none
        else
          match unlink fuel n p h with
          | none => none
          | some (prev, h) =>
            match h p with
            | none => none
            | some pd =>
              let h := if pd.childrenTail = some n then h.set p { pd with childrenTail := prev }
                else h
              match h n with
              | none => none
              | some nd => releaseNode fuel n (h.set n { nd with parent := none, sibling := none })

/-! ## Counting -/

/-- The loop of `StUtf_CountUtf32Chars` at index `s`: the count, and the indices it reads from there
on. The end of the list is the terminator. -/
def countUtf32Loop (limit : Nat) : List Nat → Nat → Nat × List Nat
  | [], s => (s, [s])
  | c :: str, s =>
    -- the element is read before `s` is compared, and `s = limit` still goes on
    if c ≠ 0 ∧ s ≤ limit then
      let rest := countUtf32Loop limit str (s + 1)
      (rest.1, s :: rest.2)
    else (s, [s])

theorem countUtf32Loop_eq (limit : Nat) (str : List Nat) (s : Nat) (hs : s ≤ limit + 1) :
    ∃ n, n + s = min ((str.takeWhile (· ≠ 0)).length + s) (limit + 1) ∧
      countUtf32Loop limit str s = (n + s, List.range' s (n + 1)) := by
  induction str generalizing s with
  | nil => exact ⟨0, by simp; omega, by simp [countUtf32Loop]⟩
  | cons c str ih =>
    rw [countUtf32Loop]
    by_cases hon : c ≠ 0 ∧ s ≤ limit
    · obtain ⟨n, hn, heq⟩ := ih (s + 1) (by omega)
      refine ⟨n + 1, ?_, ?_⟩
      · rw [List.takeWhile_cons_of_pos (by simpa using hon.1), List.length_cons]
        omega
      · rw [if_pos hon, heq, List.range'_succ (n := n + 1), Nat.add_assoc n 1, Nat.add_comm 1]
    · rw [if_neg hon]
      refine ⟨0, ?_, by simp⟩
      by_cases hc : c = 0
      · rw [List.takeWhile_cons_of_neg (by simpa using hc), List.length_nil]
        omega
      · have : ¬ s ≤ limit := fun h => hon ⟨hc, h⟩
        omega

/-- **`StUtf_CountUtf32Chars` counts right and stays inside the buffer exactly for the strings that
end inside it**, and `StGnt_AddNode` copies no more than a name holds exactly for the names that
fit. -/
theorem count_within_iff (str : List Nat) (bufsize : Nat) (nd : Node) :
    (((countUtf32Loop (bufsize / 4) str 0).1 =
          min (str.takeWhile (· ≠ 0)).length (bufsize / 4) ∧
        ∀ i ∈ (countUtf32Loop (bufsize / 4) str 0).2, i < bufsize / 4) ↔
      (str.takeWhile (· ≠ 0)).length < bufsize / 4) ∧
    (countUtf32Loop (bufsize / 4) str 0).1 = countUtf32Chars str bufsize ∧
    ((storeName (some str) nd).nameLen ≤ nodenameMax ↔
      (str.takeWhile (· ≠ 0)).length ≤ nodenameMax) := by
  obtain ⟨n, hn, heq⟩ := countUtf32Loop_eq (bufsize / 4) str 0 (Nat.zero_le _)
  rw [heq]
  refine ⟨⟨?_, ?_⟩, hn, ?_⟩
  · rintro ⟨-, hreads⟩
    -- the element the loop stops at has been read
    have := hreads n (by simp)
    omega
  · intro hlt
    refine ⟨by omega, fun i hi => ?_⟩
    have : i < n + 1 := by simpa using hi
    omega
  · simp only [storeName, countUtf32Chars, nodenameMax]
    omega

/-- A buffer of two characters, and a name of 257. -/
theorem count_past_end :
    countUtf32Loop (8 / 4) [65, 66, 67, 68] 0 = (3, [0, 1, 2, 3]) ∧
      (storeName (some (List.replicate 257 65)) { refCount := 1 }).nameLen = 257 := by
  decide +kernel

end FoliOS.Strata.Gnt
