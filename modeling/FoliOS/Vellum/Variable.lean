import FoliOS.Vellum.Path
import Mathlib.Algebra.Group.Nat.Defs

/-!
# Vellum — the shell's variables (`vellum/shell/variable.c`)

A variable is one allocated entry: the link, the two lengths, the key and the value.

* `run_eq_mapRun_iff` — a sequence of calls behaves as a map exactly if it sets nothing, since
  every `VlShell_SetVariable` stores one byte more than it allocates. The loader's own `strncpy`,
  called with the length and one more, stores no terminator behind the key and the value.
-/

namespace FoliOS.Vellum.Variable

open FoliOS.Vellum.Path (CString)

-- ----
-- Model
-- ----

/-- `struct shell_var` without `value_len`, which nothing reads, and the bytes allocated for
`str`. -/
structure ShellVar where
  next   : Option Nat
  keyLen : Nat
  str    : Nat → UInt8
  size   : Nat

/-- `var_list`, and the entries by their addresses. -/
structure Shell where
  varList : Option Nat
  heap    : Nat → Option ShellVar

inductive Call where
  | get (key : CString)
  /-- The allocation is at `addr`, and `junk` is what the memory there reads as. -/
  | set (key value : CString) (addr : Nat) (junk : ShellVar)

/-- What a caller sees of a call. -/
inductive Outcome where
  | got (value : Option (List UInt8))
  | stored (past : Bool)
  /-- The list leads to memory that is no entry, or does not end. -/
  | undefined
  deriving DecidableEq

/-- The loop of `strncmp` from index `i` on: whether it ends at equal bytes. -/
def strncmpLoop (p1 p2 : Nat → UInt8) : Nat → Nat → Bool
  | 0, i => p1 i == p2 i
  | maxlen + 1, i =>
    if p1 i = 0 ∨ p1 i ≠ p2 i then p1 i == p2 i else strncmpLoop p1 p2 maxlen (i + 1)

/-- `strncmp(p1, p2, maxlen) == 0`; `--maxlen` comes first, and a length of 0 wraps round. -/
def strncmpEq (p1 p2 : Nat → UInt8) (maxlen : Nat) : Bool :=
  strncmpLoop p1 p2 ((maxlen + (2 ^ 32 - 1)) % 2 ^ 32) 0

/-- The stores of `strncpy(dest, src, maxlen)` from byte `i` on. The terminator is only stored if
the loop leaves a length, and a length of 0 has wrapped round by then. -/
def strncpy (dest : Nat) (src : Nat → UInt8) : Nat → Nat → List (Nat × UInt8)
  | 0, i => [(dest + i, 0)]
  | maxlen + 1, i =>
    if src i = 0 then if maxlen = 0 then [] else [(dest + i, 0)]
    else (dest + i, src i) :: strncpy dest src maxlen (i + 1)

/-- The search loop of both functions: the entry it stops at, and the one before. -/
def search (s : Shell) (key : CString) :
    Nat → Option Nat → Option Nat → Option (Option Nat × Option Nat)
  | _, none, prev => some (none, prev)
  | 0, some _, _ => none
  | fuel + 1, some a, prev =>
    (s.heap a).bind fun v =>
      if strncmpEq v.str key.byte v.keyLen then some (some a, prev)
      else search s key fuel v.next (some a)

/-- `VlShell_GetVariable` -/
def getVariable (fuel : Nat) (s : Shell) (key : CString) : Outcome :=
  match search s key fuel s.varList none with
  | none => .undefined
  | some (entry, _) => .got <| (entry.bind s.heap).map fun v =>
    ((List.range v.size).map fun i => v.str (v.keyLen + 1 + i)).takeWhile (· ≠ 0)

/-- `realloc`: a new entry keeps what its memory held, its link too. -/
def realloc (s : Shell) (entry : Option Nat) (size : Nat) (junk : ShellVar) : ShellVar :=
  match entry.bind s.heap with
  | none => { junk with size }
  | some v => { v with size, str := fun i => if i < v.size then v.str i else junk.str i }

/-- `VlShell_SetVariable` -/
def setVariable (fuel : Nat) (s : Shell) (key value : CString) (addr : Nat) (junk : ShellVar) :
    Outcome × Shell :=
  match search s key fuel s.varList none with
  | none => (.undefined, s)
  | some (entry, prev) =>
    let keyLen := key.text.length
    let valueLen := value.text.length
    let v := realloc s entry (keyLen + valueLen + 2) junk
    let stores := strncpy 0 key.byte (keyLen + 1) 0 ++
      strncpy (keyLen + 1) value.byte (valueLen + 1) 0 ++ [(keyLen + valueLen + 2, 0)]
    let str := stores.foldl (fun str b => Function.update str b.1 b.2) v.str
    let v := { v with keyLen, str }
    let freed := entry.elim s.heap fun a => Function.update s.heap a none
    let heap := Function.update freed addr (some v)
    (.stored (stores.any fun b => v.size ≤ b.1),
      match prev with
      | some p => { s with heap := Function.update heap p ((heap p).map ({ · with next := addr })) }
      -- the list is empty, or the entry is its first
      | none => ⟨some addr, heap⟩)

def exec (fuel : Nat) (s : Shell) : Call → Outcome × Shell
  | .get key => (getVariable fuel s key, s)
  | .set key value addr junk => setVariable fuel s key value addr junk

def run (fuel : Nat) : Shell → List Call → List Outcome
  | _, [] => []
  | s, c :: cs => (exec fuel s c).1 :: run fuel (exec fuel s c).2 cs

/-- A shell without variables. -/
def fresh : Shell := ⟨none, fun _ => none⟩

-- ----
-- The map
-- ----

/-- The outcomes of the calls on a map from strings to strings. -/
def mapRun : (List UInt8 → Option (List UInt8)) → List Call → List Outcome
  | _, [] => []
  | m, .get key :: cs => .got (m key.text) :: mapRun m cs
  | m, .set key value _ _ :: cs =>
    .stored false :: mapRun (Function.update m key.text (some value.text)) cs

/-- The first variable already is stored past its entry. -/
theorem setVariable_fresh (fuel : Nat) (key value : CString) (addr : Nat) (junk : ShellVar) :
    (setVariable fuel fresh key value addr junk).1 = .stored true := by
  have hpast : ∀ stores : List (Nat × UInt8),
      (stores ++ [(key.text.length + value.text.length + 2, 0)]).any
        (fun b => key.text.length + value.text.length + 2 ≤ b.1) = true := by
    intro stores
    rw [List.any_append]
    simp
  cases fuel <;> exact congrArg Outcome.stored (hpast _)

/-- **The variables are a map as long as none is set.** -/
theorem run_eq_mapRun_iff (fuel : Nat) (calls : List Call) :
    run fuel fresh calls = mapRun (fun _ => none) calls ↔ ∀ c ∈ calls, ∃ key, c = .get key := by
  induction calls with
  | nil => simp [run, mapRun]
  | cons c cs ih =>
    rw [List.forall_mem_cons, ← ih]
    cases c with
    | get key =>
      -- nothing is found, and nothing changes
      have hrun : run fuel fresh (.get key :: cs) = .got none :: run fuel fresh cs := by
        cases fuel <;> rfl
      rw [hrun, mapRun, List.cons_inj_right]
      exact ⟨fun h => ⟨⟨key, rfl⟩, h⟩, And.right⟩
    | set key value addr junk =>
      refine iff_of_false (fun h => ?_) fun h => ?_
      · have hhead := (List.cons.inj h).1
        rw [exec, setVariable_fresh] at hhead
        cases hhead
      · obtain ⟨key', hkey⟩ := h.1
        cases hkey

/-- `A` is set to `123` and then to `4`, in cleared memory: a byte goes past the entry each time,
`A` is `42`, and `AB` is found as well. -/
theorem set_past_entry :
    let key (t : List UInt8) (h : 0 ∉ t) : CString := ⟨t, fun _ => 0, h⟩
    let a := key [0x41] (by decide)
    let calls : List Call := [
      .set a (key [0x31, 0x32, 0x33] (by decide)) 0 ⟨none, 0, fun _ => 0, 0⟩,
      .set a (key [0x34] (by decide)) 1 ⟨none, 0, fun _ => 0, 0⟩,
      .get a, .get (key [0x41, 0x42] (by decide))]
    run 2 fresh calls =
        [.stored true, .stored true, .got (some [0x34, 0x32]), .got (some [0x34, 0x32])] ∧
      mapRun (fun _ => none) calls =
        [.stored false, .stored false, .got (some [0x34]), .got none] := by
  decide

end FoliOS.Vellum.Variable
