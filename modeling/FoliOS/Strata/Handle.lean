import FoliOS.Strata.Basic
import FoliOS.Strata.Utf

/-!
# Strata — opening a path (`handle/handle.c`, `gnt/path.c`, `gnt/resolve.c`)

`StHandle_Open` converts a path into a buffer of `PATH_MAX` characters on its stack and resolves it
from there. The stack is a map from indices of `path_buf` to characters; an index from `PATH_MAX` on
lies behind the buffer. A resolution keeps the stretches of it that are read. Nodes are only known
by what a resolution asks of them, and the resolver of a module by its contract in `strata/gnt.h`:
the path it leaves is a suffix of the one it got.

`sizeof(path_buf)` is passed where the number of elements belongs. `pathSafe_iff` says which paths
stay inside the buffer all the same.
-/

namespace FoliOS.Strata.Handle

open Utf

/-! ## The conversion -/

/-- `PATH_MAX` -/
def pathMax : Nat := 1024

/-- `PATH_UTF8_MAX` -/
def pathUtf8Max : Nat := pathMax * 4

/-- `sizeof(path_buf)` -/
def pathBufSize : Nat := pathMax * 4

/-- `strnlen`; the byte behind the last one is NUL. The loop goes on while `s <= maxlen`, so a
longer string counts one byte more than `maxlen`. -/
def strnlen (str : List UInt8) (maxlen : Nat) : Nat :=
  ((str.take (maxlen + 1)).takeWhile (· != 0)).length

/-- What `StUtf_Utf8ToUtf32` stores from the start of a buffer on: NUL too, if there is room. -/
def stored (destSize : Nat) (src : List UInt8) : List Nat :=
  let cs := utf8ToUtf32 destSize src
  if cs.length < destSize then cs ++ [0] else cs

abbrev Stack := Nat → Nat

def Stack.store (stack : Stack) (cs : List Nat) : Stack := fun i => cs.getD i (stack i)

/-- What `StHandle_Open` stores into `path_buf`. -/
def pathStored (path : List UInt8) : List Nat :=
  stored pathBufSize (path.take (strnlen path pathUtf8Max))

/-! ## Resolution -/

def slash : Nat := 0x2F
def dot : Nat := 0x2E

/-- `while (*path == '/') path++`, for at most `fuel` steps. -/
def skipSlashes (stack : Stack) : Nat → Nat → Nat
  | 0, path => path
  | fuel + 1, path => if stack path = slash then skipSlashes stack fuel (path + 1) else path

/-- `while (*path != '/' && *path != '\0') path++`, for at most `fuel` steps. -/
def skipToken (stack : Stack) : Nat → Nat → Nat
  | 0, path => path
  | fuel + 1, path =>
    if stack path ≠ slash ∧ stack path ≠ 0 then skipToken stack fuel (path + 1) else path

/-- `StGntPath_Next`: the start of the token and what remains behind it, unless the path is at its
end; and the last index read. -/
def stGntPathNext (stack : Stack) (fuel path : Nat) : Option (Nat × Nat) × Nat :=
  let token := skipSlashes stack fuel path
  if stack token = 0 then (none, token)
  else (some (token, skipToken stack fuel token), skipToken stack fuel token)

/-- What a resolution asks of the nodes. `resolve` is the resolver of the handler, with the last
index it reads; it leaves nothing where the source finds a null pointer. -/
structure Nodes (N : Type) where
  rootLocal : N
  rootNetwork : N
  parent : N → Option N
  isLink : N → Bool
  resolveLink : N → Nat → Except StStatus (N × Nat)
  children : N → List (List Nat × N)
  hasHandler : N → Bool
  resolve : N → Option (Stack → Nat → Except StStatus (Option (N × Nat)) × Nat)

/-- The contract of `StGnt_ResolveFunc`: a resolver reads its path up to the end and leaves a suffix
of it. -/
def Nodes.LeaveSuffix {N : Type} (nodes : Nodes N) : Prop :=
  ∀ node resolve, nodes.resolve node = some resolve →
    ∀ stack path limit, path ≤ limit → stack limit = 0 →
      (resolve stack path).2 ≤ limit ∧
      ∀ target rest, (resolve stack path).1 = .ok (some (target, rest)) → rest ≤ limit

/-- How a round of `StGnt_ResolvePath` ends. -/
inductive Round (N : Type) where
  | done (result : Except StStatus N)
  | next (path : Nat) (current : N) (linkDepth : Nat)

section

variable {N : Type} (nodes : Nodes N)

/-- `resolve_link` for a link, and nothing for other nodes. -/
def followLink (current : N) (linkDepth : Nat) : Except StStatus (N × Nat) :=
  if nodes.isLink current then nodes.resolveLink current linkDepth else .ok (current, linkDepth)

/-- A round of `StGnt_ResolvePath` for the token in front of `rest`, and what the resolver reads. -/
def resolveToken (stack : Stack) (token rest : Nat) (current : N) (linkDepth : Nat) :
    Round N × List (Nat × Nat) :=
  let name := (List.range (rest - token)).map fun i => stack (token + i)
  if name = [dot] then (.next rest current linkDepth, [])
  else if name = [dot, dot] then (.next rest ((nodes.parent current).getD current) linkDepth, [])
  else
    match followLink nodes current linkDepth with
    | .error e => (.done (.error e), [])
    | .ok (current, linkDepth) =>
      if !nodes.hasHandler current && (nodes.children current).isEmpty then
        (.done (.error .notADirectory), [])
      else
        match (nodes.children current).find? fun child => child.1 == name with
        | some (_, child) => (.next rest child linkDepth, [])
        | none =>
          if !nodes.hasHandler current then (.done (.error .entryNotFound), [])
          else if nodes.isLink current then (.done (.error .invalidValue), [])
          else
            match nodes.resolve current with
            | none => (.done (.error .notSupported), [])
            | some resolve =>
              match resolve stack token with
              | (.error e, last) => (.done (.error e), [(token, last)])
              | (.ok none, last) => (.done (.error .invalidValue), [(token, last)])
              | (.ok (some (target, remaining)), last) =>
                (.next remaining target linkDepth, [(token, last)])

/-- The loop of `StGnt_ResolvePath`, for at most `rounds` rounds: its result, if it has come to one,
and the stretches of the stack it has read. -/
def resolveLoop (stack : Stack) (fuel : Nat) :
    Nat → Nat → N → Nat → Option (Except StStatus N) × List (Nat × Nat)
  | 0, _, _, _ => (none, [])
  | rounds + 1, path, current, linkDepth =>
    match stGntPathNext stack fuel path with
    | (none, last) => (some ((followLink nodes current linkDepth).map (·.1)), [(path, last)])
    | (some (token, rest), last) =>
      match resolveToken nodes stack token rest current linkDepth with
      | (.done result, reads) => (some result, (path, last) :: reads)
      | (.next path' current linkDepth, reads) =>
        let (result, more) := resolveLoop stack fuel rounds path' current linkDepth
        (result, (path, last) :: reads ++ more)

/-- `StGnt_ResolvePath` -/
def stGntResolvePath (stack : Stack) (fuel rounds : Nat) (base : N) :
    Option (Except StStatus N) × List (Nat × Nat) :=
  let start : Nat × Nat × N :=
    if stack 0 = slash then
      if stack 1 = slash then (1, 2, nodes.rootNetwork) else (1, 1, nodes.rootLocal)
    else (0, 0, base)
  let (result, reads) := resolveLoop nodes stack fuel rounds start.2.1 start.2.2 0
  (result, (0, start.1) :: reads)

/-- `StHandle_Open`, where `create` is the part after the resolution: its status, if it has come to
one, and what of the stack was read to resolve the path. -/
def stHandleOpen (create : N → StStatus) (stack : Stack) (fuel rounds : Nat) (path : List UInt8) :
    Option StStatus × List (Nat × Nat) :=
  let (result, reads) :=
    stGntResolvePath nodes (stack.store (pathStored path)) fuel rounds nodes.rootLocal
  (result.map fun
    | .error e => e
    | .ok node => create node, reads)

end

/-! ## Reading up to the end -/

section

variable {stack : Stack} {limit : Nat}

theorem skipSlashes_le (hend : stack limit = 0) (fuel : Nat) : ∀ {path : Nat}, path ≤ limit →
    skipSlashes stack fuel path ≤ limit := by
  induction fuel with
  | zero => exact fun h => h
  | succ fuel ih =>
    intro path h
    rw [skipSlashes]
    split
    next hslash =>
      -- the end is no slash
      have hne : path ≠ limit := by
        rintro rfl
        rw [hend] at hslash
        cases hslash
      exact ih (by omega)
    next => exact h

theorem skipToken_le (hend : stack limit = 0) (fuel : Nat) : ∀ {path : Nat}, path ≤ limit →
    skipToken stack fuel path ≤ limit := by
  induction fuel with
  | zero => exact fun h => h
  | succ fuel ih =>
    intro path h
    rw [skipToken]
    split
    next hin =>
      have hne : path ≠ limit := fun heq => hin.2 (heq ▸ hend)
      exact ih (by omega)
    next => exact h

/-- A step of the cursor stays in front of the end. -/
theorem stGntPathNext_le (hend : stack limit = 0) (fuel : Nat) {path : Nat} (h : path ≤ limit) :
    (stGntPathNext stack fuel path).2 ≤ limit ∧
      ∀ token rest, (stGntPathNext stack fuel path).1 = some (token, rest) → token ≤ limit ∧
      rest ≤ limit := by
  have htoken := skipSlashes_le hend fuel h
  have hrest := skipToken_le hend fuel htoken
  unfold stGntPathNext
  dsimp only
  split
  next => exact ⟨htoken, fun _ _ h => nomatch h⟩
  next =>
    refine ⟨hrest, fun token rest heq => ?_⟩
    cases heq
    exact ⟨htoken, hrest⟩

variable {N : Type} {nodes : Nodes N}

section

variable (hnodes : nodes.LeaveSuffix) (hend : stack limit = 0)
include hnodes hend

/-- A round stays in front of the end. -/
theorem resolveToken_le {token rest : Nat} (htoken : token ≤ limit) (hrest : rest ≤ limit)
    (current : N) (linkDepth : Nat) :
    (∀ r ∈ (resolveToken nodes stack token rest current linkDepth).2, r.2 ≤ limit) ∧
      ∀ path c d, (resolveToken nodes stack token rest current linkDepth).1 = .next path c d →
        path ≤ limit := by
  have hnone : ∀ r : Nat × Nat, r ∈ ([] : List (Nat × Nat)) → r.2 ≤ limit := fun r hr =>
    absurd hr List.not_mem_nil
  have hkeep : ∀ (c c' : N) d d' path, Round.next rest c d = .next path c' d' → path ≤ limit := by
    intro c c' d d' path heq
    obtain ⟨rfl, -, -⟩ := Round.next.inj heq
    exact hrest
  unfold resolveToken
  dsimp only
  split
  next => exact ⟨hnone, fun _ _ _ => hkeep _ _ _ _ _⟩
  split
  next => exact ⟨hnone, fun _ _ _ => hkeep _ _ _ _ _⟩
  split
  next => exact ⟨hnone, fun _ _ _ h => nomatch h⟩
  next current _ _ =>
    split
    next => exact ⟨hnone, fun _ _ _ h => nomatch h⟩
    split
    next => exact ⟨hnone, fun _ _ _ => hkeep _ _ _ _ _⟩
    split
    next => exact ⟨hnone, fun _ _ _ h => nomatch h⟩
    split
    next => exact ⟨hnone, fun _ _ _ h => nomatch h⟩
    split
    next => exact ⟨hnone, fun _ _ _ h => nomatch h⟩
    next resolve hresolve =>
    have hread := hnodes current resolve hresolve stack token limit htoken hend
    split
    next hres =>
      rw [hres] at hread
      exact ⟨List.forall_mem_singleton.mpr hread.1, fun _ _ _ h => nomatch h⟩
    next hres =>
      rw [hres] at hread
      exact ⟨List.forall_mem_singleton.mpr hread.1, fun _ _ _ h => nomatch h⟩
    next target remaining last hres =>
      rw [hres] at hread
      refine ⟨List.forall_mem_singleton.mpr hread.1, fun path c d heq => ?_⟩
      obtain ⟨rfl, -, -⟩ := Round.next.inj heq
      exact hread.2 _ _ rfl

/-- The loop stays in front of the end. -/
theorem resolveLoop_le (fuel rounds : Nat) :
    ∀ {path : Nat} (current : N) (linkDepth : Nat), path ≤ limit →
      ∀ r ∈ (resolveLoop nodes stack fuel rounds path current linkDepth).2, r.2 ≤ limit := by
  induction rounds with
  | zero => exact fun _ _ _ r hr => absurd hr List.not_mem_nil
  | succ rounds ih =>
    intro path current linkDepth h
    have hnext := stGntPathNext_le hend fuel h
    rw [resolveLoop]
    split
    next last heq =>
      rw [heq] at hnext
      exact List.forall_mem_singleton.mpr hnext.1
    next token rest last heq =>
      rw [heq] at hnext
      obtain ⟨htoken, hrest⟩ := hnext.2 token rest rfl
      have hround := resolveToken_le hnodes hend htoken hrest current linkDepth
      split
      next result reads hres =>
        rw [hres] at hround
        exact List.forall_mem_cons.mpr ⟨hnext.1, hround.1⟩
      next path' current' linkDepth' reads hres =>
        rw [hres] at hround
        have hmore := ih current' linkDepth' (hround.2 _ _ _ rfl)
        intro r hr
        rcases List.mem_append.mp hr with hr | hr
        · rcases List.mem_cons.mp hr with rfl | hr
          · exact hnext.1
          · exact hround.1 r hr
        · exact hmore r hr

/-- **A resolution reads up to the end of the string and no further.** -/
theorem stGntResolvePath_le (fuel rounds : Nat) (base : N) :
    ∀ r ∈ (stGntResolvePath nodes stack fuel rounds base).2, r.2 ≤ limit := by
  unfold stGntResolvePath
  have hne : ∀ i, stack i = slash → i ≠ limit := by
    rintro i hi rfl
    rw [hend] at hi
    cases hi
  by_cases h0 : stack 0 = slash
  · have hone : 1 ≤ limit := Nat.one_le_iff_ne_zero.mpr (hne 0 h0).symm
    by_cases h1 : stack 1 = slash
    · have htwo : 2 ≤ limit := by
        have := hne 1 h1
        omega
      rw [if_pos h0, if_pos h1]
      exact List.forall_mem_cons.mpr ⟨hone, resolveLoop_le hnodes hend fuel rounds _ _ htwo⟩
    · rw [if_pos h0, if_neg h1]
      exact List.forall_mem_cons.mpr ⟨hone, resolveLoop_le hnodes hend fuel rounds _ _ hone⟩
  · rw [if_neg h0]
    exact List.forall_mem_cons.mpr
      ⟨Nat.zero_le _, resolveLoop_le hnodes hend fuel rounds _ _ (Nat.zero_le _)⟩

end

end

/-! ## The buffer -/

/-- The bytes of a path in front of its NUL. -/
def pathBytes (path : List UInt8) : List UInt8 := path.takeWhile (· != 0)

/-- What the buffer is there for: nothing is stored behind it, a NUL stands in it, whatever nodes
there are only it is read, and a path that does not fit is rejected. -/
structure PathSafe (path : List UInt8) : Prop where
  inside     : (pathStored path).length ≤ pathMax
  terminated : ∀ stack : Stack, ∃ i, i < pathMax ∧ stack.store (pathStored path) i = 0
  reads      :
      ∀ (N : Type) (nodes : Nodes N) (create : N → StStatus) (stack : Stack) (fuel rounds : Nat),
                 nodes.LeaveSuffix →
                 ∀ r ∈ (stHandleOpen nodes create stack fuel rounds path).2, r.2 < pathMax
  rejected   : pathMax ≤ countUtf8Chars (pathBytes path) →
                 ∀ (N : Type) (nodes : Nodes N) (create : N → StStatus) (stack : Stack)
                   (fuel rounds : Nat)
                   (st : StStatus), (stHandleOpen nodes create stack fuel rounds path).1 = some st →
                   checkSuccess st = false

/-- What `strnlen` counts: the bytes in front of the NUL, up to one more than the bound. -/
theorem take_strnlen (path : List UInt8) (maxlen : Nat) :
    path.take (strnlen path maxlen) = (pathBytes path).take (maxlen + 1) := by
  unfold strnlen pathBytes
  generalize maxlen + 1 = m
  induction m generalizing path with
  | zero => simp
  | succ m ih =>
    cases path with
    | nil => rfl
    | cons b path =>
      rw [List.take_succ_cons, List.takeWhile_cons, List.takeWhile_cons]
      split
      next => rw [List.length_cons, List.take_succ_cons, List.take_succ_cons, ih]
      next => rfl

/-- No character takes more than four bytes, so the count reaches a fourth of the bytes unless it
stops at `fuel` before. -/
theorem length_le_countLoop (fuel : Nat) : ∀ src : List UInt8,
    src.length ≤ 4 * countLoop fuel src ∨ countLoop fuel src = fuel := by
  induction fuel with
  | zero => exact fun _ => .inr rfl
  | succ fuel ih =>
    intro src
    cases src with
    | nil => exact .inl (Nat.zero_le _)
    | cons c src =>
      have hstep : countStep c src ≤ 4 := by
        have := getSeqLen_le c
        unfold countStep
        split
        · omega
        split
        · omega
        split <;> omega
      have hdrop : (src.drop (countStep c src - 1)).length = src.length - (countStep c src - 1) :=
        List.length_drop
      have hrest := ih (src.drop (countStep c src - 1))
      rw [countLoop, List.length_cons]
      omega

theorem length_le_count (src : List UInt8) : src.length ≤ 4 * countUtf8Chars src := by
  have h := length_le_countLoop src.length src
  unfold countUtf8Chars
  omega

/-- Every character takes a byte. -/
theorem countLoop_le_length (fuel : Nat) : ∀ src : List UInt8, countLoop fuel src ≤ src.length := by
  induction fuel with
  | zero => exact fun _ => Nat.zero_le _
  | succ fuel ih =>
    intro src
    cases src with
    | nil => exact le_rfl
    | cons c src =>
      have hrest := ih (src.drop (countStep c src - 1))
      rw [List.length_drop] at hrest
      rw [countLoop, List.length_cons]
      omega

/-- A path of fewer than `PATH_MAX` characters is stored with its NUL. -/
theorem pathStored_eq {path : List UInt8} (h : countUtf8Chars (pathBytes path) < pathMax) :
    ∃ cs : List Nat, pathStored path = cs ++ [0] ∧ cs.length < pathMax := by
  have hlen := length_le_count (pathBytes path)
  have htake : (pathBytes path).take (pathUtf8Max + 1) = pathBytes path :=
    List.take_of_length_le (by unfold pathUtf8Max; omega)
  have hcs : (utf8ToUtf32 pathBufSize (pathBytes path)).length = countUtf8Chars (pathBytes path) :=
    utf8ToUtf32_length (by unfold pathBufSize; omega)
  have hroom : pathMax < pathBufSize := by decide
  refine ⟨utf8ToUtf32 pathBufSize (pathBytes path), ?_, by omega⟩
  rw [pathStored, take_strnlen, htake, stored]
  exact if_pos (by omega)

/-- A longer path runs over the buffer. -/
theorem pathStored_overrun {path : List UInt8} (h : pathMax ≤ countUtf8Chars (pathBytes path)) :
    pathMax < (pathStored path).length := by
  obtain ⟨src, hsrc⟩ : ∃ src, src = (pathBytes path).take (pathUtf8Max + 1) := ⟨_, rfl⟩
  have hlen : pathMax ≤ (utf8ToUtf32 pathBufSize src).length := by
    by_cases hshort : (pathBytes path).length ≤ pathBufSize
    · have hall : src = pathBytes path :=
        hsrc.trans (List.take_of_length_le (Nat.le_succ_of_le hshort))
      rw [utf8ToUtf32_length ((countLoop_le_length _ src).trans (hall ▸ hshort)), hall]
      exact h
    · -- more than `PATH_UTF8_MAX` bytes make at least `PATH_MAX` characters
      have hfull : src.length = pathUtf8Max + 1 := by
        rw [hsrc, List.length_take]
        exact min_eq_left (not_le.mp hshort)
      have hcount := length_le_countLoop pathBufSize src
      rw [hfull] at hcount
      rw [length_utf8ToUtf32]
      unfold pathUtf8Max pathBufSize pathMax at *
      omega
  rw [pathStored, take_strnlen, ← hsrc, stored]
  split
  next =>
    rw [List.length_append, List.length_singleton]
    omega
  next hfull =>
    have : pathMax < pathBufSize := by decide
    omega

/-- **A path stays inside the buffer if and only if it has fewer than `PATH_MAX` characters.** -/
theorem pathSafe_iff (path : List UInt8) :
    PathSafe path ↔ countUtf8Chars (pathBytes path) < pathMax := by
  constructor
  · intro h
    by_contra hge
    exact absurd h.inside (by have := pathStored_overrun (not_lt.mp hge); omega)
  · intro h
    obtain ⟨cs, hstored, hlen⟩ := pathStored_eq h
    have hend : ∀ stack : Stack, stack.store (pathStored path) cs.length = 0 := by
      intro stack
      rw [hstored, Stack.store, List.getD_append_right _ _ _ _ le_rfl, Nat.sub_self]
      rfl
    refine ⟨?_, fun stack => ⟨cs.length, hlen, hend stack⟩, ?_,
      fun hge => absurd h (not_lt.mpr hge)⟩
    · rw [hstored, List.length_append, List.length_singleton]
      omega
    · intro N nodes create stack fuel rounds hnodes r hr
      exact (stGntResolvePath_le hnodes (hend stack) fuel rounds nodes.rootLocal r hr).trans_lt hlen

/-- 1024 letters: the NUL is stored behind the buffer. -/
theorem pathSafe_fails : ¬ PathSafe (List.replicate 1024 0x61) ∧
    (pathStored (List.replicate 1024 0x61)).length = 1025 := by
  have hlen : (pathStored (List.replicate 1024 0x61)).length = 1025 := by decide +kernel
  refine ⟨fun h => ?_, hlen⟩
  have hle := h.inside
  rw [hlen] at hle
  exact absurd hle (by decide)

end FoliOS.Strata.Handle
