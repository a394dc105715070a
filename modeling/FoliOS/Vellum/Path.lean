import Mathlib.Data.List.Basic
import Mathlib.Order.Nat

/-!
# Vellum — parts of a path (`vellum/core/path.c`)

`VlPath_GetFsname` and `VlPath_GetDirname` look for the end of the part and copy up to it. The exit
test of the copy loop compares the start of the path with that end and does not move, so the loop
copies nothing or fills the whole buffer.

* `parts_iff` — when the two functions return the part they are named after.
-/

namespace FoliOS.Vellum.Path

-- ----
-- Model
-- ----

/-- What a `const char *` points at: the text, and the memory behind its terminator. -/
structure CString where
  text  : List UInt8
  after : Nat → UInt8
  noNul : 0 ∉ text

/-- `path[i]` -/
def CString.byte (p : CString) (i : Nat) : UInt8 :=
  if i = p.text.length then 0 else (p.text[i]?).getD (p.after i)

/-- `strrchr` -/
def strrchr (c : UInt8) : List UInt8 → Option Nat
  | [] => none
  | b :: l => ((strrchr c l).map (· + 1)).or (if b = c then some 0 else none)

/-- A buffer, and the indices of the path that the copy read. -/
structure Copied where
  buf   : Nat → UInt8
  reads : List Nat

/-- The copy loop of both functions from index `i` on, with `left` bytes of the buffer left. -/
def copyLoop (p : CString) (stop : Nat) : Nat → Nat → Copied → Copied
  | 0, _, r => r
  | left + 1, i, r =>
    -- `path < fsname_end`: neither side depends on `i`
    if 0 < stop then
      copyLoop p stop left (i + 1) ⟨Function.update r.buf i (p.byte i), r.reads ++ [i]⟩
    else r

/-- `VlPath_GetFsname` -/
def getFsname (buf : Nat → UInt8) (len : Nat) (p : CString) : Copied :=
  match p.text.idxOf? 0x3A with
  | none => ⟨Function.update buf 0 0, []⟩
  | some stop => copyLoop p stop len 0 ⟨buf, []⟩

/-- `VlPath_GetDirname` -/
def getDirname (buf : Nat → UInt8) (len : Nat) (p : CString) : Copied :=
  copyLoop p ((strrchr 0x2F p.text).getD p.text.length) len 0 ⟨buf, []⟩

-- ----
-- The property
-- ----

/-- The text before the first `:`, if there is one. -/
def fsname (p : CString) : List UInt8 := p.text.take ((p.text.idxOf? 0x3A).getD 0)

/-- The text before the last `/`, or all of it as the code has it. -/
def dirname (p : CString) : List UInt8 :=
  p.text.take ((strrchr 0x2F p.text).getD p.text.length)

/-- The buffer holds `t` and a terminator, and nothing behind the path's terminator was read. -/
structure Returns (p : CString) (t : List UInt8) (r : Copied) : Prop where
  text   : ∀ i < t.length, t[i]? = some (r.buf i)
  nul    : r.buf t.length = 0
  inside : ∀ i ∈ r.reads, i ≤ p.text.length

-- ----
-- The loop
-- ----

variable {p : CString} {buf : Nat → UInt8} {len stop i : Nat} {c : UInt8}

theorem CString.byte_eq_zero_iff (hi : i ≤ p.text.length) : p.byte i = 0 ↔ i = p.text.length := by
  unfold CString.byte
  by_cases hend : i = p.text.length
  · simp [hend]
  · have hlt : i < p.text.length := by omega
    rw [if_neg hend, List.getElem?_eq_getElem hlt, Option.getD_some]
    refine iff_of_false ?_ hend
    intro hzero
    exact p.noNul (hzero ▸ List.getElem_mem hlt)

/-- With an end behind the start, the loop runs until the buffer is full. -/
theorem copyLoop_of_pos (hstop : 0 < stop) (left : Nat) (r : Copied) :
    (∀ k, (copyLoop p stop left i r).buf k = if i ≤ k ∧ k < i + left then p.byte k else r.buf k) ∧
      (copyLoop p stop left i r).reads = r.reads ++ List.range' i left := by
  induction left generalizing i r with
  | zero =>
    refine ⟨fun k => ?_, by simp [copyLoop]⟩
    rw [copyLoop, if_neg (by omega)]
  | succ left ih =>
    rw [copyLoop, if_pos hstop]
    obtain ⟨hbuf, hreads⟩ := ih (i := i + 1) ⟨Function.update r.buf i (p.byte i), r.reads ++ [i]⟩
    refine ⟨fun k => ?_, ?_⟩
    · rw [hbuf k]
      dsimp only
      rcases Nat.lt_trichotomy k i with hlt | rfl | hgt
      · rw [if_neg (by omega), if_neg (by omega), Function.update_of_ne (by omega)]
      · rw [if_neg (by omega), if_pos (by omega), Function.update_self]
      · rw [Function.update_of_ne (by omega)]
        exact if_congr (by omega) rfl rfl
    · rw [hreads, List.range'_succ, List.append_assoc]
      rfl

theorem copyLoop_zero (left : Nat) (r : Copied) : copyLoop p 0 left i r = r := by
  cases left with
  | zero => rfl
  | succ left => rw [copyLoop, if_neg (Nat.lt_irrefl 0)]

/-- A filled buffer holds the whole path, and nothing but that. -/
theorem returns_full_iff (hstop : 0 < stop) (hlen : p.text.length < len) {n : Nat}
    (hn : n ≤ p.text.length) :
    Returns p (p.text.take n) (copyLoop p stop len 0 ⟨buf, []⟩) ↔
      n = p.text.length ∧ len = p.text.length + 1 := by
  obtain ⟨hbuf, hreads⟩ := copyLoop_of_pos (p := p) (i := 0) hstop len ⟨buf, []⟩
  have hbyte : ∀ k < len, (copyLoop p stop len 0 ⟨buf, []⟩).buf k = p.byte k := by
    intro k hk
    rw [hbuf k, if_pos (by omega)]
  have hlength : (p.text.take n).length = n := by
    rw [List.length_take]
    omega
  constructor
  · rintro ⟨-, hnul, hinside⟩
    rw [hlength, hbyte n (by omega), CString.byte_eq_zero_iff hn] at hnul
    refine ⟨hnul, ?_⟩
    -- the last index of the buffer was read too
    have := hinside (len - 1) (by rw [hreads]; simp; omega)
    omega
  · rintro ⟨rfl, hfit⟩
    refine ⟨fun k hk => ?_, ?_, fun k hk => ?_⟩
    · rw [hlength] at hk
      rw [hbyte k (by omega), CString.byte, if_neg (by omega), List.take_length,
        List.getElem?_eq_getElem hk, Option.getD_some]
    · rw [hlength, hbyte _ hlen, CString.byte_eq_zero_iff le_rfl]
    · rw [hreads] at hk
      simp at hk
      omega

/-- A part that is empty or ends inside the path. -/
theorem returns_part_iff (hlen : p.text.length < len) (hstop : 0 < stop → stop < p.text.length) :
    Returns p (p.text.take stop) (copyLoop p stop len 0 ⟨buf, []⟩) ↔ stop = 0 ∧ buf 0 = 0 := by
  rcases Nat.eq_zero_or_pos stop with rfl | hpos
  · rw [copyLoop_zero, List.take_zero]
    exact ⟨fun h => ⟨rfl, h.nul⟩, fun h => ⟨by simp, h.2, by simp⟩⟩
  · have hlt := hstop hpos
    rw [returns_full_iff hpos hlen hlt.le]
    omega

theorem strrchr_lt {l : List UInt8} (h : strrchr c l = some i) : i < l.length := by
  induction l generalizing i with
  | nil => cases h
  | cons b l ih =>
    rw [strrchr] at h
    cases hl : strrchr c l with
    | none =>
      have : i = 0 := by
        by_cases hb : b = c <;> simp_all
      simp [this]
    | some j =>
      have hj := ih hl
      have : j + 1 = i := by simpa [hl] using h
      simp only [List.length_cons]
      omega

/-- **The two functions return their parts only where these are empty or the whole path.** An empty
part is right if the buffer was empty before, and the whole path if it fills the buffer. -/
theorem parts_iff (buf : Nat → UInt8) (len : Nat) (p : CString) (hlen : p.text.length < len) :
    (Returns p (fsname p) (getFsname buf len p) ↔
        p.text.idxOf? 0x3A = none ∨ p.text.idxOf? 0x3A = some 0 ∧ buf 0 = 0) ∧
      (Returns p (dirname p) (getDirname buf len p) ↔
        (p.text = [] ∨ strrchr 0x2F p.text = some 0) ∧ buf 0 = 0 ∨
          p.text ≠ [] ∧ strrchr 0x2F p.text = none ∧ len = p.text.length + 1) := by
  constructor
  · unfold fsname getFsname
    cases hidx : p.text.idxOf? 0x3A with
    | none =>
      refine iff_of_true ⟨by simp, by simp, by simp⟩ (Or.inl rfl)
    | some stop =>
      obtain ⟨hstop, -⟩ := List.findIdx?_eq_some_iff_getElem.mp hidx
      rw [Option.getD_some, returns_part_iff hlen fun _ => hstop]
      simp
  · unfold dirname getDirname
    cases hidx : strrchr 0x2F p.text with
    | some stop =>
      have hstop := strrchr_lt hidx
      have hne : p.text ≠ [] := List.ne_nil_of_length_pos (by omega)
      rw [Option.getD_some, returns_part_iff hlen fun _ => hstop]
      simp [hne]
    | none =>
      by_cases hnil : p.text = []
      · rw [Option.getD_none, returns_part_iff hlen (by simp [hnil])]
        simp [hnil]
      · have hpos := List.length_pos_iff.mpr hnil
        rw [Option.getD_none, returns_full_iff hpos hlen le_rfl]
        simp [hnil]

/-- `b:/a` into a buffer of six bytes: the whole path comes back, and one byte behind it. -/
theorem parts_whole_path :
    let p : CString := ⟨[98, 58, 47, 97], fun _ => 7, by decide⟩
    ((List.range 6).map (getFsname (fun _ => 1) 6 p).buf, (getFsname (fun _ => 1) 6 p).reads) =
        ([98, 58, 47, 97, 0, 7], [0, 1, 2, 3, 4, 5]) ∧
      fsname p = [98] ∧ dirname p = [98, 58] ∧
      (List.range 6).map (getDirname (fun _ => 1) 6 p).buf = [98, 58, 47, 97, 0, 7] := by
  decide

/-- A path without separators, into a buffer that it fills. -/
theorem parts_iff_bare :
    let p : CString := ⟨[97], fun _ => 7, by decide⟩
    Returns p (fsname p) (getFsname (fun _ => 1) 2 p) ∧
      Returns p (dirname p) (getDirname (fun _ => 1) 2 p) := by
  intro p
  obtain ⟨hfs, hdir⟩ := parts_iff (fun _ => 1) 2 p (by decide)
  exact ⟨hfs.mpr (Or.inl (by decide)), hdir.mpr (Or.inr (by decide))⟩

end FoliOS.Vellum.Path
