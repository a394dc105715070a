import Mathlib.Data.List.GetD
import Mathlib.Data.Nat.ModEq
import Mathlib.Tactic.Ring

/-!
# Byte-addressed memory

A memory is a function from addresses to bytes. `put` writes a list of bytes, `slice` reads
one back, and a little-endian number is a slice under `ofLe`. `Holds m off l` says that the
bytes `l` stand at `off`; what a later write leaves alone still holds.
-/

namespace FoliOS.Lib

variable {v a i : Nat} {ws : List (Nat × List UInt8)}

/-! ## Little-endian numbers -/

/-- The `width` low bytes of `v`, lowest first. -/
def le : Nat → Nat → List UInt8
  | 0, _ => []
  | width + 1, v => UInt8.ofNat v :: le width (v / 256)

def ofLe : List UInt8 → Nat
  | [] => 0
  | b :: l => b.toNat + 256 * ofLe l

@[simp] theorem length_le (width v : Nat) : (le width v).length = width := by
  induction width generalizing v with
  | zero => rfl
  | succ width ih => rw [le, List.length_cons, ih]

theorem ofLe_le (width v : Nat) : ofLe (le width v) = v % 256 ^ width := by
  induction width generalizing v with
  | zero => rw [pow_zero, Nat.mod_one]; rfl
  | succ width ih =>
    rw [le, ofLe, ih, UInt8.toNat_ofNat', pow_succ' 256 width]
    exact (Nat.mod_mul).symm

/-! ## Memory -/

abbrev Bytes := Nat → UInt8

namespace Bytes

variable {m m' : Bytes} {off n width : Nat} {l l' : List UInt8}

/-- The memory with `l` written at `off`. -/
def put (m : Bytes) (off : Nat) (l : List UInt8) : Bytes := fun a =>
  if off ≤ a ∧ a < off + l.length then l.getD (a - off) 0 else m a

/-- The `n` bytes from `off` on. -/
def slice (m : Bytes) (off n : Nat) : List UInt8 := (List.range n).map fun i => m (off + i)

/-- The little-endian number of `width` bytes at `off`. -/
def word (m : Bytes) (width off : Nat) : Nat := ofLe (m.slice off width)

/-- The bytes `l` stand at `off`. -/
def Holds (m : Bytes) (off : Nat) (l : List UInt8) : Prop := m.slice off l.length = l

theorem put_of_notMem (h : ¬ (off ≤ a ∧ a < off + l.length)) : m.put off l a = m a :=
  if_neg h

@[simp] theorem length_slice (m : Bytes) (off n : Nat) : (m.slice off n).length = n := by
  rw [slice, List.length_map, List.length_range]

theorem slice_congr (h : ∀ a, off ≤ a → a < off + n → m' a = m a) :
    m'.slice off n = m.slice off n := by
  refine List.map_congr_left fun i hi => h _ (by omega) ?_
  have := List.mem_range.mp hi
  omega

theorem slice_append (m : Bytes) (off a b : Nat) :
    m.slice off (a + b) = m.slice off a ++ m.slice (off + a) b := by
  unfold slice
  rw [List.range_add, List.map_append, List.map_map]
  congr 1
  exact List.map_congr_left fun i _ => by rw [Function.comp_apply, Nat.add_assoc]

theorem word_congr (h : ∀ a, off ≤ a → a < off + width → m' a = m a) :
    m'.word width off = m.word width off := by
  rw [word, word, slice_congr h]

theorem word_zero (h : ∀ a, off ≤ a → a < off + width → m a = 0) : m.word width off = 0 := by
  have hofLe : ∀ l : List Nat, ofLe (l.map fun _ => 0) = 0 := by
    intro l
    induction l with
    | nil => rfl
    | cons x l ih => rw [List.map_cons, ofLe, ih]; rfl
  rw [word_congr (m := fun _ => 0) h]
  exact hofLe _

/-- A byte of a copied slice. -/
theorem put_slice_apply (m : Bytes) (off src : Nat) (hi : i < n) :
    m.put off (m.slice src n) (off + i) = m (src + i) := by
  unfold put
  rw [length_slice, if_pos ⟨Nat.le_add_right _ _, by omega⟩, Nat.add_sub_cancel_left, slice,
    List.getD_eq_getElem?_getD, List.getElem?_map, List.getElem?_range hi]
  rfl

theorem holds_put (m : Bytes) (off : Nat) (l : List UInt8) : Holds (m.put off l) off l := by
  unfold Holds slice
  apply List.ext_getElem
  · rw [List.length_map, List.length_range]
  · intro i hi hi'
    rw [List.getElem_map, List.getElem_range, put, if_pos ⟨by omega, by omega⟩,
      Nat.add_sub_cancel_left, List.getD_eq_getElem _ _ hi']

/-- A piece of another memory, byte by byte. -/
theorem holds_slice {start : Nat} :
    Holds m off (m'.slice start n) ↔ ∀ i < n, m (off + i) = m' (start + i) := by
  unfold Holds
  rw [length_slice]
  unfold slice
  rw [List.map_inj_left]
  simp only [List.mem_range]

/-- What is not written to still holds. -/
theorem Holds.congr (hh : Holds m off l) (h : ∀ a, off ≤ a → a < off + l.length → m' a = m a) :
    Holds m' off l := by
  unfold Holds
  rw [slice_congr h]
  exact hh

theorem holds_append : Holds m off (l ++ l') ↔ Holds m off l ∧ Holds m (off + l.length) l' := by
  unfold Holds
  rw [List.length_append, slice_append]
  constructor
  · intro h
    exact List.append_inj h (length_slice _ _ _)
  · rintro ⟨h, h'⟩
    rw [h, h']

theorem Holds.word (h : Holds m off (le width v)) : m.word width off = v % 256 ^ width := by
  unfold Holds at h
  rw [length_le] at h
  rw [Bytes.word, h, ofLe_le]

theorem Holds.word_of_lt (h : Holds m off (le width v)) (hv : v < 256 ^ width) :
    m.word width off = v := by
  rw [h.word, Nat.mod_eq_of_lt hv]

theorem word_two (m : Bytes) (off : Nat) :
    m.word 2 off = m.word 1 off + 256 * m.word 1 (off + 1) := rfl

theorem word_one_lt (m : Bytes) (off : Nat) : m.word 1 off < 256 := (m off).toNat_lt

/-- A field of what was read, in the memory. -/
theorem take_drop_slice {k : Nat} (h : k + width ≤ n) :
    ((m.slice off n).drop k).take width = m.slice (off + k) width := by
  obtain ⟨r, rfl⟩ := Nat.exists_eq_add_of_le h
  rw [slice_append, slice_append, List.append_assoc, List.drop_left' (length_slice _ _ _),
    List.take_left' (length_slice _ _ _)]

/-! ## Several writes -/

/-- The memory after the writes, the first one first. -/
def putAll (m : Bytes) (ws : List (Nat × List UInt8)) : Bytes :=
  ws.foldl (fun m w => m.put w.1 w.2) m

/-- The two pieces have no byte in common. -/
def Apart (w w' : Nat × List UInt8) : Prop :=
  w.1 + w.2.length ≤ w'.1 ∨ w'.1 + w'.2.length ≤ w.1

theorem putAll_of_notMem (h : ∀ w ∈ ws, ¬ (w.1 ≤ a ∧ a < w.1 + w.2.length)) :
    m.putAll ws a = m a := by
  induction ws generalizing m with
  | nil => rfl
  | cons w ws ih =>
    have htail := ih (m := m.put w.1 w.2) fun w' hw' => h w' (List.mem_cons_of_mem _ hw')
    exact htail.trans (put_of_notMem (h w List.mem_cons_self))

/-- Of writes apart from each other each one holds in the end. -/
theorem holds_putAll (hws : ws.Pairwise Apart) {w : Nat × List UInt8} (hw : w ∈ ws) :
    Holds (m.putAll ws) w.1 w.2 := by
  induction ws generalizing m with
  | nil => cases hw
  | cons w' ws ih =>
    obtain ⟨hapart, hws⟩ := List.pairwise_cons.mp hws
    rcases List.mem_cons.mp hw with rfl | hw
    · refine (holds_put m w.1 w.2).congr fun a ha ha' => ?_
      show (m.put w.1 w.2).putAll ws a = _
      refine putAll_of_notMem fun w' hw' hmem => ?_
      rcases hapart w' hw' with hle | hle <;> omega
    · exact ih hws hw

/-! ## Bits -/

/-- Bit `i` of the bitmap at `off`, the lowest bit of a byte first. -/
def bit (m : Bytes) (off i : Nat) : Bool := (m (off + i / 8)).toNat.testBit (i % 8)

theorem bit_congr {off' : Nat} (h : m' (off' + i / 8) = m (off + i / 8)) :
    m'.bit off' i = m.bit off i := by
  rw [bit, bit, h]

end Bytes

end FoliOS.Lib
