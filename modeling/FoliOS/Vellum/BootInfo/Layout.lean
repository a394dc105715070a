import FoliOS.Vellum.BootInfo.Model
import Mathlib.Algebra.Order.BigOperators.Group.List

/-!
# Vellum — the layout of the boot information table

Sizes are computed before the table is allocated and again while it is filled, and the two
have to agree for the kernel to find the entries. The argument has two parts. Where the table
fits 32 bits the sizes are those of the plain numbers (`Fits.plain`). Then `emit` leaves every
entry where the walk of the kernel looks for it (`emit_emitted`, `Emitted.walk`), whatever is
written behind the end of an entry: the entries are written in their order.
-/

namespace FoliOS.Vellum.BootInfo

open Lib Mm
open Strata (align alignDiv)

variable {header base rest off vpn pages : Nat} {sz : Sizes} {req : Request} {c : Counts}
  {b' b : Buf} {m : Bytes} {argv : List (List UInt8)} {s : State} {fw : Firmware} {hw : HwModeInfo}
  {es : List Entry}

/-! ## Sizes -/

theorem align_sixteen (v : Nat) : align 32 v 16 = (v + 15) % 2 ^ 32 / 16 * 16 := by
  exact FoliOS.Strata.and_high_mask (k := 4) (by omega) (Nat.mod_lt _ (by omega))

theorem align_sixteen_of_lt {v : Nat} (h : v + 15 < 2 ^ 32) :
    align 32 v 16 = (v + 15) / 16 * 16 := by
  rw [align_sixteen, Nat.mod_eq_of_lt h]

theorem entrySize_eq (payload : Nat) (h : payload + 31 < 2 ^ 32) :
    entrySize payload = 16 + (payload + 15) / 16 * 16 := by
  rw [entrySize, align_sixteen_of_lt (by omega), Nat.mod_eq_of_lt (by omega)]

/-- The pages of that many bytes, at least one. -/
def pagesFor (size : Nat) : Nat :=
  if alignDiv 32 size 4096 = 0 then 1 else alignDiv 32 size 4096

theorem pagesFor_pos (size : Nat) : 0 < pagesFor size := by
  unfold pagesFor
  split <;> omega

theorem pagesFor_lt (size : Nat) : pagesFor size < 2 ^ 20 := by
  unfold pagesFor alignDiv
  split <;> omega

theorem pagesFor_eq {size : Nat} (hpos : 0 < size) (h : size + 4095 < 2 ^ 32) :
    pagesFor size = (size + 4095) / 4096 := by
  unfold pagesFor alignDiv
  rw [Nat.mod_eq_of_lt (by omega), if_neg (by omega)]
  rfl

/-- The payload of the frames, when the table has that many pages. -/
def framesSize (base pages : Nat) : Nat := align 32 (4 + 16 * base + 16 * pages) 16

/-- `btblsize`, when the table has that many pages; `rest` is what is not the payload of the
frames. -/
def sizeWith (header base rest pages : Nat) : Nat :=
  (header + (rest + framesSize base pages)) % 2 ^ 32

/-- A round of the loop, from the size with `k` pages to that with the pages it needs. -/
theorem sizeLoop_step (header base rest fuel k : Nat) :
    sizeLoop header base (fuel + 1) ((rest + framesSize base k) % 2 ^ 32) (framesSize base k) k =
      if pagesFor (sizeWith header base rest k) = k then .ok ⟨sizeWith header base rest k, k⟩
      else sizeLoop header base fuel
        ((rest + framesSize base (pagesFor (sizeWith header base rest k))) % 2 ^ 32)
        (framesSize base (pagesFor (sizeWith header base rest k)))
        (pagesFor (sizeWith header base rest k)) := by
  have hsize : (header + (rest + framesSize base k) % 2 ^ 32) % 2 ^ 32 =
      sizeWith header base rest k := by
    rw [sizeWith, Nat.add_mod_mod]
  have hlt : framesSize base k < 2 ^ 32 := by
    rw [framesSize, align_sixteen]; omega
  rw [sizeLoop]
  rw [hsize]
  change (if pagesFor (sizeWith header base rest k) = k then
    Except.ok ⟨sizeWith header base rest k, pagesFor (sizeWith header base rest k)⟩ else
    sizeLoop header base fuel (((rest + framesSize base k) % 2 ^ 32 + (2 ^ 32 +
      framesSize base (pagesFor (sizeWith header base rest k)) - framesSize base k)) % 2 ^ 32)
      (framesSize base (pagesFor (sizeWith header base rest k)))
      (pagesFor (sizeWith header base rest k))) = _
  by_cases hp : pagesFor (sizeWith header base rest k) = k
  · rw [if_pos hp, if_pos hp, hp]
  · rw [if_neg hp, if_neg hp]
    congr 1
    omega

theorem sizeLoop_spec (fuel : Nat) {k : Nat}
    (h : sizeLoop header base fuel ((rest + framesSize base k) % 2 ^ 32) (framesSize base k) k =
      .ok sz) :
    sz.table = sizeWith header base rest sz.pages ∧ sz.pages = pagesFor sz.table := by
  induction fuel generalizing k with
  | zero => exact nomatch h
  | succ fuel ih =>
    rw [sizeLoop_step] at h
    by_cases hp : pagesFor (sizeWith header base rest k) = k
    · rw [if_pos hp] at h
      cases h
      exact ⟨rfl, hp.symm⟩
    · rw [if_neg hp] at h
      exact ih h

/-- The sizes of the entries other than the payload of the frames. -/
def restSize (req : Request) (c : Counts) : Nat :=
  entrySize (4 + 4 * req.kernelArgv.length) + entrySize 16 + entrySize (4 + 24 * c.mmap) +
    entrySize 8 + entrySize 30 + 16 + entrySize 8 + entrySize (16 + 16 * req.ramdisk.extentCount)

theorem sum_entrySize (req : Request) (c : Counts) (k : Nat) :
    ((payloadSizes req c k).map entrySize).sum % 2 ^ 32 =
      (restSize req c + framesSize c.base k) % 2 ^ 32 := by
  have hframes : entrySize (4 + 16 * (c.base + k)) = (16 + framesSize c.base k) % 2 ^ 32 := by
    rw [entrySize, framesSize, Nat.mul_add, ← Nat.add_assoc]
  simp only [payloadSizes, List.map_cons, List.map_nil, List.sum_cons, List.sum_nil, hframes,
    restSize]
  omega

/-- The size is that of the header and the entries, and the pages are those of the size. -/
theorem tableSize_spec (h : tableSize req c = .ok sz) :
    sz.table = (headerSize req.kernelArgv +
        ((payloadSizes req c sz.pages).map entrySize).sum) % 2 ^ 32 ∧
      sz.pages = pagesFor sz.table := by
  rw [tableSize, sum_entrySize] at h
  obtain ⟨htable, hpages⟩ := sizeLoop_spec _ h
  refine ⟨?_, hpages⟩
  rw [htable, sizeWith, Nat.add_mod, ← sum_entrySize, ← Nat.add_mod]

/-- The strings and their offsets stand in the table. -/
def ArgsHold (m : Bytes) (off : Nat) : List (List UInt8) → Nat → Nat → Prop
  | [], _, _ => True
  | a :: argv, i, cursor => m.Holds (16 + cursor) (a ++ [0]) ∧ m.Holds (off + 4 * i) (le 4 cursor) ∧
      ArgsHold m off argv (i + 1) (cursor + (a.length + 1))

@[simp] theorem strtabSize_cons (a : List UInt8) (argv : List (List UInt8)) :
    strtabSize (a :: argv) = a.length + 1 + strtabSize argv := by
  simp [strtabSize]

/-- The addresses the loop writes to. -/
def ArgsSpan (off : Nat) (argv : List (List UInt8)) (i cursor a : Nat) : Prop :=
  Span (16 + cursor) (16 + cursor + strtabSize argv) a ∨
    Span (off + 4 * i) (off + 4 * (i + argv.length)) a

/-- The loop, with the string table below the offsets. -/
theorem fillArgs_spec (argv : List (List UInt8)) {i cursor : Nat}
    (hoff : 16 + cursor + strtabSize argv ≤ off) (hlt : cursor + strtabSize argv < 2 ^ 32)
    (h : fillArgs off argv i cursor b = .ok b') :
    Writes b b' (ArgsSpan off argv i cursor) ∧ ArgsHold b'.bytes off argv i cursor := by
  induction argv generalizing i cursor b with
  | nil =>
    cases h
    exact ⟨Writes.refl _ _, trivial⟩
  | cons a argv ih =>
    obtain ⟨b1, h1, h⟩ := bind_eq_ok.mp h
    obtain ⟨b2, h2, h⟩ := bind_eq_ok.mp h
    obtain ⟨hw1, hh1, -⟩ := Buf.put_writes h1
    obtain ⟨hw2, hh2, -⟩ := Buf.put_writes h2
    rw [strtabSize_cons] at hoff hlt
    rw [Nat.mod_eq_of_lt (by omega)] at h
    obtain ⟨hw, hh⟩ := ih (by omega) (by omega) h
    have hlen : (a ++ [(0 : UInt8)]).length = a.length + 1 := by simp
    have hspan : ∀ {x}, ArgsSpan off argv (i + 1) (cursor + (a.length + 1)) x →
        16 + cursor + (a.length + 1) ≤ x ∧
          (x < 16 + cursor + (a.length + 1) + strtabSize argv ∨
            off + 4 * i + 4 ≤ x ∧ x < off + 4 * (i + 1 + argv.length)) := by
      rintro x (⟨h1, h2⟩ | ⟨h1, h2⟩) <;> omega
    refine ⟨?_, ?_, ?_, hh⟩
    · refine ((hw1.mono fun x hx => ?_).trans (hw2.mono fun x hx => ?_)).trans
        (hw.mono fun x hx => ?_)
      · exact .inl ⟨hx.1, by rw [strtabSize_cons]; have := hx.2; omega⟩
      · rw [length_le] at hx
        exact .inr ⟨hx.1, by rw [List.length_cons]; have := hx.2; omega⟩
      · have := hspan hx
        unfold ArgsSpan Span
        rw [strtabSize_cons, List.length_cons]
        omega
    · refine hw.holds (hw2.holds_span hh1 (.inl (by rw [hlen]; omega))) fun x hx hx' => ?_
      have := hspan hx'
      have := hx.2
      omega
    · refine hw.holds hh2 fun x hx hx' => ?_
      rw [length_le] at hx
      have := hspan hx'
      have := hx.1
      have := hx.2
      omega

theorem ArgsHold.congr {m' : Bytes} :
    ∀ {i cursor : Nat}, ArgsHold m off argv i cursor →
      (∀ a, ArgsSpan off argv i cursor a → m' a = m a) → ArgsHold m' off argv i cursor := by
  induction argv with
  | nil => exact fun _ _ => trivial
  | cons a argv ih =>
    rintro i cursor ⟨hs, ho, hrest⟩ h
    have hlen : (a ++ [(0 : UInt8)]).length = a.length + 1 := by simp
    unfold ArgsSpan Span at h
    rw [strtabSize_cons, List.length_cons] at h
    refine ⟨hs.congr fun x hlo hhi => h x (.inl ?_), ho.congr fun x hlo hhi => h x (.inr ?_),
      ih hrest fun x hx => h x ?_⟩
    · rw [hlen] at hhi; omega
    · rw [length_le] at hhi; omega
    · rcases hx with ⟨h1, h2⟩ | ⟨h1, h2⟩ <;> omega

/-- The string of the `k`-th argument is where its offset says. -/
theorem ArgsHold.get :
    ∀ {i cursor k : Nat}, ArgsHold m off argv i cursor → cursor + strtabSize argv < 2 ^ 32 →
      ∀ h : k < argv.length, m.Holds (16 + m.word 4 (off + 4 * (i + k))) (argv[k] ++ [0]) ∧
        m.word 4 (off + 4 * (i + k)) + (argv[k].length + 1) ≤ cursor + strtabSize argv := by
  induction argv with
  | nil => exact fun _ _ h => nomatch h
  | cons a argv ih =>
    rintro i cursor k ⟨hs, ho, hrest⟩ hlt hk
    rw [strtabSize_cons] at hlt ⊢
    cases k with
    | zero =>
      have hword : m.word 4 (off + 4 * (i + 0)) = cursor := ho.word_of_lt (by omega)
      rw [hword]
      exact ⟨hs, by rw [List.getElem_cons_zero]; omega⟩
    | succ k =>
      have := ih hrest (by omega) (by simpa using hk)
      rw [show i + (k + 1) = i + 1 + k by omega, List.getElem_cons_succ]
      exact ⟨this.1, by have := this.2; omega⟩

/-! ## A payload is written from its start on -/

/-- The addresses from `lo` on. -/
def From (lo a : Nat) : Prop := lo ≤ a

section From

variable {b b' : Buf} {lo : Nat}

theorem Buf.put_from {l : List UInt8} (h : b.put off l = .ok b') (hle : lo ≤ off) :
    Writes b b' (From lo) :=
  (Buf.put_writes h).1.mono fun _ ha => le_trans hle ha.1

theorem rounds_from {merge : Bool} {tail : Nat} (hle : lo ≤ off) (l : List (Nat × Nat))
    {filled : Nat} (h : rounds merge off tail l filled b = .ok b') : Writes b b' (From lo) := by
  induction l generalizing filled b with
  | nil =>
    cases h
    exact Writes.refl _ _
  | cons x l ih =>
    obtain ⟨⟨filled1, b1⟩, hround, h⟩ := bind_eq_ok.mp h
    refine Writes.trans ?_ (ih h)
    rcases round_cases hround with hput | ⟨-, hput⟩
    · exact Buf.put_from hput (by omega)
    · exact Buf.put_from hput (by omega)

theorem fillMemoryMapLoop_writes (n : Nat) {i cursor : Nat}
    (h : fillMemoryMapLoop fw off n i cursor b = .ok b') :
    Writes b b' (Span (off + 24 * i) (off + 24 * (i + n))) := by
  induction n generalizing i cursor b with
  | zero =>
    cases h
    exact Writes.refl _ _
  | succ n ih =>
    obtain ⟨⟨e, cursor'⟩, -, h⟩ := bind_eq_ok.mp h
    obtain ⟨b1, hput, h⟩ := bind_eq_ok.mp h
    have hw1 := (Buf.put_writes hput).1
    simp only [List.length_append, length_le] at hw1
    exact (hw1.span_mono le_rfl (by omega)).trans ((ih h).span_mono (by omega) (by omega))

/-- The page tables, in the order of the directory. -/
def tablesAt (s : State) (is : List Nat) : List Nat :=
  (is.filter fun i => (s.tables s.cr3 i).p).map fun i => (s.tables s.cr3 i).base

theorem fillPagetableLoop_rounds (is : List Nat) {filled maxCount : Nat}
    (h : fillPagetableLoop s off is filled maxCount b = .ok b') :
    rounds false off 0 (unitRanges ((tablesAt s is).take maxCount)) filled b = .ok b' := by
  induction is generalizing filled maxCount b with
  | nil =>
    rw [show (tablesAt s []).take maxCount = [] from List.take_nil]
    exact h
  | cons i is ih =>
    rw [fillPagetableLoop] at h
    cases hp : (s.tables s.cr3 i).p with
    | false =>
      rw [hp, if_pos (by decide)] at h
      rw [show tablesAt s (i :: is) = tablesAt s is by simp [tablesAt, hp]]
      exact ih h
    | true =>
      rw [hp, if_neg (by decide)] at h
      rw [show tablesAt s (i :: is) = (s.tables s.cr3 i).base :: tablesAt s is by
        simp [tablesAt, hp]]
      cases maxCount with
      | zero => exact h
      | succ k =>
        obtain ⟨b1, hput, h⟩ := bind_eq_ok.mp h
        exact rounds_cons hput (ih h)

theorem fillPagetableFrameEntries_rounds {maxCount : Nat}
    (h : fillPagetableFrameEntries s off maxCount b = .ok b') :
    ∃ l, (0 < maxCount → l = s.cr3 :: (tablesAt s (List.range 1023)).take (maxCount - 1)) ∧
      rounds false off 0 (unitRanges l) 0 b = .ok b' := by
  unfold fillPagetableFrameEntries at h
  split_ifs at h with hpos
  · obtain ⟨b1, hput, h⟩ := bind_eq_ok.mp h
    exact ⟨_, fun _ => rfl, rounds_cons hput (fillPagetableLoop_rounds _ h)⟩
  · exact ⟨_, fun h => absurd h hpos, fillPagetableLoop_rounds _ h⟩

theorem fillBootinfoFrameEntries_rounds (n : Nat) {i : Nat}
    (h : fillBootinfoFrameEntries s off vpn n i b = .ok b') :
    ∃ l, pageFrames s ((vpn + i) % 2 ^ 32) n = .ok l ∧
      rounds false off 5 (unitRanges l) i b = .ok b' := by
  induction n generalizing i b with
  | zero => exact ⟨[], rfl, h⟩
  | succ n ih =>
    obtain ⟨pfn, hpfn, h⟩ := bind_eq_ok.mp h
    obtain ⟨b1, hput, h⟩ := bind_eq_ok.mp h
    obtain ⟨l, hl, hrounds⟩ := ih h
    rw [← Nat.add_assoc, ← Nat.mod_add_mod] at hl
    exact ⟨pfn :: l, bind_eq_ok.mpr ⟨pfn, ofStatus_eq_ok.mp hpfn, bind_eq_ok.mpr ⟨l, hl, rfl⟩⟩,
      rounds_cons hput hrounds⟩

theorem fillMemoryMap_writes {count : Nat} (h : fillMemoryMap fw count off b = .ok b') :
    Writes b b' (Span off (off + (4 + 24 * count))) := by
  obtain ⟨b1, hput, h⟩ := bind_eq_ok.mp h
  have hw1 := (Buf.put_writes hput).1
  rw [length_le] at hw1
  exact (hw1.span_mono le_rfl (by omega)).trans
    ((fillMemoryMapLoop_writes _ h).span_mono (by omega) (by omega))

theorem fillAcpiRsdp_writes (h : fillAcpiRsdp fw off b = .ok b') :
    Writes b b' (Span off (off + 8)) := by
  obtain ⟨rsdp, -, hput⟩ := bind_eq_ok.mp h
  exact (Buf.put_writes hput).1

theorem fillFramebuffer_writes (h : fillFramebuffer hw off b = .ok b') :
    Writes b b' (Span off (off + 30)) := by
  have hput : ∀ {b b' : Buf} {o : Nat} {l : List UInt8}, b.put (off + o) l = .ok b' →
      o + l.length ≤ 30 → Writes b b' (Span off (off + 30)) :=
    fun h hle => (Buf.put_writes h).1.span_mono (by omega) (by omega)
  obtain ⟨b1, h1, h⟩ := bind_eq_ok.mp h
  refine (hput (o := 0) h1 (by simp)).trans ?_
  split_ifs at h
  · obtain ⟨b2, h2, h⟩ := bind_eq_ok.mp h
    exact (hput h2 (by simp)).trans (hput h (by simp))
  · exact hput h (by simp)

/-- The rounds of a payload of frames: the page tables `lt`, the frames `lk` of the kernel, `lr` of
the ramdisk and `lb` of the table. -/
structure FrameRounds (s : State) (req : Request) (c : Counts) (vpn pages off : Nat)
    (b₁ b' : Buf) (lt lk lr lb : List Nat) (b₂ b₃ b₄ : Buf) : Prop where
  tables  : 0 < c.pagetable → lt = s.cr3 :: (tablesAt s (List.range 1023)).take (c.pagetable - 1)
  kernel  : pageFrames s (req.loadPaddr / 4096) c.kernelPages = .ok lk
  ramdisk : pageFrames s (req.ramdisk.vaddr / 4096) req.ramdisk.pageCount = .ok lr
  table   : pageFrames s (vpn % 2 ^ 32) pages = .ok lb
  first   : rounds false (slotAt off 0) 0 (unitRanges lt) 0 b₁ = .ok b₂
  second  : rounds true (slotAt off c.pagetable) 1 (unitRanges lk) 0 b₂ = .ok b₃
  third   : rounds true (slotAt off (c.pagetable + c.kernel)) 4 (unitRanges lr) 0 b₃ = .ok b₄
  fourth  : rounds false (slotAt off (c.pagetable + c.kernel + c.ramdisk)) 5 (unitRanges lb) 0 b₄ =
    .ok b'

theorem fillUnavailableFrames_rounds (h : fillUnavailableFrames s req c vpn pages off b = .ok b') :
    ∃ b1, b.put off (le 4 (c.base + pages)) = .ok b1 ∧
      ∃ lt lk lr lb b2 b3 b4, FrameRounds s req c vpn pages off b1 b' lt lk lr lb b2 b3 b4 := by
  obtain ⟨b1, hput, h⟩ := bind_eq_ok.mp h
  obtain ⟨b2, hpt, h⟩ := bind_eq_ok.mp h
  obtain ⟨b3, hkernel, h⟩ := bind_eq_ok.mp h
  obtain ⟨b4, hramdisk, h⟩ := bind_eq_ok.mp h
  obtain ⟨lt, hlt, h2⟩ := fillPagetableFrameEntries_rounds hpt
  obtain ⟨lk, hlk, h3⟩ := fillFrameEntries_rounds _ hkernel
  obtain ⟨lr, hlr, h4⟩ := fillFrameEntries_rounds _ hramdisk
  obtain ⟨lb, hlb, h5⟩ := fillBootinfoFrameEntries_rounds _ h
  exact ⟨b1, hput, lt, lk, lr, lb, b2, b3, b4, hlt, hlk, hlr, hlb, h2, h3, h4, h5⟩

/-- A payload is a number and what stands behind it. -/
theorem fillUnavailableFrames_writes (h : fillUnavailableFrames s req c vpn pages off b = .ok b') :
    ∃ b1, b.put off (le 4 (c.base + pages)) = .ok b1 ∧ Writes b1 b' (From (off + 4)) := by
  obtain ⟨b1, hput, lt, lk, lr, lb, b2, b3, b4, hr⟩ := fillUnavailableFrames_rounds h
  have hle : ∀ i, off + 4 ≤ slotAt off i := fun i => Nat.le_add_right _ _
  exact ⟨b1, hput, ((rounds_from (hle _) _ hr.first).trans (rounds_from (hle _) _ hr.second)).trans
    ((rounds_from (hle _) _ hr.third).trans (rounds_from (hle _) _ hr.fourth))⟩

theorem fillRamdisk_rounds {image : RamdiskImage} (h : fillRamdisk s image off b = .ok b') :
    ∃ b1 l, b.put off (le 1 0 ++ le 3 0 ++ le 4 image.size ++ le 4 image.extentCount ++ le 4 0) =
      .ok b1 ∧ pageFrames s (image.vaddr / 4096) image.pageCount = .ok l ∧
      rounds true (off + 16) 0 (byteRanges l image.size) 0 b1 = .ok b' := by
  obtain ⟨b1, hput, h⟩ := bind_eq_ok.mp h
  obtain ⟨l, hl, hrounds⟩ := fillRamdiskExtentsLoop_rounds _ h
  exact ⟨b1, l, hput, hl, hrounds⟩

theorem fillRamdisk_writes {image : RamdiskImage} (h : fillRamdisk s image off b = .ok b') :
    ∃ b1, b.put off (le 1 0 ++ le 3 0 ++ le 4 image.size ++ le 4 image.extentCount ++ le 4 0) =
      .ok b1 ∧ Writes b1 b' (From (off + 16)) := by
  obtain ⟨b1, l, hput, -, hrounds⟩ := fillRamdisk_rounds h
  exact ⟨b1, hput, rounds_from le_rfl _ hrounds⟩

/-- It is written from its start on. -/
theorem Buf.put_trans_from {l : List UInt8} {k : Nat} {b1 : Buf} (hput : b.put off l = .ok b1)
    (h : Writes b1 b' (From (off + k))) : Writes b b' (From off) :=
  (Buf.put_from hput le_rfl).trans (h.mono fun _ ha => le_trans (Nat.le_add_right _ _) ha)

end From

/-! ## Entries one after the other -/

theorem emit_cons {e : Entry} {ends : List Nat} (h : emit (e :: es) off b = .ok (b', ends)) :
    ∃ b1 b2 ends', b.put off (entryHeader e.type e.payload) = .ok b1 ∧
      e.fill (off + 16) b1 = .ok b2 ∧
      emit es ((off + entrySize e.payload) % 2 ^ 32) b2 = .ok (b', ends') ∧
      ends = b2.top :: ends' := by
  obtain ⟨b1, h1, h⟩ := bind_eq_ok.mp h
  obtain ⟨b2, h2, h⟩ := bind_eq_ok.mp h
  obtain ⟨⟨b3, ends'⟩, h3, h⟩ := bind_eq_ok.mp h
  cases h
  exact ⟨b1, b2, ends', h1, h2, h3, rfl⟩

@[simp] theorem length_entryHeader (type : EntryType) (payload : Nat) :
    (entryHeader type payload).length = 12 := by
  simp [entryHeader]

def sizesOf (es : List Entry) : Nat := (es.map fun e => entrySize e.payload).sum

@[simp] theorem sizesOf_cons (e : Entry) (es : List Entry) :
    sizesOf (e :: es) = entrySize e.payload + sizesOf es := by
  simp [sizesOf]

/-- What the entries may write of the string table. -/
abbrev Strings := EntryType → Nat → Prop

def Strings.ofEntries (S : Strings) (es : List Entry) (a : Nat) : Prop := ∃ e ∈ es, S e.type a

/-- In the finished table the entries stand from `off` on: each header is there, and what
`fill` wrote is only changed in places that are for others. -/
def Emitted (S : Strings) (b : Buf) : List Entry → Nat → Prop
  | [], _ => True
  | e :: es, off => b.bytes.Holds off (entryHeader e.type e.payload) ∧
      (∃ b₁ b₂, e.fill (off + 16) b₁ = .ok b₂ ∧
        Writes b₂ b (fun a => From (off + entrySize e.payload) a ∨ S.ofEntries es a)) ∧
      Emitted S b es (off + entrySize e.payload)

/-- An entry behind `lo` writes from its payload on, or its part of the string table. -/
def Fills (S : Strings) (lo : Nat) (e : Entry) : Prop :=
  16 ≤ entrySize e.payload ∧ ∀ {off b b'}, lo ≤ off → e.fill off b = .ok b' →
    Writes b b' fun a => From off a ∨ S e.type a

variable {S : Strings}

theorem emit_emitted {lo : Nat} (hS : ∀ type a, S type a → a < lo) (es : List Entry) :
    ∀ {off : Nat} {b : Buf} {ends : List Nat}, lo ≤ off → off + sizesOf es < 2 ^ 32 →
      (∀ e ∈ es, Fills S lo e) → emit es off b = .ok (b', ends) →
      Writes b b' (fun a => From off a ∨ S.ofEntries es a) ∧ Emitted S b' es off := by
  induction es with
  | nil =>
    intro off b ends _ _ _ h
    cases h
    exact ⟨Writes.refl _ _, trivial⟩
  | cons e es ih =>
    intro off b ends hlo hlt hfills h
    obtain ⟨b1, b2, ends', hput, hfill, h, -⟩ := emit_cons h
    obtain ⟨hsize, hwrites⟩ := hfills e List.mem_cons_self
    rw [sizesOf_cons] at hlt
    rw [Nat.mod_eq_of_lt (by omega)] at h
    obtain ⟨hw, hem⟩ := ih (by omega) (by omega)
      (fun e' he' => hfills e' (List.mem_cons_of_mem _ he')) h
    obtain ⟨hw1, hh, -⟩ := Buf.put_writes hput
    have hw2 := hwrites (by omega) hfill
    refine ⟨?_, ?_, ⟨b1, b2, hfill, hw⟩, hem⟩
    · refine ((hw1.mono fun a ha => .inl ha.1).trans (hw2.mono fun a ha => ?_)).trans
        (hw.mono fun a ha => ?_)
      · rcases ha with ha | ha
        · exact .inl (by unfold From at *; omega)
        · exact .inr ⟨e, List.mem_cons_self, ha⟩
      · rcases ha with ha | ⟨e', he', ha⟩
        · exact .inl (by unfold From at *; omega)
        · exact .inr ⟨e', List.mem_cons_of_mem _ he', ha⟩
    -- neither the payload nor what comes later is where the header is
    · refine hw.holds (hw2.holds hh fun a ha hp => ?_) fun a ha hp => ?_
      · rw [length_entryHeader] at ha
        obtain ⟨hlo, hhi⟩ := ha
        rcases hp with hp | hp
        · unfold From at hp; omega
        · have := hS _ a hp; omega
      · rw [length_entryHeader] at ha
        obtain ⟨hlo, hhi⟩ := ha
        rcases hp with hp | ⟨e', he', hp⟩
        · unfold From at hp; omega
        · have := hS _ a hp; omega

/-- The fields of an entry header. -/
theorem entryHeader_words {payload : Nat} {type : EntryType}
    (h : m.Holds off (entryHeader type payload)) :
    m.word 4 off = type.code ∧ m.word 2 (off + 6) = 16 ∧
    m.word 4 (off + 8) = entrySize payload := by
  unfold entryHeader at h
  rw [Bytes.holds_append, Bytes.holds_append, Bytes.holds_append] at h
  obtain ⟨⟨⟨htype, -⟩, hheader⟩, hsize⟩ := h
  refine ⟨htype.word_of_lt ?_, hheader.word_of_lt (by decide), hsize.word_of_lt ?_⟩
  · cases type <;> decide
  · exact Nat.mod_lt _ (by decide)

/-- The walk of the kernel finds the entries. -/
theorem Emitted.walk :
    ∀ {off : Nat}, Emitted S b es off →
      (walk b.bytes es.length off).1.map Prod.fst = es.map (·.type.code) ∧
        (walk b.bytes es.length off).2 = off + sizesOf es := by
  induction es with
  | nil => exact fun _ => ⟨rfl, rfl⟩
  | cons e es ih =>
    rintro off ⟨hh, -, hrest⟩
    obtain ⟨htype, -, hsize⟩ := entryHeader_words hh
    obtain ⟨htypes, hstop⟩ := ih hrest
    rw [List.length_cons, BootInfo.walk]
    dsimp only
    rw [hsize, List.map_cons, List.map_cons, htype, htypes, hstop, sizesOf_cons]
    exact ⟨rfl, by omega⟩

/-! ## Nothing wraps around -/

theorem countSmapEntryLoop_lt {n : Nat} (fuel : Nat) :
    ∀ {cursor count : Nat}, countSmapEntryLoop fw fuel cursor count = .ok n → count < n := by
  induction fuel with
  | zero => exact fun h => nomatch h
  | succ fuel ih =>
    intro cursor count h
    obtain ⟨⟨e, cursor'⟩, -, h⟩ := bind_eq_ok.mp h
    dsimp only at h
    split_ifs at h
    · exact Except.ok.inj h ▸ Nat.lt_succ_self count
    · exact Nat.lt_of_succ_lt (ih h)

/-- What is counted is small but for the memory map, which has an entry. -/
structure Counts.Small (c : Counts) : Prop where
  mmap      : 0 < c.mmap
  pagetable : c.pagetable ≤ 2 ^ 10
  kernel    : c.kernel ≤ 2 ^ 20
  ramdisk   : c.ramdisk ≤ 2 ^ 20

theorem countAll_small (h : countAll fw req s = .ok c) : c.Small := by
  obtain ⟨mmap, hmmap, h⟩ := bind_eq_ok.mp h
  obtain ⟨kernel, hkernel, h⟩ := bind_eq_ok.mp h
  obtain ⟨ramdisk, hramdisk, h⟩ := bind_eq_ok.mp h
  cases h
  refine ⟨?_, ?_, ?_, ?_⟩
  · exact countSmapEntryLoop_lt _ hmmap
  · have := List.countP_le_length (p := fun i => (s.tables s.cr3 i).p) (l := List.range 1023)
    rw [List.length_range] at this
    unfold countPagetableFrame
    dsimp only
    omega
  · have := countMappedFrameExtents_le hkernel
    unfold alignDiv at this
    dsimp only
    omega
  · exact le_trans (countRamdiskFrameExtents_le hramdisk) req.ramdisk.pages

theorem Counts.Small.base_eq (h : c.Small) :
    c.base = c.pagetable + c.kernel + c.ramdisk ∧ c.base ≤ 2 ^ 22 := by
  have := h.pagetable
  have := h.kernel
  have := h.ramdisk
  unfold Counts.base
  omega

/-- The sizes as plain numbers. -/
structure Plain (req : Request) (sz : Sizes) (es : List Entry) : Prop where
  strtab  : strtabSize req.kernelArgv + 37 < 2 ^ 32
  header  : headerSize req.kernelArgv = (strtabSize req.kernelArgv + 52) / 16 * 16
  payload : ∀ e ∈ es, e.payload + 31 < 2 ^ 32
  table   : headerSize req.kernelArgv + sizesOf es = sz.table
  fits    : sz.table ≤ sz.pages * 4096
  small   : sz.pages < 2 ^ 20

/-- The size of the table without any wrap. -/
def plainSize (req : Request) (c : Counts) (pages : Nat) : Nat :=
  (strtabSize req.kernelArgv + 52) / 16 * 16 +
    ((payloadSizes req c pages).map fun payload => 16 + (payload + 15) / 16 * 16).sum

/-- The size fits 32 bits, rounded up to pages. -/
def Fits (req : Request) (c : Counts) (pages : Nat) : Prop := plainSize req c pages + 4095 < 2 ^ 32

instance (req : Request) (c : Counts) (pages : Nat) : Decidable (Fits req c pages) :=
  inferInstanceAs (Decidable (_ < _))

/-- **A table that fits 32 bits has the sizes that were computed for it.** -/
theorem Fits.plain (h : Fits req c sz.pages) (hsz : tableSize req c = .ok sz) :
    Plain req sz (tableEntries fw hw req argv c s vpn sz.pages) := by
  obtain ⟨htable, hpages⟩ := tableSize_spec hsz
  have hlt : sz.pages < 2 ^ 20 := hpages ▸ pagesFor_lt _
  unfold Fits plainSize at h
  have hheader : headerSize req.kernelArgv = (strtabSize req.kernelArgv + 52) / 16 * 16 := by
    rw [headerSize, align_sixteen_of_lt (by omega)]
    omega
  have hle : ∀ p ∈ payloadSizes req c sz.pages, 16 + (p + 15) / 16 * 16 ≤
      ((payloadSizes req c sz.pages).map fun payload => 16 + (payload + 15) / 16 * 16).sum :=
    fun p hp => List.le_sum_of_mem (List.mem_map_of_mem hp)
  have hpayload : ∀ p ∈ payloadSizes req c sz.pages, p + 31 < 2 ^ 32 := by
    intro p hp
    have := hle p hp
    omega
  have hsizes : sizesOf (tableEntries fw hw req argv c s vpn sz.pages) =
      ((payloadSizes req c sz.pages).map fun payload => 16 + (payload + 15) / 16 * 16).sum :=
    congrArg List.sum (List.map_congr_left fun p hp => entrySize_eq p (hpayload p hp))
  have hsum : ((payloadSizes req c sz.pages).map entrySize).sum =
      sizesOf (tableEntries fw hw req argv c s vpn sz.pages) := rfl
  rw [hsum, hsizes, hheader, Nat.mod_eq_of_lt (by omega)] at htable
  refine ⟨by omega, hheader, fun e he => hpayload _ ?_, by rw [hheader, hsizes, htable], ?_, hlt⟩
  · exact List.mem_map_of_mem (f := Entry.payload) he
  · rw [hpages, pagesFor_eq (by omega) (by omega)]
    omega

end FoliOS.Vellum.BootInfo
