import FoliOS.Lib.Bytes
import FoliOS.Lib.Extents
import FoliOS.Vellum.Mm.Model

/-!
# Vellum — frames behind mapped pages

Kernel and ramdisk pages are described to the kernel by the frames behind them, consecutive
frames as one entry. One loop counts the entries (`count_mapped_frame_extents`,
`Lf_CountRamdiskFrameExtents`) and another one writes them (`fill_kernel_frame_entries`,
`Lf_FillRamdiskFrameEntries`); `Lf_FillRamdiskExtents` writes byte ranges.

Nothing stops a write at the end of the pages the caller allocated: how far was written is
kept with the memory.
-/

namespace FoliOS.Vellum.BootInfo

open Lib Mm

variable {s : State} {vpn off k tail start length lo hi filled : Nat} {l : List UInt8} {m : Bytes}
  {e : List (Nat × Nat)}

/-! ## Results and buffers -/

/-- Why a call does not end with `STATUS_SUCCESS`. -/
inductive Failure where
  | status (st : VlStatus)
  /-- The pages are in the window of the page tables, so that filling them changes page
  tables: not followed any further. -/
  | inWindow
  /-- A loop that has not ended after `2 ^ 32` rounds. -/
  | diverges
  deriving DecidableEq, Repr

abbrev Result := Except Failure

def ofStatus {α : Type} : Except VlStatus α → Result α
  | .ok a => .ok a
  | .error st => .error (.status st)

/-- Memory, addressed from the start of the allocated pages, and the end of what has been
written. -/
structure Buf where
  bytes : Bytes
  top : Nat

/-- A write, which does not fail wherever it goes. -/
def Buf.put (b : Buf) (off : Nat) (l : List UInt8) : Result Buf :=
  .ok ⟨b.bytes.put off l, if l.isEmpty then b.top else max b.top (off + l.length)⟩

/-! ## Counting -/

/-- The loop of `count_mapped_frame_extents` and `Lf_CountRamdiskFrameExtents`; there is no
previous frame in the first round. -/
def countMappedFrameExtents (s : State) : Nat → Nat → Option Nat → Nat → Result Nat
  | _, 0, _, count => .ok count
  | vpn, n + 1, prev, count => do
    let pfn ← ofStatus (vpnToPfn s vpn)
    let count := if prev.map (· + 1) = some pfn then count else count + 1
    countMappedFrameExtents s ((vpn + 1) % 2 ^ 32) n (some pfn) count

/-! ## Filling -/

/-- An entry of 16 bytes: where a range starts, its length, and a last word. Frame entries
(`struct StLoad_BootInfoUnavailableFrameEntry`) end in the `BEUT_*` reason, ramdisk extents
(`struct StLoad_BootInfoRamdiskExtent`) in a reserved 0. -/
def rangeEntry (start length tail : Nat) : List UInt8 := le 8 start ++ le 4 length ++ le 4 tail

/-- A round of the three loops below: the entries stand at `off`, and `filled` of them are
written. The last one grows where the range follows it. -/
def addRange (off tail filled start length : Nat) (b : Buf) : Result (Nat × Buf) :=
  let last := off + 16 * (filled - 1)
  if 0 < filled ∧ b.bytes.word 8 last + b.bytes.word 4 (last + 8) = start then
    (b.put (last + 8) (le 4 (b.bytes.word 4 (last + 8) + length))).map (filled, ·)
  else (b.put (off + 16 * filled) (rangeEntry start length tail)).map (filled + 1, ·)

/-- The loop of `fill_kernel_frame_entries` and `Lf_FillRamdiskFrameEntries`. -/
def fillFrameEntries (s : State) (off type : Nat) : Nat → Nat → Nat → Buf → Result Buf
  | _, 0, _, b => .ok b
  | vpn, n + 1, filled, b => do
    let pfn ← ofStatus (vpnToPfn s vpn)
    let (filled, b) ← addRange off type filled pfn 1 b
    fillFrameEntries s off type ((vpn + 1) % 2 ^ 32) n filled b

/-- `struct Lf_RamdiskImage`. The image has been built: its pages are pages of the loader, and it
has at most one extent a page. -/
structure RamdiskImage where
  vaddr : Nat
  pageCount : Nat
  size : Nat
  extentCount : Nat
  bytes : size < 2 ^ 32
  pages : pageCount ≤ 2 ^ 20
  extents : extentCount ≤ pageCount

/-- `Lf_CountRamdiskFrameExtents` -/
def countRamdiskFrameExtents (s : State) (image : RamdiskImage) : Result Nat :=
  if image.pageCount = 0 then .ok 0
  else countMappedFrameExtents s (image.vaddr / 4096) image.pageCount none 0

/-- `Lf_FillRamdiskFrameEntries` -/
def fillRamdiskFrameEntries (s : State) (image : RamdiskImage) (off : Nat) (b : Buf) : Result Buf :=
  fillFrameEntries s off 4 (image.vaddr / 4096) image.pageCount 0 b

/-- The loop of `Lf_FillRamdiskExtents`. -/
def fillRamdiskExtentsLoop (s : State) (off : Nat) : Nat → Nat → Nat → Nat → Buf → Result Buf
  | _, 0, _, _, b => .ok b
  | vpn, n + 1, remaining, filled, b => do
    let pageSize := if remaining < 4096 then remaining else 4096
    let pfn ← ofStatus (vpnToPfn s vpn)
    let (filled, b) ← addRange off 0 filled (pfn * 4096 % 2 ^ 32) pageSize b
    fillRamdiskExtentsLoop s off ((vpn + 1) % 2 ^ 32) n (remaining - pageSize) filled b

/-- `Lf_FillRamdiskExtents` -/
def fillRamdiskExtents (s : State) (image : RamdiskImage) (off : Nat) (b : Buf) : Result Buf :=
  fillRamdiskExtentsLoop s off (image.vaddr / 4096) image.pageCount image.size 0 b

/-! ## What the loops do -/

/-- The frames behind `n` pages from `vpn` on. -/
def pageFrames (s : State) : Nat → Nat → Except VlStatus (List Nat)
  | _, 0 => .ok []
  | vpn, n + 1 => do
    let pfn ← vpnToPfn s vpn
    let l ← pageFrames s ((vpn + 1) % 2 ^ 32) n
    .ok (pfn :: l)

theorem ofStatus_eq_ok {α : Type} {x : Except VlStatus α} {a : α} :
    ofStatus x = .ok a ↔ x = .ok a := by
  cases x <;> simp [ofStatus]

theorem vpnToPfn_lt {pfn : Nat} (h : vpnToPfn s vpn = .ok pfn) : pfn < 2 ^ 20 := by
  unfold vpnToPfn at h
  split_ifs at h
  exact Except.ok.inj h ▸ Pte.base_lt _

variable {b b' : Buf}

/-- Frames as ranges of one. -/
def unitRanges (l : List Nat) : List (Nat × Nat) := l.map (·, 1)

@[simp] theorem unitRanges_cons (p : Nat) (l : List Nat) :
    unitRanges (p :: l) = (p, 1) :: unitRanges l := rfl

theorem countMappedFrameExtents_eq {c : Nat} (n : Nat) {count : Nat} {prev : Option Nat}
    (h : countMappedFrameExtents s vpn n prev count = .ok c) :
    ∃ l, pageFrames s vpn n = .ok l ∧
      c = count + countExtents (prev.map (· + 1)) (unitRanges l) := by
  induction n generalizing vpn count prev with
  | zero => exact ⟨[], rfl, (Except.ok.inj h).symm⟩
  | succ n ih =>
    obtain ⟨pfn, hpfn, h⟩ := bind_eq_ok.mp h
    obtain ⟨l, hl, hc⟩ := ih h
    refine ⟨pfn :: l, bind_eq_ok.mpr ⟨pfn, ofStatus_eq_ok.mp hpfn, bind_eq_ok.mpr ⟨l, hl, rfl⟩⟩, ?_⟩
    rw [hc, unitRanges_cons, countExtents, Option.map_some]
    dsimp only
    split <;> omega

theorem pageFrames_spec (n : Nat) {l : List Nat} (h : pageFrames s vpn n = .ok l) :
    l.length = n ∧ ∀ f ∈ l, f < 2 ^ 20 := by
  induction n generalizing vpn l with
  | zero => exact Except.ok.inj h ▸ ⟨rfl, by simp⟩
  | succ n ih =>
    obtain ⟨pfn, hpfn, h⟩ := bind_eq_ok.mp h
    obtain ⟨l', hl', h⟩ := bind_eq_ok.mp h
    obtain ⟨hlength, hlt⟩ := ih hl'
    rw [← Except.ok.inj h]
    exact ⟨congrArg Nat.succ hlength, List.forall_mem_cons.mpr ⟨vpnToPfn_lt hpfn, hlt⟩⟩

theorem countMappedFrameExtents_le {n : Nat} (h : countMappedFrameExtents s vpn n none 0 = .ok k) :
    k ≤ n := by
  obtain ⟨l, hl, hk⟩ := countMappedFrameExtents_eq n h
  have hle := countExtents_le (unitRanges l) none
  rw [unitRanges, List.length_map, (pageFrames_spec n hl).1] at hle
  rw [Option.map_none] at hk
  unfold unitRanges at hk
  omega

theorem countRamdiskFrameExtents_le {image : RamdiskImage}
    (h : countRamdiskFrameExtents s image = .ok k) : k ≤ image.pageCount := by
  unfold countRamdiskFrameExtents at h
  split_ifs at h
  · exact Except.ok.inj h ▸ Nat.zero_le _
  · exact countMappedFrameExtents_le h

/-! ## Entries in memory -/

/-- Entries one after the other. -/
def entryBytes (tail : Nat) (e : List (Nat × Nat)) : List UInt8 :=
  e.flatMap fun x => rangeEntry x.1 x.2 tail

@[simp] theorem length_rangeEntry (start length tail : Nat) :
    (rangeEntry start length tail).length = 16 := by
  simp [rangeEntry]

theorem length_entryBytes (tail : Nat) (e : List (Nat × Nat)) :
    (entryBytes tail e).length = 16 * e.length := by
  induction e with
  | nil => rfl
  | cons x e ih =>
    rw [entryBytes, List.flatMap_cons, List.length_append, length_rangeEntry, List.length_cons]
    unfold entryBytes at ih
    omega

theorem holds_entryBytes_snoc {x : Nat × Nat} :
    Bytes.Holds m off (entryBytes tail (e ++ [x])) ↔ Bytes.Holds m off (entryBytes tail e) ∧
      Bytes.Holds m (off + 16 * e.length) (rangeEntry x.1 x.2 tail) := by
  rw [entryBytes, List.flatMap_append, Bytes.holds_append]
  rw [← length_entryBytes tail e]
  rfl

/-- The fields of an entry. -/
theorem holds_rangeEntry :
    Bytes.Holds m off (rangeEntry start length tail) ↔ Bytes.Holds m off (le 8 start) ∧
      Bytes.Holds m (off + 8) (le 4 length) ∧ Bytes.Holds m (off + 12) (le 4 tail) := by
  rw [rangeEntry, Bytes.holds_append, Bytes.holds_append, and_assoc]
  simp only [List.length_append, length_le, Nat.reduceAdd]

/-- The addresses from `lo` up to `hi`. -/
def Span (lo hi a : Nat) : Prop := lo ≤ a ∧ a < hi

/-- From `b` to `b'` only bytes of `P` were written. -/
structure Writes (b b' : Buf) (P : Nat → Prop) : Prop where
  rest  : ∀ a, ¬ P a → b'.bytes a = b.bytes a
  grows : b.top ≤ b'.top
  top   : b'.top = b.top ∨ ∃ a, P a ∧ b'.top = a + 1

section Writes

variable {b b' b'' : Buf} {P Q : Nat → Prop}

theorem Writes.refl (b : Buf) (P : Nat → Prop) : Writes b b P := ⟨fun _ _ => rfl, le_rfl, .inl rfl⟩

theorem Writes.trans (h : Writes b b' P) (h' : Writes b' b'' P) : Writes b b'' P := by
  refine ⟨fun a ha => (h'.rest a ha).trans (h.rest a ha), h.grows.trans h'.grows, ?_⟩
  rcases h'.top with heq | hnew
  · rw [heq]
    exact h.top
  · exact .inr hnew

theorem Writes.mono (h : Writes b b' P) (hPQ : ∀ a, P a → Q a) : Writes b b' Q :=
  ⟨fun a ha => h.rest a fun hp => ha (hPQ a hp), h.grows,
    h.top.imp_right fun ⟨a, ha, heq⟩ => ⟨a, hPQ a ha, heq⟩⟩

/-- Writes below `hi` get no further than `hi`. -/
theorem Writes.top_le (h : Writes b b' P) (hP : ∀ a, P a → a < hi) (hb : b.top ≤ hi) :
    b'.top ≤ hi := by
  rcases h.top with heq | ⟨a, ha, heq⟩
  · rwa [heq]
  · rw [heq]
    exact hP a ha

theorem Writes.span_mono {lo' hi' : Nat} (h : Writes b b' (Span lo hi)) (hlo : lo' ≤ lo)
    (hhi : hi ≤ hi') : Writes b b' (Span lo' hi') :=
  h.mono fun _ ha => ⟨le_trans hlo ha.1, lt_of_lt_of_le ha.2 hhi⟩

/-- Bytes outside the written ones still hold. -/
theorem Writes.holds (h : Writes b b' P) (hh : Bytes.Holds b.bytes off l)
    (hout : ∀ a, Span off (off + l.length) a → ¬ P a) : Bytes.Holds b'.bytes off l :=
  hh.congr fun a hlo hhi => h.rest a (hout a ⟨hlo, hhi⟩)

/-- The case of a span before or after. -/
theorem Writes.holds_span (h : Writes b b' (Span lo hi)) (hh : Bytes.Holds b.bytes off l)
    (hout : off + l.length ≤ lo ∨ hi ≤ off) : Bytes.Holds b'.bytes off l :=
  h.holds hh fun a ha hp => by
    have := ha.1; have := ha.2; have := hp.1; have := hp.2
    omega

theorem Buf.put_writes (h : b.put off l = .ok b') :
    Writes b b' (Span off (off + l.length)) ∧ Bytes.Holds b'.bytes off l ∧
      (0 < l.length → off + l.length ≤ b'.top) := by
  obtain rfl := Except.ok.inj h
  refine ⟨⟨fun a ha => Bytes.put_of_notMem ha, ?_, ?_⟩, Bytes.holds_put _ _ _, fun hpos => ?_⟩
  · dsimp only
    split
    · exact le_rfl
    · exact le_max_left _ _
  · dsimp only
    cases l with
    | nil => exact .inl rfl
    | cons x l =>
      rw [List.isEmpty_cons, if_neg Bool.false_ne_true]
      rcases le_total b.top (off + (x :: l).length) with hle | hle
      · refine .inr ⟨off + l.length, ⟨Nat.le_add_right _ _, ?_⟩, ?_⟩
        · rw [List.length_cons]
          omega
        · rw [max_eq_right hle, List.length_cons]
          omega
      · exact .inl (max_eq_left hle)
  · dsimp only
    rw [if_neg (by simpa using List.length_pos_iff.mp hpos)]
    exact le_max_right _ _

end Writes

/-- What the last entry reads as. -/
theorem words_of_last {base : Nat}
    (hh : Bytes.Holds m off (entryBytes tail (e ++ [(base, length)]))) (hbase : base < 2 ^ 32)
    (hlength : length < 2 ^ 32) :
    m.word 8 (off + 16 * e.length) = base ∧ m.word 4 (off + 16 * e.length + 8) = length := by
  obtain ⟨-, hlast⟩ := holds_entryBytes_snoc.mp hh
  obtain ⟨h8, h4, -⟩ := holds_rangeEntry.mp hlast
  exact ⟨h8.word_of_lt (by omega), h4.word_of_lt (by omega)⟩

/-- The last entry ends at `start`. -/
theorem follows_iff (hh : Bytes.Holds m off (entryBytes tail e))
    (hb : ∀ x ∈ e, x.1 < 2 ^ 32 ∧ x.2 < 2 ^ 32) :
    (0 < e.length ∧ m.word 8 (off + 16 * (e.length - 1)) +
        m.word 4 (off + 16 * (e.length - 1) + 8) = start) ↔ lastEnd e = some start := by
  rcases List.eq_nil_or_concat e with rfl | ⟨i, ⟨base, len⟩, rfl⟩
  · simp [lastEnd]
  · rw [List.concat_eq_append] at hh hb ⊢
    obtain ⟨hbase, hlen⟩ := hb (base, len) (List.mem_append_right _ (List.mem_singleton_self _))
    obtain ⟨h8, h4⟩ := words_of_last hh hbase hlen
    rw [List.length_append, List.length_singleton, Nat.add_sub_cancel, h8, h4]
    simp [lastEnd]

/-- The entries of `e` have been written. -/
structure Filled (b : Buf) (off tail : Nat) (e : List (Nat × Nat)) : Prop where
  holds   : Bytes.Holds b.bytes off (entryBytes tail e)
  reaches : e = [] ∨ off + 16 * e.length ≤ b.top

theorem filled_nil (b : Buf) (off tail : Nat) : Filled b off tail [] := ⟨rfl, .inl rfl⟩

/-- One more entry at the end. -/
theorem Filled.put (hf : Filled b off tail e)
    (h : b.put (off + 16 * e.length) (rangeEntry start length tail) = .ok b') :
    Filled b' off tail (e ++ [(start, length)]) ∧
      Writes b b' (Span off (off + 16 * (e ++ [(start, length)]).length)) := by
  obtain ⟨hw, hh, hle⟩ := Buf.put_writes h
  rw [length_rangeEntry] at hw hle
  have hlen := length_entryBytes tail e
  have hsnoc : (e ++ [(start, length)]).length = e.length + 1 := by simp
  refine ⟨⟨holds_entryBytes_snoc.mpr ⟨hw.holds_span hf.holds (.inl (by omega)), hh⟩, .inr ?_⟩, ?_⟩
  · rw [hsnoc]
    have := hle (by decide)
    omega
  · exact hw.span_mono (by omega) (by omega)

/-- A round of a loop that merges turns the entries of `e` into those of
`pushExtent e (start, length)`. -/
theorem Filled.addRange (hf : Filled b off tail e) (hb : ∀ x ∈ e, x.1 < 2 ^ 32 ∧ x.2 < 2 ^ 32)
    (h : addRange off tail e.length start length b = .ok (filled, b')) :
    filled = (pushExtent e (start, length)).length ∧
      Filled b' off tail (pushExtent e (start, length)) ∧
      Writes b b' (Span off (off + 16 * (pushExtent e (start, length)).length)) := by
  have hh := hf.holds
  unfold BootInfo.addRange at h
  dsimp only at h
  obtain ⟨i, base, len, rfl, hp, hpush⟩ | ⟨hne, hpush⟩ := pushExtent_cases e (start, length)
  · rw [if_pos ((follows_iff hh hb).mpr (by simpa [lastEnd] using hp))] at h
    obtain ⟨hbase, hlen⟩ := hb (base, len) (List.mem_append_right _ (List.mem_singleton_self _))
    obtain ⟨-, h4⟩ := words_of_last hh hbase hlen
    have hcount : ∀ x : Nat × Nat, (i ++ [x]).length = i.length + 1 := by simp
    rw [hcount, Nat.add_sub_cancel, h4] at h
    obtain ⟨b1, hput, heq⟩ := map_eq_ok.mp h
    cases heq
    obtain ⟨hw, hnew, -⟩ := Buf.put_writes hput
    rw [length_le] at hw
    obtain ⟨hi, hlast⟩ := holds_entryBytes_snoc.mp hh
    obtain ⟨hstart, -, htail⟩ := holds_rangeEntry.mp hlast
    have hlenBytes := length_entryBytes tail i
    have hreach := hf.reaches.resolve_left (by simp)
    rw [hcount] at hreach
    rw [hpush, hcount]
    refine ⟨rfl, ⟨holds_entryBytes_snoc.mpr ⟨hw.holds_span hi (.inl (by omega)), ?_⟩, .inr ?_⟩,
      hw.span_mono (by omega) (by omega)⟩
    · exact holds_rangeEntry.mpr ⟨hw.holds_span hstart (.inl (by rw [length_le])), hnew,
        hw.holds_span htail (.inr (by omega))⟩
    · rw [hcount]
      exact hreach.trans hw.grows
  · rw [if_neg fun hc => lastEnd_ne hne ((follows_iff hh hb).mp hc)] at h
    obtain ⟨b1, hput, heq⟩ := map_eq_ok.mp h
    cases heq
    rw [hpush]
    exact ⟨by simp, hf.put hput⟩

/-! ## The loops as rounds -/

/-- A round that merges the range `x` into the last entry where it can, or one that does not. -/
def round (merge : Bool) (off tail filled : Nat) (x : Nat × Nat) (b : Buf) : Result (Nat × Buf) :=
  if merge then addRange off tail filled x.1 x.2 b
  else (b.put (off + 16 * filled) (rangeEntry x.1 x.2 tail)).map (filled + 1, ·)

def rounds (merge : Bool) (off tail : Nat) : List (Nat × Nat) → Nat → Buf → Result Buf
  | [], _, b => .ok b
  | x :: l, filled, b => do
    let (filled, b) ← round merge off tail filled x b
    rounds merge off tail l filled b

/-- The two things a round can do. -/
theorem round_cases {merge : Bool} {x : Nat × Nat}
    (h : round merge off tail filled x b = .ok (k, b')) :
    b.put (off + 16 * filled) (rangeEntry x.1 x.2 tail) = .ok b' ∨
      (b.bytes.word 8 (off + 16 * (filled - 1)) + b.bytes.word 4 (off + 16 * (filled - 1) + 8) =
        x.1 ∧
        b.put (off + 16 * (filled - 1) + 8)
          (le 4 (b.bytes.word 4 (off + 16 * (filled - 1) + 8) + x.2)) = .ok b') := by
  unfold round addRange at h
  dsimp only at h
  split_ifs at h with _ hc
  all_goals
    obtain ⟨b1, hput, heq⟩ := map_eq_ok.mp h
    cases heq
  · exact .inr ⟨hc.2, hput⟩
  · exact .inl hput
  · exact .inl hput

theorem rounds_cons {b1 : Buf} {x : Nat × Nat} {l : List (Nat × Nat)}
    (hput : b.put (off + 16 * filled) (rangeEntry x.1 x.2 tail) = .ok b1)
    (h : rounds false off tail l (filled + 1) b1 = .ok b') :
    rounds false off tail (x :: l) filled b = .ok b' :=
  bind_eq_ok.mpr ⟨(filled + 1, b1), map_eq_ok.mpr ⟨b1, hput, rfl⟩, h⟩

theorem fillFrameEntries_rounds {type : Nat} (n : Nat)
    (h : fillFrameEntries s off type vpn n filled b = .ok b') :
    ∃ l, pageFrames s vpn n = .ok l ∧ rounds true off type (unitRanges l) filled b = .ok b' := by
  induction n generalizing vpn filled b with
  | zero => exact ⟨[], rfl, h⟩
  | succ n ih =>
    obtain ⟨pfn, hpfn, h⟩ := bind_eq_ok.mp h
    obtain ⟨⟨filled1, b1⟩, hadd, h⟩ := bind_eq_ok.mp h
    obtain ⟨l, hl, hrounds⟩ := ih h
    exact ⟨pfn :: l, bind_eq_ok.mpr ⟨pfn, ofStatus_eq_ok.mp hpfn, bind_eq_ok.mpr ⟨l, hl, rfl⟩⟩,
      bind_eq_ok.mpr ⟨_, hadd, hrounds⟩⟩

/-- The bytes of the ramdisk on its frames. -/
def byteRanges : List Nat → Nat → List (Nat × Nat)
  | [], _ => []
  | pfn :: l, size =>
    (pfn * 4096 % 2 ^ 32, if size < 4096 then size else 4096) ::
      byteRanges l (size - if size < 4096 then size else 4096)

theorem fillRamdiskExtentsLoop_rounds (n : Nat) {remaining : Nat}
    (h : fillRamdiskExtentsLoop s off vpn n remaining filled b = .ok b') :
    ∃ l, pageFrames s vpn n = .ok l ∧
      rounds true off 0 (byteRanges l remaining) filled b = .ok b' := by
  induction n generalizing vpn remaining filled b with
  | zero => exact ⟨[], rfl, h⟩
  | succ n ih =>
    obtain ⟨pfn, hpfn, h⟩ := bind_eq_ok.mp h
    obtain ⟨⟨filled1, b1⟩, hadd, h⟩ := bind_eq_ok.mp h
    obtain ⟨l, hl, hrounds⟩ := ih h
    exact ⟨pfn :: l, bind_eq_ok.mpr ⟨pfn, ofStatus_eq_ok.mp hpfn, bind_eq_ok.mpr ⟨l, hl, rfl⟩⟩,
      bind_eq_ok.mpr ⟨_, hadd, hrounds⟩⟩

theorem byteRanges_spec (l : List Nat) {size : Nat} :
    (∀ x ∈ byteRanges l size, x.1 < 2 ^ 32) ∧ ((byteRanges l size).map Prod.snd).sum ≤ size := by
  induction l generalizing size with
  | nil => exact ⟨by simp [byteRanges], Nat.zero_le _⟩
  | cons pfn l ih =>
    obtain ⟨hlt, hsum⟩ := @ih (size - if size < 4096 then size else 4096)
    rw [byteRanges, List.map_cons, List.sum_cons]
    refine ⟨List.forall_mem_cons.mpr ⟨Nat.mod_lt _ (by decide), hlt⟩, ?_⟩
    by_cases hlast : size < 4096
    · rw [if_pos hlast] at hsum ⊢
      omega
    · rw [if_neg hlast] at hsum ⊢
      omega

/-- **Rounds that merge write the extents of the ranges.** -/
theorem rounds_foldl (l : List (Nat × Nat)) (hl : ∀ x ∈ l, x.1 < 2 ^ 32) (hf : Filled b off tail e)
    (hb : ∀ x ∈ e, x.1 < 2 ^ 32 ∧ x.2 + (l.map Prod.snd).sum < 2 ^ 32)
    (hn : (l.map Prod.snd).sum < 2 ^ 32) (h : rounds true off tail l e.length b = .ok b') :
    Filled b' off tail (l.foldl pushExtent e) ∧
      Writes b b' (Span off (off + 16 * (l.foldl pushExtent e).length)) := by
  induction l generalizing b e with
  | nil =>
    cases h
    exact ⟨hf, Writes.refl _ _⟩
  | cons x l ih =>
    rw [List.map_cons, List.sum_cons] at hb hn
    obtain ⟨⟨filled, b1⟩, hround, h⟩ := bind_eq_ok.mp h
    have hadd : addRange off tail e.length x.1 x.2 b = .ok (filled, b1) := hround
    rw [show x = (x.1, x.2) from rfl, List.foldl_cons]
    obtain ⟨hlen, hf1, hw1⟩ := hf.addRange
      (fun y hy => ⟨(hb y hy).1, by have := (hb y hy).2; omega⟩) hadd
    have hb1 : ∀ y ∈ pushExtent e x, y.1 < 2 ^ 32 ∧ y.2 + (l.map Prod.snd).sum < 2 ^ 32 :=
      pushExtent_forall ⟨hl x List.mem_cons_self, by omega⟩
        (fun y hy => ⟨hy.1, by have := hy.2; omega⟩)
        (fun base length hy _ => ⟨hy.1, by have := hy.2; dsimp only at this ⊢; omega⟩) hb
    rw [hlen] at h
    obtain ⟨hf', hw'⟩ := ih (fun y hy => hl y (List.mem_cons_of_mem _ hy)) hf1 hb1 (by omega) h
    have hmono := length_le_foldl_pushExtent l (pushExtent e (x.1, x.2))
    exact ⟨hf', (hw1.span_mono le_rfl (by omega)).trans hw'⟩

theorem rounds_extents (l : List (Nat × Nat)) (hl : ∀ x ∈ l, x.1 < 2 ^ 32)
    (hn : (l.map Prod.snd).sum < 2 ^ 32) (h : rounds true off tail l 0 b = .ok b') :
    Filled b' off tail (extents l) ∧ Writes b b' (Span off (off + 16 * (extents l).length)) :=
  rounds_foldl l hl (filled_nil _ _ _) (by simp) hn h

theorem sum_unitRanges (l : List Nat) : ((unitRanges l).map Prod.snd).sum = l.length := by
  rw [unitRanges, List.map_map]
  simp [Function.comp_def]

theorem unitRanges_bounds {l : List Nat} (h : ∀ f ∈ l, f < 2 ^ 20) :
    ∀ x ∈ unitRanges l, x.1 < 2 ^ 32 ∧ x.2 < 2 ^ 32 := by
  intro x hx
  obtain ⟨f, hf, rfl⟩ := List.mem_map.mp hx
  have := h f hf
  omega

/-- The other rounds write the ranges one after the other. -/
theorem rounds_append (l : List (Nat × Nat)) (hf : Filled b off tail e)
    (h : rounds false off tail l e.length b = .ok b') :
    Filled b' off tail (e ++ l) ∧ Writes b b' (Span off (off + 16 * (e ++ l).length)) := by
  induction l generalizing b e with
  | nil =>
    cases h
    exact ⟨by rwa [List.append_nil], Writes.refl _ _⟩
  | cons x l ih =>
    obtain ⟨⟨filled, b1⟩, hround, h⟩ := bind_eq_ok.mp h
    obtain ⟨b2, hput, heq⟩ := map_eq_ok.mp (show (b.put (off + 16 * e.length)
      (rangeEntry x.1 x.2 tail)).map (e.length + 1, ·) = _ from hround)
    cases heq
    obtain ⟨hf1, hw1⟩ := hf.put hput
    have hlen : (e ++ [(x.1, x.2)]).length = e.length + 1 := by simp
    rw [← hlen] at h
    obtain ⟨hf', hw'⟩ := ih hf1 h
    rw [List.append_assoc, List.singleton_append] at hf' hw'
    refine ⟨hf', (hw1.span_mono le_rfl ?_).trans hw'⟩
    simp only [List.length_append, List.length_cons, List.length_nil]
    omega

end FoliOS.Vellum.BootInfo
