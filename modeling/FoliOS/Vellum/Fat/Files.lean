import FoliOS.Vellum.Fat.Read
import Mathlib.Data.List.TakeWhile

/-!
# Vellum — files on a FAT volume

A file is the bytes of the clusters of its chain, cut to the size in its entry. `spec` says what
the calls should do on that string; the driver does it as long as the calls fit.

* `file_behaves_iff` — when `seek`, `tell` and `read` behave as on the string.
* `lookup_iff` — a lookup is right exactly if it passes no number between `FATxx_MAX_CLUSTER` and
  the end-of-chain values.
-/

namespace FoliOS.Vellum.Fat

open Lib

variable {i c q : Nat} {d : FatData}

/-! ## Files and calls -/

/-- The fields of a directory entry that a file depends on. -/
structure FileEntry where
  clusterLocationHigh : UInt16
  clusterLocation     : UInt16
  size                : UInt32

def FileEntry.head (e : FileEntry) : Nat :=
  (e.clusterLocationHigh.toNat <<< 16) ||| e.clusterLocation.toNat

/-- `open` of the file of an entry. -/
def FileEntry.opened (e : FileEntry) : FileData :=
  openEntry e.clusterLocationHigh.toNat e.clusterLocation.toNat e.size.toNat

/-- The chain of a file: long enough for its size, and absent only for an empty file. -/
structure FileEntry.Chained (e : FileEntry) (disk : Bytes) (b : Bpb) (clusters : List Nat) :
    Prop where
  chain  : clusters ≠ [] → Chain disk b clusters ∧ clusters.head? = some e.head
  absent : clusters = [] → e.head = 0
  size   : e.size.toNat ≤ clusters.length * b.clusterSize

/-- The bytes of a file. -/
def FileEntry.content (e : FileEntry) (disk : Bytes) (b : Bpb) (clusters : List Nat) : List UInt8 :=
  (walkBytes disk b clusters).take e.size.toNat

inductive Call where
  | seek (offset : Int64) (origin : Origin)
  | tell
  | read (len : UInt32)

inductive Reply where
  | status (st : VlStatus)
  | position (p : Nat)
  | bytes (l : List UInt8)
  /-- A signed sum overflows. -/
  | undefined
  deriving DecidableEq

/-- One call of the driver. -/
def step (dev : BlockDevice) (s : FatData × FileData) : Call → Reply × FatData × FileData
  | .seek offset origin =>
    match seek dev s.1 s.2 offset origin with
    | none => (.undefined, s)
    | some (st, s) => (.status st, s)
  | .tell => (.position (tell s.2), s)
  | .read len =>
    match read dev s.1 s.2 len with
    | none => (.undefined, s)
    | some (st, d, f, out) => (if st.ok then .bytes out else .status st, d, f)

def replies (dev : BlockDevice) : FatData × FileData → List Call → List Reply
  | _, [] => []
  | s, call :: calls => (step dev s call).1 :: replies dev (step dev s call).2 calls

/-! ## The string of bytes -/

/-- The position an origin stands for, on a string of so many bytes. -/
def Origin.startOn (size p : Nat) : Origin → Option Nat
  | .set => some 0
  | .cur => some p
  | .fromEnd => some size
  | .other => none

/-- A call on a string of bytes at a position. -/
def spec (content : List UInt8) (p : Nat) : Call → Reply × Nat
  | .seek offset origin =>
    match origin.startOn content.length p with
    | none => (.status .invalidValue, p)
    | some base =>
      if base + offset.toInt < 0 then (.status .invalidValue, p)
      else (.status .success, min (base + offset.toInt).toNat content.length)
  | .tell => (.position p, p)
  | .read len =>
    if p ≥ content.length then (.status .endOfFile, p)
    else (.bytes ((content.drop p).take len.toNat), p + min len.toNat (content.length - p))

def specReplies (content : List UInt8) : Nat → List Call → List Reply
  | _, [] => []
  | p, call :: calls => (spec content p call).1 :: specReplies content (spec content p call).2 calls

/-! ## Where the driver keeps to it -/

/-- The clusters up to the one of the end of the file have numbers the driver knows. -/
def FileEntry.Numbered (e : FileEntry) (b : Bpb) (clusters : List Nat) : Prop :=
  ∀ i c, clusters[i]? = some c → i * b.clusterSize ≤ e.size.toNat → c ≤ b.fatType.maxCluster

/-- A call the driver can do at a position. A `seek` does not go to the end of the chain, and its
sum does not overflow. The sum of a `read` does not wrap around, unless the file fills its chain. -/
def FileEntry.Fits (e : FileEntry) (b : Bpb) (clusters : List Nat) (p : Nat) : Call → Prop
  | .seek offset origin =>
    ∀ base, origin.startOn e.size.toNat p = some base → base + offset.toInt < 2 ^ 63 ∧
      (0 ≤ base + offset.toInt → clusters = [] ∨
        min (base + offset.toInt).toNat e.size.toNat / b.clusterSize < clusters.length)
  | .tell => True
  | .read len => e.size.toNat ≤ p ∨ p + len.toNat < 2 ^ 32 ∨
      clusters.length * b.clusterSize = e.size.toNat

/-- All calls fit, each at the position the ones before lead to. -/
def FileEntry.FitsAll (e : FileEntry) (b : Bpb) (clusters : List Nat) (content : List UInt8) :
    Nat → List Call → Prop
  | _, [] => True
  | p, call :: calls =>
    e.Fits b clusters p call ∧ e.FitsAll b clusters content (spec content p call).2 calls

/-- A call that looks at the table: a `seek` behind the first cluster, and a `read` up to the end of
the cluster it starts in. -/
def FileEntry.LooksUp (e : FileEntry) (b : Bpb) (p : Nat) : Call → Prop
  | .seek offset origin =>
    ∃ base, origin.startOn e.size.toNat p = some base ∧ 0 ≤ base + offset.toInt ∧
      b.clusterSize ≤ min (base + offset.toInt).toNat e.size.toNat
  | .tell => False
  | .read len => p < e.size.toNat ∧ b.clusterSize ≤
      p % b.clusterSize + clampLen { e.opened with cursor := p } len.toNat

/-- Some call looks at the table, each at the position the ones before lead to. -/
def FileEntry.LooksUpAny (e : FileEntry) (b : Bpb) (content : List UInt8) : Nat → List Call → Prop
  | _, [] => False
  | p, call :: calls => e.LooksUp b p call ∨ e.LooksUpAny b content (spec content p call).2 calls

/-! ## The clusters of a numbered file -/

section Numbered

variable {disk : Bytes} {b : Bpb} {e : FileEntry} {clusters : List Nat}

theorem lt_length_takeWhile {α : Type} {q : α → Bool} {l : List α} (hi : i < l.length)
    (h : ∀ j ≤ i, ∀ x, l[j]? = some x → q x = true) : i < (l.takeWhile q).length := by
  induction l generalizing i with
  | nil => simp at hi
  | cons a l ih =>
    rw [List.takeWhile_cons_of_pos (h 0 (Nat.zero_le _) a rfl), List.length_cons]
    cases i with
    | zero => omega
    | succ i =>
      have hlt := ih (by simpa using hi) fun j hj x hx => h (j + 1) (by omega) x hx
      omega

theorem usable_eq_takeWhile (hhead : clusters.head? = some c) (hc : c ≤ b.fatType.maxCluster) :
    usable b clusters = clusters.takeWhile (· ≤ b.fatType.maxCluster) := by
  cases clusters with
  | nil => rfl
  | cons x rest =>
    obtain rfl : x = c := Option.some.inj hhead
    rw [usable, if_pos hc, List.takeWhile_cons_of_pos (by simpa using hc)]

/-- The driver gets to the clusters up to the end of the file. -/
theorem FileEntry.Numbered.lt_usable (hn : e.Numbered b clusters) (hi : i < clusters.length)
    (hsize : i * b.clusterSize ≤ e.size.toNat) : i < (usable b clusters).length := by
  obtain ⟨c, hhead⟩ : ∃ c, clusters.head? = some c := by
    cases clusters with
    | nil => simp at hi
    | cons c rest => exact ⟨c, rfl⟩
  have hc : c ≤ b.fatType.maxCluster :=
    hn 0 c (by rwa [← List.head?_eq_getElem?]) (by rw [Nat.zero_mul]; exact Nat.zero_le _)
  rw [usable_eq_takeWhile hhead hc]
  refine lt_length_takeWhile hi fun j hj x hx => ?_
  have hle : j * b.clusterSize ≤ i * b.clusterSize := Nat.mul_le_mul_right _ hj
  exact decide_eq_true (hn j x hx (hle.trans hsize))

theorem length_usable_le (b : Bpb) (clusters : List Nat) :
    (usable b clusters).length ≤ clusters.length :=
  (usable_take clusters).length_le

/-- Where the driver stops within the file, the chain ends. -/
theorem FileEntry.Numbered.length_usable (hn : e.Numbered b clusters)
    (h : (usable b clusters).length * b.clusterSize ≤ e.size.toNat) :
    (usable b clusters).length = clusters.length := by
  refine le_antisymm (length_usable_le b clusters) (Nat.le_of_not_lt fun hlt => ?_)
  exact absurd (hn.lt_usable hlt h) (lt_irrefl _)

section

variable (hn : e.Numbered b clusters) (hsize : e.size.toNat ≤ clusters.length * b.clusterSize)
include hn hsize

/-- The bytes of the file are in the clusters the driver gets to. -/
theorem FileEntry.Numbered.size_le_usable :
    e.size.toNat ≤ (usable b clusters).length * b.clusterSize := by
  by_contra hlt
  rw [hn.length_usable (by omega)] at hlt
  exact hlt hsize

/-- A file fills the clusters the driver gets to if it fills its chain. -/
theorem FileEntry.Numbered.usable_eq_size_iff :
    (usable b clusters).length * b.clusterSize = e.size.toNat ↔
      clusters.length * b.clusterSize = e.size.toNat := by
  constructor
  · intro heq
    rwa [hn.length_usable heq.le] at heq
  · have hmul := Nat.mul_le_mul_right b.clusterSize (length_usable_le b clusters)
    have husable := hn.size_le_usable hsize
    omega

end

end Numbered

/-! ## Calls -/

/-- The driver is at a position of the file; `d` was its state at `open`. -/
structure At (disk : Bytes) (b : Bpb) (root : Nat) (e : FileEntry) (clusters : List Nat)
    (d : FatData) (p : Nat) (s : FatData × FileData) : Prop where
  onVolume : OnVolume disk b root s.1
  seen     : Seen disk b root d e.opened s.1 s.2
  size     : s.2.size = e.size.toNat
  head     : s.2.headCluster = e.head
  cursor   : s.2.cursor = p
  inside   : p ≤ e.size.toNat
  current  : p < e.size.toNat → (usable b clusters)[p / b.clusterSize]? = some s.2.currentCluster

section Calls

variable {dev : BlockDevice} {disk : Bytes} {b : Bpb} {root : Nat} {e : FileEntry}
  {clusters : List Nat} {p : Nat} {s : FatData × FileData}

/-- The sector of the first lookup is known as it was at `open`, or any is. -/
theorem At.loaded (hs : At disk b root e clusters d p s) (hl : Loaded disk d (b.fatSector e.head)) :
    Loaded disk s.1 (b.fatSector e.head) ∧ Loaded disk s.1 (b.fatSector s.2.currentCluster) := by
  rcases hs.seen with hm | ⟨hsame, hcur⟩
  · exact ⟨hm.fatbuf _, hm.fatbuf _⟩
  · have hhead := hsame.loaded hl
    exact ⟨hhead, hcur ▸ hhead⟩

theorem FileEntry.Chained.length_content (hc : e.Chained disk b clusters) :
    (e.content disk b clusters).length = e.size.toNat := by
  rw [FileEntry.content, List.length_take, length_walkBytes, Nat.min_eq_left hc.size]

theorem FileEntry.Numbered.head_le (hn : e.Numbered b clusters) (hc : e.Chained disk b clusters)
    (hne : clusters ≠ []) : e.head ≤ b.fatType.maxCluster := by
  obtain ⟨-, hhead⟩ := hc.chain hne
  exact hn 0 e.head (by rwa [← List.head?_eq_getElem?]) (by rw [Nat.zero_mul]; exact Nat.zero_le _)

/-- The clusters the driver gets to from the head of the file. -/
theorem FileEntry.Chained.steps (hc : e.Chained disk b clusters) (hne : clusters ≠ [])
    (hmax : e.head ≤ b.fatType.maxCluster) (count : Nat) :
    stepsOf disk b count e.head = (usable b clusters)[count]? := by
  obtain ⟨hchain, hhead⟩ := hc.chain hne
  have hwalk := walk_usable hchain
  cases clusters with
  | nil => exact absurd rfl hne
  | cons c rest =>
    obtain rfl : c = e.head := Option.some.inj hhead
    rw [usable, if_pos hmax] at hwalk ⊢
    exact hwalk.steps hmax count

/-- `seek` to a position of the file: it succeeds if the position has a cluster. -/
theorem seekTo_eq (hdev : dev.Holds disk) (hc : e.Chained disk b clusters)
    (hn : e.Numbered b clusters) (hs : At disk b root e clusters d p s) (hq : q ≤ e.size.toNat)
    (hl : b.clusterSize ≤ q → Loaded disk d (b.fatSector e.head)) :
    (clusters = [] ∨ q / b.clusterSize < clusters.length →
      (seekTo dev s.1 s.2 q).1 = .success ∧
        At disk b root e clusters d q (seekTo dev s.1 s.2 q).2) ∧
    (¬ (clusters = [] ∨ q / b.clusterSize < clusters.length) →
      (seekTo dev s.1 s.2 q).1 ≠ .success) := by
  have hstep := getNextCluster_eq hdev hs.onVolume e.head (q / b.clusterSize) fun _ hpos =>
    (hs.loaded (hl (Nat.div_pos_iff.mp hpos).2)).1
  have hcall : getNextCluster dev s.1 s.2.headCluster (q / s.1.clusterSize) =
      getNextCluster dev s.1 e.head (q / b.clusterSize) := by
    rw [hs.head, hs.onVolume.clusterSize]
  rw [seekTo, hcall]
  rcases hres : getNextCluster dev s.1 e.head (q / b.clusterSize) with ⟨st, d', c⟩
  rw [hres] at hstep
  have hresult := hstep.result
  have hdone : (q < e.size.toNat → (usable b clusters)[q / b.clusterSize]? = some c) →
      At disk b root e clusters d q (d', { s.2 with currentCluster := c, cursor := q }) := by
    intro hcurrent
    by_cases hasked : e.head ≤ b.fatType.maxCluster ∧ 0 < q / b.clusterSize
    · have hm := hstep.mounted hasked.1 hasked.2
      exact ⟨hm.toOnVolume, .inl hm, hs.size, hs.head, rfl, hq, hcurrent⟩
    · obtain ⟨rfl, rfl⟩ := Prod.mk.inj (hstep.same hasked)
      exact ⟨hs.onVolume, hs.seen.imp_right fun h => ⟨h.1, rfl⟩, hs.size, hs.head, rfl, hq,
        hcurrent⟩
  by_cases hempty : clusters = []
  · -- an empty file, whose head is cluster 0
    have hzero : e.size.toNat = 0 := by
      have hsize := hc.size
      rw [hempty, List.length_nil, Nat.zero_mul] at hsize
      omega
    have hq0 : q / b.clusterSize = 0 := by
      rw [show q = 0 by omega, Nat.zero_div]
    rw [hq0, hc.absent hempty, stepsOf, if_pos (Nat.zero_le _)] at hresult
    rcases hresult with ⟨-, hst⟩ | ⟨hno, -⟩
    · have hat := hdone fun h => absurd h (by omega)
      rw [show st = .success from hst]
      exact ⟨fun _ => ⟨rfl, hat⟩, fun h => absurd (.inl hempty) h⟩
    · cases hno
  · rw [hc.steps hempty (hn.head_le hc hempty)] at hresult
    rcases hresult with ⟨hsome, hst⟩ | ⟨hnone, hst⟩
    · have hlt := (List.getElem?_eq_some_iff.mp hsome).1
      have hle := length_usable_le b clusters
      have hat := hdone fun _ => hsome
      rw [show st = .success from hst]
      exact ⟨fun _ => ⟨rfl, hat⟩, fun h => absurd (.inr (by omega)) h⟩
    · have hfail : ¬ (clusters = [] ∨ q / b.clusterSize < clusters.length) := by
        rintro (h | hlt)
        · exact hempty h
        · have husable := hn.lt_usable hlt ((Nat.div_mul_le_self _ _).trans hq)
          have hge := List.getElem?_eq_none_iff.mp hnone
          omega
      refine ⟨fun h => absurd h hfail, fun _ => ?_⟩
      simp only [hst, Bool.false_eq_true, if_false]
      rintro rfl
      cases hst

/-- A call does what it should exactly if it fits. -/
structure Agrees (dev : BlockDevice) (disk : Bytes) (b : Bpb) (root : Nat) (e : FileEntry)
    (clusters : List Nat) (d : FatData) (p : Nat) (s : FatData × FileData) (call : Call) :
      Prop where
  fits  : e.Fits b clusters p call →
    (step dev s call).1 = (spec (e.content disk b clusters) p call).1 ∧
      At disk b root e clusters d (spec (e.content disk b clusters) p call).2 (step dev s call).2
  unfit : ¬ e.Fits b clusters p call →
    (step dev s call).1 ≠ (spec (e.content disk b clusters) p call).1

theorem base_eq (hs : At disk b root e clusters d p s) (origin : Origin) :
    origin.base s.2 = origin.startOn e.size.toNat p := by
  cases origin with
  | set => rfl
  | cur => exact congrArg some hs.cursor
  | fromEnd => exact congrArg some hs.size
  | other => rfl

theorem agrees_seek (hdev : dev.Holds disk) (hc : e.Chained disk b clusters)
    (hn : e.Numbered b clusters) (hs : At disk b root e clusters d p s) (offset : Int64)
    (origin : Origin)
    (hl : e.LooksUp b p (.seek offset origin) → Loaded disk d (b.fatSector e.head)) :
    Agrees dev disk b root e clusters d p s (.seek offset origin) := by
  have hbase := base_eq hs origin
  have hlength := hc.length_content
  cases horigin : origin.startOn e.size.toNat p with
  | none =>
    have hfits : e.Fits b clusters p (.seek offset origin) := by
      intro base hb
      rw [horigin] at hb
      cases hb
    refine ⟨fun _ => ?_, fun h => absurd hfits h⟩
    simp only [step, seek, spec, hlength, hbase, horigin]
    exact ⟨trivial, hs⟩
  | some base =>
    have hfits : e.Fits b clusters p (.seek offset origin) ↔ base + offset.toInt < 2 ^ 63 ∧
        (0 ≤ base + offset.toInt → clusters = [] ∨
          min (base + offset.toInt).toNat e.size.toNat / b.clusterSize < clusters.length) := by
      constructor
      · exact fun h => h base horigin
      · intro h base' hb'
        rw [horigin] at hb'
        cases hb'
        exact h
    by_cases hover : base + offset.toInt ≥ 2 ^ 63
    · refine ⟨fun h => absurd (hfits.mp h).1 (by omega), fun _ => ?_⟩
      simp only [step, seek, spec, hlength, hbase, horigin, if_pos hover]
      rw [if_neg (by omega)]
      exact Reply.noConfusion
    by_cases hneg : base + offset.toInt < 0
    · refine ⟨fun _ => ?_, fun h => absurd (hfits.mpr ⟨by omega, fun h0 => absurd h0 (by omega)⟩) h⟩
      simp only [step, seek, spec, hlength, hbase, horigin, if_neg hover, if_pos hneg]
      exact ⟨trivial, hs⟩
    have hiff : e.Fits b clusters p (.seek offset origin) ↔ clusters = [] ∨
        min (base + offset.toInt).toNat e.size.toNat / b.clusterSize < clusters.length := by
      rw [hfits]
      exact ⟨fun h => h.2 (by omega), fun h => ⟨by omega, fun _ => h⟩⟩
    have hseek :=
      seekTo_eq hdev hc hn hs (Nat.min_le_right (base + offset.toInt).toNat e.size.toNat)
      fun hle => hl ⟨base, horigin, by omega, hle⟩
    have hstep : step dev s (.seek offset origin) =
        (.status (seekTo dev s.1 s.2 (min (base + offset.toInt).toNat e.size.toNat)).1,
          (seekTo dev s.1 s.2 (min (base + offset.toInt).toNat e.size.toNat)).2) := by
      simp only [step, seek, hbase, horigin, if_neg hover, if_neg hneg, hs.size]
    have hspec : spec (e.content disk b clusters) p (.seek offset origin) =
        (.status .success, min (base + offset.toInt).toNat e.size.toNat) := by
      simp only [spec, hlength, horigin, if_neg hneg]
    refine ⟨fun h => ?_, fun h => ?_⟩
    · obtain ⟨hst, hat⟩ := hseek.1 (hiff.mp h)
      rw [hstep, hspec, hst]
      exact ⟨rfl, hat⟩
    · rw [hstep, hspec]
      exact fun heq => hseek.2 (fun hreach => h (hiff.mpr hreach)) (Reply.status.inj heq)

/-- The loop of `read` at a position of the file. -/
theorem readLoop_at (hdev : dev.Holds disk) (hb : b.WellFormed) (hc : e.Chained disk b clusters)
    (hn : e.Numbered b clusters) (hs : At disk b root e clusters d p s) (hp : p < e.size.toNat)
    {len : Nat} (hl : b.clusterSize ≤ p % b.clusterSize + len →
      Loaded disk d (b.fatSector e.head)) :
    ∃ res, readLoop dev (len + 1) s.1 s.2 len [] = some res ∧
      ReadOn disk b root (usable b clusters) s.1 s.2 p len [] res := by
  have hcurrent := hs.current hp
  have hne : clusters ≠ [] := by
    rintro rfl
    cases hcurrent
  obtain ⟨hchain, hhead⟩ := hc.chain hne
  refine readLoop_on hdev hb (walk_usable hchain)
    (fun c hmem => hchain.valid c ((usable_take clusters).subset hmem)) (fun c hmem => ?_) (len + 1)
    ⟨hs.onVolume, fun hle => (hs.loaded (hl hle)).2, hcurrent, ?_⟩ (Nat.lt_succ_self len)
  · rw [usable_eq_takeWhile hhead (hn.head_le hc hne)] at hmem
    simpa using List.mem_takeWhile_imp hmem
  · rw [hs.cursor, Nat.mod_eq_of_lt (hp.trans e.size.toNat_lt)]

/-- The bytes the driver gets to, against those of the file. -/
theorem content_drop_take (hn : e.Numbered b clusters) (hc : e.Chained disk b clusters) {len : Nat}
    (hlen : p + len ≤ e.size.toNat) :
    ((walkBytes disk b (usable b clusters)).drop p).take len =
      ((e.content disk b clusters).drop p).take len := by
  obtain ⟨more, hmore⟩ := usable_take (b := b) clusters
  have hsize := hn.size_le_usable hc.size
  have hlength : (walkBytes disk b (usable b clusters)).length =
      (usable b clusters).length * b.clusterSize := length_walkBytes _
  have hbytes : walkBytes disk b clusters =
      walkBytes disk b (usable b clusters) ++ walkBytes disk b more := by
    rw [walkBytes, walkBytes, walkBytes, ← List.flatMap_append, hmore]
  rw [FileEntry.content, hbytes, List.take_append_of_le_length (by omega), List.drop_take,
    List.take_take, Nat.min_eq_left (by omega)]

section

variable (hdev : dev.Holds disk) (hb : b.WellFormed) (hc : e.Chained disk b clusters)
  (hn : e.Numbered b clusters)
include hdev hb hc hn

theorem agrees_read (hs : At disk b root e clusters d p s) (len : UInt32)
    (hl : e.LooksUp b p (.read len) → Loaded disk d (b.fatSector e.head)) :
    Agrees dev disk b root e clusters d p s (.read len) := by
  have hlength := hc.length_content
  have hsize32 : e.size.toNat < 2 ^ 32 := e.size.toNat_lt
  have hlen32 : len.toNat < 2 ^ 32 := len.toNat_lt
  have husable := hn.size_le_usable hc.size
  by_cases hp : e.size.toNat ≤ p
  · have hfits : e.Fits b clusters p (.read len) := .inl hp
    refine ⟨fun _ => ?_, fun h => absurd hfits h⟩
    simp only [step, read, spec, hlength, hs.cursor, hs.size, ge_iff_le, if_pos hp]
    exact ⟨rfl, hs⟩
  have hspec : spec (e.content disk b clusters) p (.read len) =
      (.bytes (((e.content disk b clusters).drop p).take len.toNat),
        p + min len.toNat (e.size.toNat - p)) := by
    simp only [spec, hlength, ge_iff_le, if_neg hp]
  have hclampAt : clampLen s.2 len.toNat = clampLen { e.opened with cursor := p } len.toNat := by
    rw [clampLen, clampLen, hs.cursor, hs.size]
    rfl
  obtain ⟨⟨st, d', f, out⟩, hloop, hst, hv, hseen, hout, hsize, hhead, hcursor, hcurrent⟩ :=
    readLoop_at hdev hb hc hn hs (by omega) fun hle =>
      hl ⟨by omega, hclampAt ▸ hle⟩
  obtain rfl : st = .success := hst
  obtain rfl : out = _ := hout
  have hstep : step dev s (.read len) = (.bytes
      (((walkBytes disk b (usable b clusters)).drop p).take (clampLen s.2 len.toNat)), d', f) := by
    have hcur : ¬ s.2.cursor ≥ s.2.size := by
      rw [hs.cursor, hs.size]
      omega
    simp only [step, read, if_neg hcur, hloop]
    rfl
  -- whoever reads as many bytes as there are, does what it should
  have hgood : min (p + clampLen s.2 len.toNat) ((usable b clusters).length * b.clusterSize) =
        p + min len.toNat (e.size.toNat - p) →
      (step dev s (.read len)).1 = (spec (e.content disk b clusters) p (.read len)).1 ∧
      At disk b root e clusters d (spec (e.content disk b clusters) p (.read len)).2
        (step dev s (.read len)).2 := by
    intro hmin
    have hbytes : (walkBytes disk b (usable b clusters)).length =
        (usable b clusters).length * b.clusterSize := length_walkBytes _
    rw [hstep, hspec]
    rw [hmin] at hcursor hcurrent
    refine ⟨congrArg Reply.bytes ?_, hv, hs.seen.trans hseen hv, hsize.trans hs.size,
      hhead.trans hs.head, ?_, by simp only; omega, fun hlt => ?_⟩
    · have hleft := content_drop_take hn hc
        (show p + min len.toNat (e.size.toNat - p) ≤ e.size.toNat by omega)
      have hcode : ((walkBytes disk b (usable b clusters)).drop p).take (clampLen s.2 len.toNat) =
          ((walkBytes disk b (usable b clusters)).drop p).take
            (min len.toNat (e.size.toNat - p)) := by
        rw [List.take_eq_take_min, List.length_drop, hbytes]
        congr 1
        omega
      have hfile : ((e.content disk b clusters).drop p).take len.toNat =
          ((e.content disk b clusters).drop p).take (min len.toNat (e.size.toNat - p)) := by
        rw [List.take_eq_take_min, List.length_drop, hlength]
      rw [hcode, hfile, hleft]
    · exact hcursor.trans (Nat.mod_eq_of_lt (by omega))
    · have hdiv : (p + min len.toNat (e.size.toNat - p)) / b.clusterSize <
          (usable b clusters).length :=
        (Nat.div_lt_iff_lt_mul hb.clusterSize_pos).mpr (hlt.trans_le husable)
      have hget := List.getElem?_eq_getElem hdiv
      rw [hcurrent _ hget]
      exact hget
  by_cases hwrap : p + len.toNat < 2 ^ 32
  · have hfits : e.Fits b clusters p (.read len) := .inr (.inl hwrap)
    refine ⟨fun _ => hgood ?_, fun h => absurd hfits h⟩
    rw [clampLen, hs.cursor, hs.size, Nat.mod_eq_of_lt hwrap]
    split <;> omega
  have hclamp : clampLen s.2 len.toNat = len.toNat := by
    rw [clampLen, hs.cursor, hs.size]
    exact if_neg (by omega)
  by_cases hfull : clusters.length * b.clusterSize = e.size.toNat
  · have hfits : e.Fits b clusters p (.read len) := .inr (.inr hfull)
    refine ⟨fun _ => hgood ?_, fun h => absurd hfits h⟩
    rw [hclamp, (hn.usable_eq_size_iff hc.size).mpr hfull]
    omega
  · refine ⟨fun h => ?_, fun _ heq => ?_⟩
    · rcases h with h | h | h
      · exact absurd h hp
      · exact absurd h hwrap
      · exact absurd h hfull
    · -- more bytes than the file has
      have hmore : (usable b clusters).length * b.clusterSize ≠ e.size.toNat :=
        fun h => hfull ((hn.usable_eq_size_iff hc.size).mp h)
      rw [hstep, hspec, hclamp] at heq
      have hcount := congrArg List.length (Reply.bytes.inj heq)
      rw [List.length_take, List.length_take, List.length_drop, List.length_drop, hlength,
        length_walkBytes] at hcount
      omega

theorem agrees (hs : At disk b root e clusters d p s) (call : Call)
    (hl : e.LooksUp b p call → Loaded disk d (b.fatSector e.head)) :
    Agrees dev disk b root e clusters d p s call := by
  cases call with
  | seek offset origin => exact agrees_seek hdev hc hn hs offset origin hl
  | tell => exact ⟨fun _ => ⟨congrArg Reply.position hs.cursor, hs⟩, fun h => absurd trivial h⟩
  | read len => exact agrees_read hdev hb hc hn hs len hl

/-- **Runs on a numbered file** give the replies of the string exactly if all calls fit. -/
theorem replies_eq_iff (calls : List Call) (hs : At disk b root e clusters d p s)
    (hl : e.LooksUpAny b (e.content disk b clusters) p calls →
      Loaded disk d (b.fatSector e.head)) :
    replies dev s calls = specReplies (e.content disk b clusters) p calls ↔
      e.FitsAll b clusters (e.content disk b clusters) p calls := by
  induction calls generalizing p s with
  | nil => exact ⟨fun _ => trivial, fun _ => rfl⟩
  | cons call calls ih =>
    have hcall := agrees hdev hb hc hn hs call fun h => hl (.inl h)
    have hrest := fun hs' => ih (s := (step dev s call).2) hs' fun h => hl (.inr h)
    rw [replies, specReplies, FileEntry.FitsAll, List.cons_eq_cons]
    constructor
    · rintro ⟨hreply, hreplies⟩
      have hfits : e.Fits b clusters p call := by
        by_contra h
        exact hcall.unfit h hreply
      exact ⟨hfits, (hrest (hcall.fits hfits).2).mp hreplies⟩
    · rintro ⟨hfits, hall⟩
      exact ⟨(hcall.fits hfits).1, (hrest (hcall.fits hfits).2).mpr hall⟩

end

/-- After `open` the driver is at the start of the file. -/
theorem at_opened (hv : OnVolume disk b root d) (hc : e.Chained disk b clusters)
    (hn : e.Numbered b clusters) : At disk b root e clusters d 0 (d, e.opened) := by
  refine ⟨hv, .inr ⟨⟨rfl, rfl⟩, rfl⟩, rfl, rfl, rfl, Nat.zero_le _, fun hpos => ?_⟩
  rw [Nat.zero_div]
  have hne : clusters ≠ [] := by
    rintro rfl
    have hsize := hc.size
    rw [List.length_nil, Nat.zero_mul] at hsize
    omega
  obtain ⟨-, hhead⟩ := hc.chain hne
  have hmax := hn.head_le hc hne
  cases clusters with
  | nil => exact absurd rfl hne
  | cons c rest =>
    obtain rfl : c = e.head := Option.some.inj hhead
    rw [usable, if_pos hmax]
    rfl

/-- The driver does not get to a cluster above its maximum. -/
theorem FileEntry.Chained.steps_eq_none (hc : e.Chained disk b clusters)
    (hget : clusters[i]? = some c) (hmax : ¬ c ≤ b.fatType.maxCluster) :
    stepsOf disk b i e.head = none := by
  have hne : clusters ≠ [] := by
    rintro rfl
    cases hget
  obtain ⟨hchain, hhead⟩ := hc.chain hne
  by_cases hle : e.head ≤ b.fatType.maxCluster
  · rw [hc.steps hne hle i, List.getElem?_eq_none_iff]
    by_contra hlt
    -- the clusters of the walk are those of the chain, below the maximum
    obtain ⟨more, hmore⟩ := usable_take (b := b) clusters
    have hsame : (usable b clusters)[i]? = some c := by
      rw [← hget]
      conv_rhs => rw [← hmore, List.getElem?_append_left (Nat.lt_of_not_le hlt)]
    have hmem := List.mem_of_getElem? hsame
    rw [usable_eq_takeWhile hhead hle] at hmem
    exact hmax (by simpa using List.mem_takeWhile_imp hmem)
  · exact steps_of_gt (Nat.lt_of_not_le hle) i

theorem toInt_ofNat_of_lt (hq : q < 2 ^ 32) : (Int64.ofNat q).toInt = q :=
  Int64.toInt_ofNat_of_lt (hq.trans (by decide))

/-- `seek` to the positions with a cluster, right after `open`, works for numbered files only. -/
theorem seek_iff_numbered (hdev : dev.Holds disk) (hb : b.WellFormed)
    (hc : e.Chained disk b clusters) (hv : OnVolume disk b root d)
    (hl : b.clusterSize ≤ e.size.toNat → Loaded disk d (b.fatSector e.head)) :
    (∀ q ≤ e.size.toNat, clusters = [] ∨ q / b.clusterSize < clusters.length →
      (step dev (d, e.opened) (.seek (Int64.ofNat q) .set)).1 = .status .success) ↔
      e.Numbered b clusters := by
  have hcs := hb.clusterSize_pos
  have hsize32 : e.size.toNat < 2 ^ 32 := e.size.toNat_lt
  constructor
  · intro hseek i c hget hi
    by_contra hmax
    obtain ⟨hlt, hcget⟩ := List.getElem?_eq_some_iff.mp hget
    have hne : clusters ≠ [] := List.ne_nil_of_length_pos (by omega)
    have hdiv : i * b.clusterSize / b.clusterSize = i := Nat.mul_div_cancel _ hcs
    have hstep := getNextCluster_eq hdev hv e.head i fun _ hpos =>
      hl ((Nat.le_mul_of_pos_left _ hpos).trans hi)
    have hok := hseek (i * b.clusterSize) hi (.inr (by rw [hdiv]; exact hlt))
    have hint := toInt_ofNat_of_lt (show i * b.clusterSize < 2 ^ 32 by omega)
    simp only [step, seek, Origin.base, hint] at hok
    rw [if_neg (by omega), if_neg (by omega)] at hok
    have hq : min (((0 : Nat) : Int) + (i * b.clusterSize : Nat)).toNat e.opened.size =
        i * b.clusterSize := by
      show min _ e.size.toNat = _
      omega
    rw [hq, seekTo, show e.opened.headCluster = e.head from rfl, hv.clusterSize, hdiv] at hok
    rcases hres : getNextCluster dev d e.head i with ⟨st, d', c'⟩
    rw [hres] at hstep hok
    have hfail : st.ok = false := by
      rcases hstep.result with ⟨hsome, -⟩ | ⟨-, hst⟩
      · rw [hc.steps_eq_none hget hmax] at hsome
        cases hsome
      · exact hst
    simp only [hfail, Bool.false_eq_true, if_false] at hok
    obtain rfl : st = .success := Reply.status.inj hok
    cases hfail
  · intro hn q hq hreach
    have hint := toInt_ofNat_of_lt (show q < 2 ^ 32 by omega)
    have hfits : e.Fits b clusters 0 (.seek (Int64.ofNat q) .set) := by
      intro base hbase
      cases hbase
      rw [hint]
      refine ⟨by omega, fun _ => ?_⟩
      rwa [show min ((0 : Nat) + (q : Int)).toNat e.size.toNat = q by omega]
    rw [((agrees_seek hdev hc hn (at_opened hv hc hn) (Int64.ofNat q) .set
      fun ⟨base, _, _, hle⟩ => hl (hle.trans (Nat.min_le_right _ _))).fits hfits).1]
    simp only [spec, Origin.startOn, hint]
    rw [if_neg (by omega)]

end Calls

/-- **Files on a well-formed volume.** The driver mounts it, and what is in the buffer of the table
stays as it was. A file can be positioned at each cluster exactly if the clusters up to the one of
its end have numbers the driver knows; and then `seek`, `tell` and `read` behave as on the bytes of
the file exactly as long as the calls fit. Where the table is looked at, the buffer must not be
taken for the sector of the first lookup unless it holds it. -/
theorem file_behaves_iff (dev : BlockDevice) (disk : Bytes) (memory : FatData)
    (hdev : dev.Holds disk) (hb : (bpbAt disk).WellFormed) (e : FileEntry) (clusters : List Nat)
    (hc : e.Chained disk (bpbAt disk) clusters) :
    (∃ d, mount dev memory = .ok d ∧ OnVolume disk (bpbAt disk) d.rootCluster d ∧
      SameFat memory d) ∧
    ∀ root d, OnVolume disk (bpbAt disk) root d →
      (((bpbAt disk).clusterSize ≤ e.size.toNat →
          Loaded disk d ((bpbAt disk).fatSector e.head)) →
        ((∀ q ≤ e.size.toNat, clusters = [] ∨ q / (bpbAt disk).clusterSize < clusters.length →
          (step dev (d, e.opened) (.seek (Int64.ofNat q) .set)).1 = .status .success) ↔
            e.Numbered (bpbAt disk) clusters)) ∧
      (e.Numbered (bpbAt disk) clusters → ∀ calls,
        (e.LooksUpAny (bpbAt disk) (e.content disk (bpbAt disk) clusters) 0 calls →
          Loaded disk d ((bpbAt disk).fatSector e.head)) →
        (replies dev (d, e.opened) calls =
            specReplies (e.content disk (bpbAt disk) clusters) 0 calls ↔
          e.FitsAll (bpbAt disk) clusters (e.content disk (bpbAt disk) clusters) 0 calls)) := by
  refine ⟨⟨_, mount_eq hdev hb, onVolume_mountData, sameFat_mountData⟩, fun root d hv =>
    ⟨fun hl => ?_, fun hn calls hl => ?_⟩⟩
  · exact seek_iff_numbered hdev hb hc hv hl
  · exact replies_eq_iff hdev hb hc hn calls (at_opened hv hc hn) hl

/-! ## A FAT12 volume with 4084 clusters -/

/-- One reserved sector, a table of twelve, one sector of root entries and 4084 clusters of one
sector. The chains are 2, 3 and, from the last cluster, 4085. -/
def sampleDisk : Bytes :=
  let boot := Bytes.put (fun _ => 0) 11
    (le 2 512 ++ le 1 1 ++ le 2 1 ++ le 1 1 ++ le 2 16 ++ le 2 4098 ++ le 1 0 ++ le 2 12)
  let named := (boot.put 54 fat12FsType).put 510 (le 2 0xAA55)
  (named.put (512 + 3) [0x03, 0xF0, 0xFF]).put (512 + 6127) [0xF0, 0xFF]

def sampleBpb : Bpb where
  bytesPerSector := 512
  sectorsPerCluster := 1
  reservedSectorCount := 1
  fatCount := 1
  rootEntryCount := 16
  totalSectorCount16 := 4098
  fatSize16 := 12
  totalSectorCount32 := 0
  fatSize32 := 0
  rootCluster := 0
  fsinfoSector := 0
  fsType := fat12FsType
  fsType32 := List.replicate 8 0
  signature := bpbSignature

theorem bpbAt_sampleDisk : bpbAt sampleDisk = sampleBpb := by
  decide +kernel

theorem fatType_sampleBpb : sampleBpb.fatType = .fat12 := by decide

theorem sampleBpb_wellFormed : sampleBpb.WellFormed where
  sectorSize := rfl
  clusterSize := ⟨0, by decide, rfl⟩
  signature := rfl
  typeNamed := by
    unfold Bpb.typeNamed
    rw [fatType_sampleBpb]
    rfl
  inside := by decide
  total := by decide
  rootEntries := by decide
  noFixedRoot := by decide
  numbers := by decide

def sampleDevice : BlockDevice where
  blockSize := 512
  read lba count := .ok (sampleDisk.slice (512 * lba) (512 * count))

theorem sampleDevice_holds : sampleDevice.Holds sampleDisk := ⟨rfl, fun _ _ => rfl⟩

/-- Memory that was cleared. -/
def clearedMemory : FatData where
  reservedSectors := 0
  sectorSize := 0
  clusterSize := 0
  sectorsPerCluster := 0
  fatType := .fat12
  dataAreaBegin := 0
  rootCluster := 0
  rootSectorCount := 0
  fatbufLba := 0
  fatbuf := []
  databufLbaStart := 0
  databuf := []

/-- A file with the clusters 2 and 3. -/
def sampleFile (size : UInt32) : FileEntry where
  clusterLocationHigh := 0
  clusterLocation := 2
  size := size

theorem chain_two : Chain sampleDisk sampleBpb [2, 3] where
  nonempty := List.cons_ne_nil _ _
  valid := by decide
  linked := List.isChain_pair.mpr (by decide +kernel)
  ends c hc := by
    obtain rfl : 3 = c := Option.some.inj hc
    decide +kernel

theorem sampleFile_chained (size : UInt32) (hsize : size.toNat ≤ 1024) :
    (sampleFile size).Chained sampleDisk sampleBpb [2, 3] where
  chain _ := ⟨chain_two, by simp [sampleFile, FileEntry.head]⟩
  absent h := absurd h (List.cons_ne_nil _ _)
  size := hsize

theorem sampleFile_numbered (size : UInt32) : (sampleFile size).Numbered sampleBpb [2, 3] := by
  intro i c hget _
  have hmem := List.mem_of_getElem? hget
  have hall : ∀ c ∈ [2, 3], c ≤ sampleBpb.fatType.maxCluster := by decide
  exact hall c hmem

/-- A file in the last cluster of the volume. -/
def lastFile : FileEntry where
  clusterLocationHigh := 0
  clusterLocation := 4085
  size := 100

theorem lastFile_chained : lastFile.Chained sampleDisk sampleBpb [4085] where
  chain _ := by
    refine ⟨⟨List.cons_ne_nil _ _, by decide, List.isChain_singleton _, fun c hc => ?_⟩,
      by simp [lastFile, FileEntry.head]⟩
    obtain rfl : 4085 = c := Option.some.inj hc
    decide +kernel
  absent h := absurd h (List.cons_ne_nil _ _)
  size := by decide

/-- The table does not start in sector 0. -/
theorem clearedMemory_loaded {lba : Nat} (h : sampleBpb.reservedSectorCount ≤ lba) :
    Loaded sampleDisk clearedMemory lba := by
  intro heq
  have hzero : (0 : Int) = lba := heq
  have hone : 1 ≤ lba := h
  omega

theorem mountData_loaded (c : Nat) :
    Loaded sampleDisk (mountData sampleBpb clearedMemory) (sampleBpb.fatSector c) :=
  sameFat_mountData.loaded (clearedMemory_loaded (Nat.le_add_right _ _))

/-- A file of 700 bytes: some calls that fit. -/
theorem file_behaves_iff_sample : ∃ d, mount sampleDevice clearedMemory = .ok d ∧
    replies sampleDevice (d, (sampleFile 700).opened) [.seek 600 .set, .read 50, .tell] =
      specReplies ((sampleFile 700).content sampleDisk sampleBpb [2, 3]) 0
        [.seek 600 .set, .read 50, .tell] := by
  have hb := sampleBpb_wellFormed
  have hc := sampleFile_chained 700 (by decide)
  have hlength := hc.length_content
  rw [← bpbAt_sampleDisk] at hb hc hlength ⊢
  obtain ⟨⟨d, hmount, hv, hsame⟩, hfile⟩ := file_behaves_iff sampleDevice sampleDisk clearedMemory
    sampleDevice_holds hb (sampleFile 700) [2, 3] hc
  have hl : Loaded sampleDisk d ((bpbAt sampleDisk).fatSector 2) := hsame.loaded
    (clearedMemory_loaded (by rw [bpbAt_sampleDisk]; exact Nat.le_add_right _ _))
  refine ⟨d, hmount, ((hfile _ d hv).2 (by rw [bpbAt_sampleDisk]; exact sampleFile_numbered 700) _
    fun _ => hl).mpr ?_⟩
  rw [bpbAt_sampleDisk] at hlength ⊢
  have hseek : (spec ((sampleFile 700).content sampleDisk sampleBpb [2, 3]) 0 (.seek 600 .set)).2 =
      600 := by
    simp only [spec, Origin.startOn, hlength]
    decide
  refine ⟨fun base hbase => ?_, .inr (.inl ?_), trivial, trivial⟩
  · cases hbase
    exact ⟨by decide, fun _ => .inr (by decide)⟩
  · rw [hseek]
    decide

/-- The end of a file that fills its clusters, a read whose sum wraps around, and the last cluster
of the volume. -/
theorem file_misbehaves :
    (sampleFile 1024).Chained sampleDisk sampleBpb [2, 3] ∧
    (sampleFile 700).Chained sampleDisk sampleBpb [2, 3] ∧
    lastFile.Chained sampleDisk sampleBpb [4085] ∧
    ∃ d, mount sampleDevice clearedMemory = .ok d ∧
      replies sampleDevice (d, (sampleFile 1024).opened) [.seek 1024 .set] ≠
        specReplies ((sampleFile 1024).content sampleDisk sampleBpb [2, 3]) 0 [.seek 1024 .set] ∧
      replies sampleDevice (d, (sampleFile 700).opened) [.seek 1 .set, .read 0xFFFFFFFF] ≠
        specReplies ((sampleFile 700).content sampleDisk sampleBpb [2, 3]) 0
          [.seek 1 .set, .read 0xFFFFFFFF] ∧
      ∃ q ≤ lastFile.size.toNat,
        (step sampleDevice (d, lastFile.opened) (.seek (Int64.ofNat q) .set)).1 ≠ .status
          .success := by
  have hb := sampleBpb_wellFormed
  have h1024 := sampleFile_chained 1024 (by decide)
  have h700 := sampleFile_chained 700 (by decide)
  have hmount : mount sampleDevice clearedMemory = .ok (mountData sampleBpb clearedMemory) := by
    rw [← bpbAt_sampleDisk] at hb ⊢
    exact mount_eq sampleDevice_holds hb
  have hv : OnVolume sampleDisk sampleBpb _ (mountData sampleBpb clearedMemory) :=
    onVolume_mountData
  refine ⟨h1024, h700, lastFile_chained, _, hmount, fun heq => ?_, fun heq => ?_, ?_⟩
  · have hfits := (replies_eq_iff sampleDevice_holds hb h1024 (sampleFile_numbered 1024) _
      (at_opened hv h1024 (sampleFile_numbered 1024)) fun _ => mountData_loaded _).mp heq
    have hreach := (hfits.1 0 rfl).2 (by decide)
    exact absurd hreach (by decide)
  · have hfits := (replies_eq_iff sampleDevice_holds hb h700 (sampleFile_numbered 700) _
      (at_opened hv h700 (sampleFile_numbered 700)) fun _ => mountData_loaded _).mp heq
    have hseek : (spec ((sampleFile 700).content sampleDisk sampleBpb [2, 3]) 0 (.seek 1 .set)).2 =
        1 := by
      simp only [spec, Origin.startOn, h700.length_content]
      decide
    have hread := hfits.2.1
    rw [hseek] at hread
    rcases hread with h | h | h <;> exact absurd h (by decide)
  · by_contra hall
    have hn := (seek_iff_numbered sampleDevice_holds hb lastFile_chained hv
      fun _ => mountData_loaded _).mp
      fun q hq _ => not_not.mp fun hne => hall ⟨q, hq, hne⟩
    exact absurd (hn 0 4085 rfl (by decide)) (by decide)

/-! ## Lookups

`get_next_cluster` against the table as it is on the disk, after any lookups before. The driver
ends a chain at every number above `FATxx_MAX_CLUSTER`, and these include the last cluster of a
volume with `FAT12_MAX_CLUSTER` or `FAT16_MAX_CLUSTER` clusters. -/

/-- The `k`-fold application of the table to a cluster, unless an end of chain is met before. -/
def tableSteps (disk : Bytes) (b : Bpb) : Nat → Nat → Option Nat
  | 0, c => some c
  | k + 1, c =>
    if b.fatType.endOfChain ≤ entryOf disk b c then none else tableSteps disk b k (entryOf disk b c)

/-- What a lookup should answer. -/
def Answers (disk : Bytes) (b : Bpb) (k c : Nat) (res : VlStatus × FatData × Nat) : Prop :=
  match tableSteps disk b k c with
  | some c' => res.1 = .success ∧ res.2.2 = c'
  | none => res.1 = .endOfList

/-- The driver after some lookups. -/
def lookups (dev : BlockDevice) (d : FatData) (history : List (Nat × Nat)) : FatData :=
  history.foldl (fun d q => (getNextCluster dev d q.1 q.2).2.1) d

/-- No cluster on the way is one the driver takes for an end of chain. -/
def Passes (disk : Bytes) (b : Bpb) (k c : Nat) : Prop :=
  ∀ j ≤ k, ∀ v, tableSteps disk b j c = some v → v ≤ b.fatType.maxCluster

variable {dev : BlockDevice} {disk : Bytes} {b : Bpb} {root c k v : Nat} {d : FatData}

theorem passes_zero : Passes disk b 0 c ↔ c ≤ b.fatType.maxCluster := by
  refine ⟨fun h => h 0 le_rfl c rfl, fun hc j hj v hv => ?_⟩
  obtain rfl : j = 0 := by omega
  exact Option.some.inj hv ▸ hc

theorem passes_succ : Passes disk b (k + 1) c ↔ c ≤ b.fatType.maxCluster ∧
    (entryOf disk b c < b.fatType.endOfChain → Passes disk b k (entryOf disk b c)) := by
  constructor
  · refine fun h => ⟨h 0 (Nat.zero_le _) c rfl, fun hlt j hj v hv => ?_⟩
    exact h (j + 1) (by omega) v (by rw [tableSteps, if_neg (by omega), hv])
  · rintro ⟨hc, hrest⟩ j hj v hv
    cases j with
    | zero => exact Option.some.inj hv ▸ hc
    | succ j =>
      rw [tableSteps] at hv
      split at hv
      · cases hv
      next hlt => exact hrest (by omega) j (by omega) v hv

/-- Where the driver gets to. -/
theorem stepsOf_eq_some_iff :
    stepsOf disk b k c = some v ↔ tableSteps disk b k c = some v ∧ Passes disk b k c := by
  induction k generalizing c with
  | zero =>
    rw [passes_zero, stepsOf, tableSteps]
    split
    next hc => simp [hc]
    next hc => simp [hc]
  | succ k ih =>
    have hmax := maxCluster_lt_endOfChain b.fatType
    rw [passes_succ, stepsOf, nextOf, tableSteps]
    by_cases hc : c ≤ b.fatType.maxCluster
    · by_cases hentry : entryOf disk b c ≤ b.fatType.maxCluster
      · rw [if_pos ⟨hc, hentry⟩, if_neg (by omega), Option.bind_some, ih]
        simp [hc, show entryOf disk b c < b.fatType.endOfChain by omega]
      · rw [if_neg fun h => hentry h.2]
        -- the entry is an end of chain, or a number the driver takes for one
        refine iff_of_false (by simp) ?_
        rintro ⟨hsteps, -, hrest⟩
        split at hsteps
        · cases hsteps
        next hlt => exact hentry (hrest (by omega) 0 (Nat.zero_le _) _ rfl)
    · simp [hc]

/-- The first sector of the table that is asked for. -/
def firstAsked (b : Bpb) : List (Nat × Nat) → Option Nat
  | [] => none
  | (c, k) :: rest =>
    if c ≤ b.fatType.maxCluster ∧ 0 < k then some (b.fatSector c) else firstAsked b rest

/-- After some lookups the sector of the next one is known, if that of the first one was. -/
theorem lookups_loaded (hdev : dev.Holds disk) (hv : OnVolume disk b root d)
    (history : List (Nat × Nat))
    (hl : ∀ lba, firstAsked b (history ++ [(c, k)]) = some lba → Loaded disk d lba) :
    OnVolume disk b root (lookups dev d history) ∧ (c ≤ b.fatType.maxCluster → 0 < k →
      Loaded disk (lookups dev d history) (b.fatSector c)) := by
  induction history generalizing d with
  | nil => exact ⟨hv, fun hc hk => hl _ (if_pos ⟨hc, hk⟩)⟩
  | cons q history ih =>
    rw [List.cons_append, firstAsked] at hl
    by_cases hasked : q.1 ≤ b.fatType.maxCluster ∧ 0 < q.2
    · rw [if_pos hasked] at hl
      have hm := (getNextCluster_eq hdev hv q.1 q.2 fun _ _ => hl _ rfl).mounted hasked.1 hasked.2
      exact ih hm.toOnVolume fun lba _ => hm.fatbuf lba
    · rw [if_neg hasked] at hl
      have hsame :=
        (getNextCluster_eq hdev hv q.1 q.2 fun hc hk => absurd ⟨hc, hk⟩ hasked).same hasked
      rw [lookups, List.foldl_cons, hsame]
      exact ih hv hl

/-- From a cluster it knows the driver fails at an end of chain only. -/
theorem followClusters_status (hdev : dev.Holds disk) (hv : OnVolume disk b root d)
    (hc : c ≤ b.fatType.maxCluster) (k : Nat) (hl : 0 < k → Loaded disk d (b.fatSector c))
    (h : (followClusters (entryReader dev b.fatType) b.fatType.maxCluster k d c).1.ok = false) :
    (followClusters (entryReader dev b.fatType) b.fatType.maxCluster k d c).1 = .endOfList := by
  induction k generalizing d c with
  | zero => cases h
  | succ k ih =>
    obtain ⟨d', hread, hm'⟩ := entryReader_eq hdev hv hc (hl k.succ_pos)
    rw [followClusters, hread] at h ⊢
    dsimp only at h ⊢
    split
    · rfl
    next hle =>
      rw [if_neg hle] at h
      exact ih hm'.toOnVolume (by omega) (fun _ => hm'.fatbuf _) h

/-- One lookup, if the sector it asks for first is known. -/
theorem answers_iff (hdev : dev.Holds disk) (hv : OnVolume disk b root d) (k c : Nat)
    (hl : c ≤ b.fatType.maxCluster → 0 < k → Loaded disk d (b.fatSector c)) :
    Answers disk b k c (getNextCluster dev d c k) ↔
      c ≤ b.fatType.maxCluster ∧ (tableSteps disk b k c = none ∨ Passes disk b k c) := by
  have hsteps := (getNextCluster_eq hdev hv c k hl).result
  rw [getNextCluster_eq_with, hv.fatType, getNextClusterWith] at hsteps ⊢
  by_cases hc : c ≤ b.fatType.maxCluster
  · rw [if_neg (by omega)] at hsteps ⊢
    have hstatus := followClusters_status hdev hv hc k (hl hc)
    simp only [hc, true_and]
    unfold Answers
    rcases hsteps with ⟨hv, hok⟩ | ⟨hnone, hfail⟩
    · obtain ⟨htable, hpasses⟩ := stepsOf_eq_some_iff.mp hv
      rw [htable]
      exact iff_of_true ⟨hok, rfl⟩ (Or.inr hpasses)
    · rw [hstatus hfail]
      cases htable : tableSteps disk b k c with
      | none => simp
      | some v =>
        refine iff_of_false (by simp) ?_
        rintro (h | hpasses)
        · cases h
        · rw [stepsOf_eq_some_iff.mpr ⟨htable, hpasses⟩] at hnone
          cases hnone
  · rw [if_pos (by omega)]
    refine iff_of_false (fun h => ?_) fun h => hc h.1
    unfold Answers at h
    split at h
    · cases h.1
    · cases h

/-- **Lookups.** After any lookups on a mounted volume, looking up a cluster is right if and only if
the driver knows its number, and those of the clusters on the way, unless the chain ends before.
The memory of the driver must not be taken for the sector that is asked for first, unless it holds
it. -/
theorem lookup_iff (dev : BlockDevice) (disk : Bytes) (memory : FatData) (hdev : dev.Holds disk)
    (hb : (bpbAt disk).WellFormed) :
    ∃ d, mount dev memory = .ok d ∧ ∀ history c k, 2 ≤ c → c ≤ (bpbAt disk).clusterCount + 1 →
      (∀ lba, firstAsked (bpbAt disk) (history ++ [(c, k)]) = some lba → Loaded disk memory lba) →
      (Answers disk (bpbAt disk) k c (getNextCluster dev (lookups dev d history) c k) ↔
        c ≤ (bpbAt disk).fatType.maxCluster ∧
          (tableSteps disk (bpbAt disk) k c = none ∨ Passes disk (bpbAt disk) k c)) := by
  refine ⟨_, mount_eq hdev hb, fun history c k _ _ hl => ?_⟩
  obtain ⟨hv, hready⟩ := lookups_loaded hdev onVolume_mountData history fun lba hlba =>
    SameFat.loaded sameFat_mountData (hl lba hlba)
  exact answers_iff hdev hv k c hready

/-- One step from cluster 2 of the sample, after lookups of the last cluster and past an end. -/
theorem lookup_iff_sample : ∃ d, mount sampleDevice clearedMemory = .ok d ∧
    Answers sampleDisk (bpbAt sampleDisk) 1 2
      (getNextCluster sampleDevice (lookups sampleDevice d [(4085, 1), (3, 7)]) 2 1) := by
  obtain ⟨d, hmount, hlookup⟩ := lookup_iff sampleDevice sampleDisk clearedMemory sampleDevice_holds
    (by rw [bpbAt_sampleDisk]; exact sampleBpb_wellFormed)
  rw [bpbAt_sampleDisk] at hlookup ⊢
  have hl : ∀ lba, firstAsked sampleBpb ([(4085, 1), (3, 7)] ++ [(2, 1)]) = some lba →
      Loaded sampleDisk clearedMemory lba := by
    intro lba hlba
    have hfirst : firstAsked sampleBpb ([(4085, 1), (3, 7)] ++ [(2, 1)]) =
        some (sampleBpb.fatSector 3) := by decide
    rw [hfirst] at hlba
    exact Option.some.inj hlba ▸ clearedMemory_loaded (Nat.le_add_right _ _)
  refine ⟨d, hmount, (hlookup _ 2 1 (by decide) (by decide) hl).mpr ⟨by decide, Or.inr ?_⟩⟩
  exact passes_succ.mpr ⟨by decide, fun _ => passes_zero.mpr (by decide +kernel)⟩

/-- The last cluster of the sample is refused. Where the memory of the driver held the address of
the first sector of the table, the next cluster of 2 is read from that memory. -/
theorem lookup_fails :
    (mount sampleDevice clearedMemory).map
        (fun d => (getNextCluster sampleDevice d 4085 0).1) = .ok .invalidValue ∧
      (mount sampleDevice { clearedMemory with fatbufLba := 1, fatbuf := List.replicate 512 0 }).map
        (fun d =>
          ((getNextCluster sampleDevice d 2 1).1, (getNextCluster sampleDevice d 2 1).2.2)) =
          .ok (.success, 0) ∧
      sampleBpb.clusterCount + 1 = 4085 ∧ tableSteps sampleDisk sampleBpb 1 2 = some 3 := by
  decide +kernel

end FoliOS.Vellum.Fat
