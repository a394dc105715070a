import FoliOS.Vellum.Fat.Files

/-!
# Vellum — the buffers of the file systems (`vellum/filesystem/fat`, `vellum/filesystem/iso9660`)

A buffer is kept with the address it was read from, and is not read again for that address. Here a
device read may fail after it wrote any part of the buffer.

`reads_right_of_careful`: what a successful read was asked for is in its buffer, if the device read
that filled the buffer was of as many blocks and none failed since. `Shows.readFat` and
`Shows.readCluster` tie the requests to the model of the driver.
-/

namespace FoliOS.Vellum.Caches

open Lib Function
open Fat (FatData fatclusterToSector)

/-- What the device does with a read; `written` is what it wrote before it failed. -/
inductive Outcome where
  | success
  | failure (written : Nat → Option UInt8)

structure Buffer where
  lba   : Int
  bytes : Bytes

/-- `count` blocks at `lba`, asked for in one of the buffers. -/
structure Request (κ : Type) where
  buffer : κ
  lba    : Nat
  count  : Nat

/-- The blocks asked for are in the buffer. -/
def Buffer.Holds (size : Nat) (disk : Bytes) (b : Buffer) (lba count : Nat) : Prop :=
  ∀ i < count * size, b.bytes i = disk (lba * size + i)

/-! ## The requests -/

inductive FatBuffer where
  | fatbuf
  | databuf
  deriving DecidableEq

/-- What `read_fat` asks for. -/
def readFat (d : FatData) (fatSector : Nat) : Request FatBuffer :=
  ⟨.fatbuf, d.reservedSectors + fatSector, 1⟩

/-- `read_sector` of FAT -/
def readSector (lba : Nat) : Request FatBuffer := ⟨.databuf, lba, 1⟩

/-- What `read_cluster` asks for. -/
def readCluster (d : FatData) (cluster : Nat) : Request FatBuffer :=
  ⟨.databuf, fatclusterToSector d cluster, d.sectorsPerCluster⟩

/-- `read_sector` of ISO 9660 -/
def isoReadSector (lba : Nat) : Request Unit := ⟨(), lba, 1⟩

inductive FatRead where
  | fat (fatSector : Nat)
  | sector (lba : Nat)
  | cluster (number : Nat)

def FatRead.request (d : FatData) : FatRead → Request FatBuffer
  | .fat fatSector => readFat d fatSector
  | .sector lba => readSector lba
  | .cluster number => readCluster d number

/-! ## Sequences of requests -/

section
variable {κ : Type} [DecidableEq κ] (size : Nat) (disk : Bytes)

/-- The body all the reads have: whether it succeeds, and the buffers after it. -/
def cachedRead (s : κ → Buffer) (r : Request κ) (o : Outcome) : Bool × (κ → Buffer) :=
  let b := s r.buffer
  if b.lba = r.lba then (true, s)
  else match o with
    | .success =>
      (true, update s r.buffer ⟨r.lba, fun i =>
        if i < r.count * size then disk (r.lba * size + i) else b.bytes i⟩)
    | .failure written =>
      -- the address of the last successful read stays
      (false, update s r.buffer { b with bytes := fun i =>
        if i < r.count * size then (written i).getD (b.bytes i) else b.bytes i })

/-- Whenever a read of the sequence succeeds, what it was asked for is in its buffer. -/
def Right : (κ → Buffer) → List (Request κ × Outcome) → Prop
  | _, [] => True
  | s, (r, o) :: reads =>
    let a := cachedRead size disk s r o
    (a.1 = true → (a.2 r.buffer).Holds size disk r.lba r.count) ∧ Right a.2 reads

/-- How many blocks the last device read put into each buffer. -/
def filled (s : κ → Buffer) (n : κ → Nat) (r : Request κ) (o : Outcome) : κ → Nat :=
  if (s r.buffer).lba = r.lba then n
  else update n r.buffer (match o with | .success => r.count | .failure _ => 0)

/-- No read finds its address at a buffer with fewer blocks than it asks for. -/
def Careful : (κ → Buffer) → (κ → Nat) → List (Request κ × Outcome) → Prop
  | _, _, [] => True
  | s, n, (r, o) :: reads =>
    ((s r.buffer).lba = r.lba → r.count ≤ n r.buffer) ∧
      Careful (cachedRead size disk s r o).2 (filled s n r o) reads

variable {size disk}

/-- The blocks a buffer was filled with are those at its address. -/
def Filled (size : Nat) (disk : Bytes) (s : κ → Buffer) (n : κ → Nat) : Prop :=
  ∀ k, ∀ lba : Nat, (s k).lba = lba → (s k).Holds size disk lba (n k)

theorem Filled.cachedRead {s : κ → Buffer} {n : κ → Nat} (h : Filled size disk s n)
    (r : Request κ) (o : Outcome) :
    Filled size disk (cachedRead size disk s r o).2 (filled s n r o) := by
  by_cases hhit : (s r.buffer).lba = r.lba
  · simpa only [Caches.cachedRead, filled, if_pos hhit] using h
  · intro k lba hk
    simp only [Caches.cachedRead, filled, if_neg hhit] at hk ⊢
    by_cases hkr : k = r.buffer
    · subst hkr
      cases o with
      | success =>
        simp only [update_self, Nat.cast_inj] at hk ⊢
        subst hk
        intro i hi
        exact if_pos hi
      | failure written =>
        intro i hi
        simp at hi
    · cases o <;> simp only [update_of_ne hkr] at hk ⊢ <;> exact h k lba hk

theorem Filled.right {s : κ → Buffer} {n : κ → Nat} {r : Request κ} {o : Outcome}
    (h : Filled size disk s n) (hr : (s r.buffer).lba = r.lba → r.count ≤ n r.buffer)
    (hok : (Caches.cachedRead size disk s r o).1 = true) :
    ((Caches.cachedRead size disk s r o).2 r.buffer).Holds size disk r.lba r.count := by
  by_cases hhit : (s r.buffer).lba = r.lba
  · simp only [Caches.cachedRead, if_pos hhit]
    intro i hi
    exact h _ _ hhit i (Nat.lt_of_lt_of_le hi (Nat.mul_le_mul_right _ (hr hhit)))
  · cases o with
    | success =>
      intro i hi
      simp only [Caches.cachedRead, if_neg hhit, update_self, if_pos hi]
    | failure written => simp [Caches.cachedRead, hhit] at hok

theorem right_of_careful {s : κ → Buffer} {n : κ → Nat} {reads : List (Request κ × Outcome)}
    (h : Filled size disk s n) (hc : Careful size disk s n reads) : Right size disk s reads := by
  induction reads generalizing s n with
  | nil => trivial
  | cons a reads ih => exact ⟨h.right hc.1, ih (h.cachedRead a.1 a.2) hc.2⟩

end

/-! ## The reads of the FAT driver

Where the device reads everywhere, the reads are those of the driver's model. -/

/-- The two buffers of the driver, as far as they are filled. -/
structure Shows (d : FatData) (s : FatBuffer → Buffer) : Prop where
  fatLba  : (s .fatbuf).lba = d.fatbufLba
  fat     : ∀ i b, d.fatbuf[i]? = some b → (s .fatbuf).bytes i = b
  dataLba : (s .databuf).lba = d.databufLbaStart
  data    : ∀ i b, d.databuf[i]? = some b → (s .databuf).bytes i = b

section

variable {dev : BlockDevice} {disk : Bytes} {d : FatData} {s : FatBuffer → Buffer}

/-- The bytes of a successful read are those of the device. -/
theorem bytes_of_slice {lba n m i : Nat} {x : UInt8} (hnm : n = m) (old : UInt8)
    (h : (disk.slice (512 * lba) n)[i]? = some x) :
    (if i < m then disk (lba * 512 + i) else old) = x := by
  obtain ⟨hi, hx⟩ := List.getElem?_eq_some_iff.mp h
  rw [Bytes.length_slice] at hi
  rw [if_pos (by omega), Nat.mul_comm lba]
  simpa [Bytes.slice] using hx

/-- `read_fat` of the driver is a read of its request. -/
theorem Shows.readFat (hdev : dev.Holds disk) (h : Shows d s) (sector : Nat) :
    ∃ d', Fat.readFat dev d sector = .ok d' ∧
      Shows d' (cachedRead 512 disk s (Caches.readFat d sector) .success).2 := by
  rw [Fat.readFat]
  unfold Caches.readFat cachedRead
  dsimp only
  by_cases hhit : d.fatbufLba = ((d.reservedSectors + sector : Nat) : Int)
  · refine ⟨d, if_pos hhit, ?_⟩
    rw [if_pos (h.fatLba.trans hhit)]
    exact h
  · rw [if_neg hhit, hdev.read_one]
    refine ⟨_, rfl, ?_⟩
    rw [if_neg fun heq => hhit (h.fatLba.symm.trans heq)]
    refine ⟨rfl, fun i x hx => ?_, h.dataLba, h.data⟩
    simp only [update_self]
    dsimp only at hx
    exact bytes_of_slice (Nat.one_mul 512).symm _ hx

/-- `read_cluster` of the driver is a read of its request. -/
theorem Shows.readCluster (hdev : dev.Holds disk) (h : Shows d s) (cluster : Nat) :
    ∃ d', Fat.readCluster dev d cluster = .ok d' ∧
      Shows d' (cachedRead 512 disk s (Caches.readCluster d cluster) .success).2 := by
  rw [Fat.readCluster]
  unfold Caches.readCluster cachedRead
  dsimp only
  by_cases hhit : d.databufLbaStart = ((fatclusterToSector d cluster : Nat) : Int)
  · refine ⟨d, if_pos hhit, ?_⟩
    rw [if_pos (h.dataLba.trans hhit)]
    exact h
  · rw [if_neg hhit, hdev.read]
    refine ⟨_, rfl, ?_⟩
    rw [if_neg fun heq => hhit (h.dataLba.symm.trans heq)]
    exact ⟨h.fatLba, h.fat, rfl, fun i x hx => bytes_of_slice (Nat.mul_comm _ _) _ hx⟩

end

/-- **The buffers hold what was asked for**, in a sequence of reads from any state: no buffer counts
as filled at first. -/
theorem reads_right_of_careful (disk : Bytes) :
    (∀ (d : FatData) (s : FatBuffer → Buffer) (reads : List (FatRead × Outcome)),
      Careful 512 disk s (fun _ => 0) (reads.map fun a => (a.1.request d, a.2)) →
        Right 512 disk s (reads.map fun a => (a.1.request d, a.2))) ∧
    ∀ (s : Unit → Buffer) (reads : List (Nat × Outcome)),
      Careful 2048 disk s (fun _ => 0) (reads.map fun a => (isoReadSector a.1, a.2)) →
        Right 2048 disk s (reads.map fun a => (isoReadSector a.1, a.2)) := by
  have hempty : ∀ (b : Buffer) (size lba : Nat), b.Holds size disk lba 0 := by
    intro b size lba i hi
    simp at hi
  exact ⟨fun d s reads => right_of_careful fun k lba _ => hempty _ _ lba,
    fun s reads => right_of_careful fun k lba _ => hempty _ _ lba⟩

/-- After a failed read of sector 2 it is sector 2 that is asked for again. -/
theorem reads_right_of_careful_retry :
    Right 2048 (fun _ => 7) (fun _ => ⟨-1, fun _ => 0⟩)
      (([(1, .success), (2, .failure fun _ => some 0), (2, .success)] : List (Nat × Outcome)).map
        fun a => (isoReadSector a.1, a.2)) :=
  (reads_right_of_careful _).2 _ _ ⟨by decide, by decide, by decide, trivial⟩

/-- A read of sector 2 fails after it wrote over sector 1, which is taken to be there still; one
sector is taken for the two of a cluster. -/
theorem reads_wrong :
    ¬ Right 2048 (fun _ => 7) (fun _ => ⟨-1, fun _ => 0⟩)
      [(isoReadSector 1, .success), (isoReadSector 2, .failure fun _ => some 0),
        (isoReadSector 1, .success)] ∧
    ¬ Right 512 (fun _ => 7) (fun _ => ⟨-1, fun _ => 0⟩)
      [(readSector 5, .success), (readCluster
        { Fat.clearedMemory with sectorsPerCluster := 2, dataAreaBegin := 5 } 2, .success)] := by
  refine ⟨fun h => ?_, fun h => ?_⟩
  · exact absurd (h.2.2.1 rfl 0 (by decide)) (by decide)
  · exact absurd (h.2.1 rfl 512 (by decide)) (by decide)

end FoliOS.Vellum.Caches
