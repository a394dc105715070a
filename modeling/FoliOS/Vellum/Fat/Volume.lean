import FoliOS.Vellum.Fat.Model
import Mathlib.Data.List.Chain

/-!
# Vellum — well-formed FAT volumes

What a FAT volume means, apart from the code that reads it: the geometry its first sector gives, the
entry of a cluster in the table, the chains and the bytes of a cluster. `OnVolume` ties the state of
the driver to a volume, and `Mounted` its buffer of the table too, which `mount` leaves as it was.

* `mount_eq` — what `mount` makes of a well-formed volume.
* `getNextCluster_eq` — steps along a chain, over the three encodings and the buffer.
-/

namespace FoliOS.Vellum.Fat

open Lib

variable {c first second : Nat} {b : Bpb}

/-! ## Geometry -/

/-- The sectors of the fixed root directory. -/
def Bpb.rootSectors (b : Bpb) : Nat := (b.rootEntryCount * 32 + 511) / 512

/-- The sector of the fixed root directory, or of cluster 2 where there is none. -/
def Bpb.rootBegin (b : Bpb) : Nat := b.reservedSectorCount + b.fatCount * b.fatSize

def Bpb.clusterCount (b : Bpb) : Nat :=
  (b.totalSectorCount - b.rootBegin - b.rootSectors) / b.sectorsPerCluster

def Bpb.fatType (b : Bpb) : FatType := fatTypeOf b.clusterCount

def Bpb.clusterSize (b : Bpb) : Nat := 512 * b.sectorsPerCluster

/-- The first sector of a cluster. -/
def Bpb.sectorOf (b : Bpb) (cluster : Nat) : Nat :=
  b.rootBegin + b.rootSectors + (cluster - 2) * b.sectorsPerCluster

/-- The name of the type in the sector. -/
def Bpb.typeNamed (b : Bpb) : Prop :=
  match b.fatType with
  | .fat12 => b.fsType = fat12FsType
  | .fat16 => b.fsType = fat16FsType
  | .fat32 => b.fsType32 = fat32FsType

/-- A consistent BPB. -/
structure Bpb.WellFormed (b : Bpb) : Prop where
  sectorSize  : b.bytesPerSector = 512
  clusterSize : ∃ k ≤ 7, b.sectorsPerCluster = 2 ^ k
  signature   : b.signature = bpbSignature
  typeNamed   : b.typeNamed
  inside      : b.rootBegin + b.rootSectors ≤ b.totalSectorCount
  total       : b.totalSectorCount < 2 ^ 32
  rootEntries : b.rootEntryCount < 2 ^ 16
  noFixedRoot : b.fatType = .fat32 → b.rootEntryCount = 0
  numbers     : b.fatType = .fat32 → b.clusterCount + 1 ≤ FatType.maxCluster .fat32

/-! ## Chains -/

/-- The entry of a cluster in the first table. -/
def entryOf (disk : Bytes) (b : Bpb) (cluster : Nat) : Nat :=
  let table := 512 * b.reservedSectorCount
  match b.fatType with
  | .fat12 =>
    let pair := disk.word 2 (table + cluster * 3 / 2)
    if cluster % 2 = 1 then pair / 16 else pair % 4096
  | .fat16 => disk.word 2 (table + 2 * cluster)
  | .fat32 => disk.word 4 (table + 4 * cluster) % 2 ^ 28

/-- The sector the entry of a cluster starts in. -/
def Bpb.fatSector (b : Bpb) (cluster : Nat) : Nat :=
  b.reservedSectorCount + match b.fatType with
    | .fat12 => cluster * 3 / 2 / 512
    | .fat16 => cluster / 256
    | .fat32 => cluster / 128

/-- The entries of a last cluster start here. -/
def FatType.endOfChain : FatType → Nat
  | .fat12 => 0xFF8
  | .fat16 => 0xFFF8
  | .fat32 => 0x0FFFFFF8

/-- A chain of clusters from its first one to its end. -/
structure Chain (disk : Bytes) (b : Bpb) (clusters : List Nat) : Prop where
  nonempty : clusters ≠ []
  valid    : ∀ c ∈ clusters, 2 ≤ c ∧ c ≤ b.clusterCount + 1
  linked   : clusters.IsChain fun c c' => entryOf disk b c = c'
  ends     : ∀ c, clusters.getLast? = some c → b.fatType.endOfChain ≤ entryOf disk b c

/-- The bytes of a cluster. -/
def clusterBytes (disk : Bytes) (b : Bpb) (cluster : Nat) : List UInt8 :=
  disk.slice (512 * b.sectorOf cluster) b.clusterSize

/-! ## The driver on a volume -/

/-- The state of the driver on a volume. The buffer of a cluster holds what its address says;
`root` is what it takes for the root cluster. -/
structure OnVolume (disk : Bytes) (b : Bpb) (root : Nat) (d : FatData) : Prop where
  reservedSectors   : d.reservedSectors = b.reservedSectorCount
  sectorSize        : d.sectorSize = 512
  clusterSize       : d.clusterSize = b.clusterSize
  sectorsPerCluster : d.sectorsPerCluster = b.sectorsPerCluster
  fatType           : d.fatType = b.fatType
  dataAreaBegin     : d.dataAreaBegin = b.rootBegin
  rootCluster       : d.rootCluster = root
  rootSectorCount   : d.rootSectorCount = b.rootSectors
  databuf           : ∀ c, 2 ≤ c → c ≤ b.clusterCount + 1 → d.databufLbaStart = b.sectorOf c →
    d.databuf = clusterBytes disk b c

/-- If the buffer of the table is taken for a sector, it holds that sector. -/
def Loaded (disk : Bytes) (d : FatData) (lba : Nat) : Prop :=
  d.fatbufLba = lba → d.fatbuf = disk.slice (512 * lba) 512

/-- The buffer of the table holds what its address says too. -/
structure Mounted (disk : Bytes) (b : Bpb) (root : Nat) (d : FatData) : Prop
    extends OnVolume disk b root d where
  fatbuf : ∀ lba, Loaded disk d lba

section Geometry

variable {b : Bpb}

theorem Bpb.WellFormed.sectorsPerCluster_bounds (hb : b.WellFormed) :
    1 ≤ b.sectorsPerCluster ∧ b.sectorsPerCluster ≤ 128 := by
  obtain ⟨k, hk, heq⟩ := hb.clusterSize
  rw [heq]
  exact ⟨Nat.one_le_two_pow, Nat.pow_le_pow_right (by decide) hk⟩

/-- The clusters are in the volume. -/
theorem Bpb.WellFormed.sectorOf_lt (hb : b.WellFormed) (hc : 2 ≤ c) (hc' : c ≤ b.clusterCount + 1) :
    b.sectorOf c + b.sectorsPerCluster ≤ b.totalSectorCount := by
  have hinside := hb.inside
  have hmul : b.clusterCount * b.sectorsPerCluster ≤
      b.totalSectorCount - b.rootBegin - b.rootSectors := Nat.div_mul_le_self _ _
  have hle : (c - 2 + 1) * b.sectorsPerCluster ≤ b.clusterCount * b.sectorsPerCluster :=
    Nat.mul_le_mul_right _ (by omega)
  rw [Nat.add_mul, Nat.one_mul] at hle
  unfold Bpb.sectorOf
  omega

theorem Bpb.sectorOf_inj (hspc : 1 ≤ b.sectorsPerCluster) {c' : Nat} (hc : 2 ≤ c) (hc' : 2 ≤ c')
    (heq : b.sectorOf c = b.sectorOf c') : c = c' := by
  have hmul : (c - 2) * b.sectorsPerCluster = (c' - 2) * b.sectorsPerCluster :=
    Nat.add_left_cancel heq
  have := Nat.eq_of_mul_eq_mul_right hspc hmul
  omega

end Geometry

/-! ## `mount` -/

section Mount

variable {dev : BlockDevice} {disk : Bytes} {memory : FatData}

/-- The BPB of a volume. -/
def bpbAt (disk : Bytes) : Bpb := bpbOf (disk.slice 0 512)

/-- The numbers `mount` computes are those of the volume. -/
theorem Bpb.WellFormed.mount_numbers (hb : b.WellFormed) :
    (b.rootEntryCount * 32 + (b.bytesPerSector - 1)) / b.bytesPerSector % 2 ^ 16 = b.rootSectors ∧
    (b.reservedSectorCount + b.fatCount * b.fatSize) % 2 ^ 32 = b.rootBegin ∧
    (b.totalSectorCount + 2 ^ 33 - b.rootBegin - b.rootSectors) % 2 ^ 32 / b.sectorsPerCluster =
      b.clusterCount := by
  have hinside := hb.inside
  have htotal := hb.total
  have hroot := hb.rootEntries
  have hsectors : b.rootSectors < 2 ^ 16 := by
    unfold Bpb.rootSectors
    omega
  refine ⟨?_, Nat.mod_eq_of_lt (show b.rootBegin < 2 ^ 32 by omega), ?_⟩
  · rw [hb.sectorSize]
    exact Nat.mod_eq_of_lt hsectors
  · congr 1
    omega

theorem Bpb.WellFormed.fsType_known (hb : b.WellFormed) :
    ¬ (b.fsType ≠ fat12FsType ∧ b.fsType ≠ fat16FsType ∧ b.fsType32 ≠ fat32FsType) := by
  have hnamed := hb.typeNamed
  unfold Bpb.typeNamed at hnamed
  rintro ⟨h12, h16, h32⟩
  split at hnamed
  · exact h12 hnamed
  · exact h16 hnamed
  · exact h32 hnamed

/-- What `mount` leaves of a volume. -/
def mountData (b : Bpb) (memory : FatData) : FatData := { memory with
  reservedSectors := b.reservedSectorCount
  sectorSize := 512
  clusterSize := b.clusterSize
  sectorsPerCluster := b.sectorsPerCluster
  fatType := b.fatType
  dataAreaBegin := b.rootBegin
  rootCluster := if b.fatType = .fat32 then b.rootCluster else memory.rootCluster
  rootSectorCount := b.rootSectors
  databufLbaStart := -1 }

/-- **Mounting a well-formed volume** succeeds and gives the driver its geometry. -/
theorem mount_eq (hdev : dev.Holds disk) (hb : (bpbAt disk).WellFormed) :
    mount dev memory = .ok (mountData (bpbAt disk) memory) := by
  have hread : dev.read 0 1 = .ok (disk.slice 0 512) := hdev.read 0 1
  have hbpb : bpbOf (disk.slice 0 512) = bpbAt disk := rfl
  obtain ⟨hroot, hbegin, hcount⟩ := hb.mount_numbers
  rw [mount, hread, if_neg (not_not.mpr hdev.blockSize)]
  simp only [bind, Except.bind, pure, Except.pure, hbpb, if_neg (not_not.mpr hb.signature),
    if_neg hb.fsType_known, hroot, hbegin, hcount, hdev.read]
  rw [hb.sectorSize]
  unfold mountData Bpb.fatType Bpb.clusterSize
  split <;> rfl

/-- A mounted volume; what is in the buffer of the table is not known. -/
theorem onVolume_mountData :
    OnVolume disk b (mountData b memory).rootCluster (mountData b memory) := by
  constructor
  case databuf =>
    intro c _ _ heq
    have : (-1 : Int) = (b.sectorOf c : Int) := heq
    omega
  all_goals rfl

end Mount

/-! ## Steps along a chain -/

/-- The cluster after a cluster, as far as the driver goes. -/
def nextOf (disk : Bytes) (b : Bpb) (c : Nat) : Option Nat :=
  if c ≤ b.fatType.maxCluster ∧ entryOf disk b c ≤ b.fatType.maxCluster then some (entryOf disk b c)
  else none

/-- The cluster so many steps after a cluster. -/
def stepsOf (disk : Bytes) (b : Bpb) : Nat → Nat → Option Nat
  | 0, c => if c ≤ b.fatType.maxCluster then some c else none
  | count + 1, c => (nextOf disk b c).bind (stepsOf disk b count)

section Steps

variable {dev : BlockDevice} {disk : Bytes} {b : Bpb} {root : Nat} {d : FatData}

theorem OnVolume.setFatbuf (hv : OnVolume disk b root d) {lba : Nat} {l : List UInt8}
    (hl : l = disk.slice (512 * lba) 512) :
    Mounted disk b root { d with fatbuf := l, fatbufLba := lba } :=
  { hv with fatbuf := fun lba' heq => by rw [hl, Int.ofNat_inj.mp heq] }

/-- A sector of the table is read, or is in the buffer; the buffer is known from then on. -/
theorem readFat_eq (hdev : dev.Holds disk) (hv : OnVolume disk b root d) {sector : Nat}
    (hl : Loaded disk d (b.reservedSectorCount + sector)) :
    ∃ d', readFat dev d sector = .ok d' ∧ Mounted disk b root d' ∧
      d'.fatbuf = disk.slice (512 * (b.reservedSectorCount + sector)) 512 := by
  have hlba : d.reservedSectors + sector = b.reservedSectorCount + sector := by
    rw [hv.reservedSectors]
  rw [readFat, hlba]
  split
  next heq =>
    refine ⟨d, rfl, { hv with fatbuf := fun lba hlba => ?_ }, hl heq⟩
    rw [Int.ofNat_inj.mp (hlba.symm.trans heq)]
    exact hl heq
  next hne =>
    obtain ⟨l, hread⟩ : ∃ l, l = disk.slice (512 * (b.reservedSectorCount + sector)) 512 := ⟨_, rfl⟩
    rw [hdev.read_one, ← hread]
    exact ⟨_, rfl, hv.setFatbuf hread, rfl⟩

/-- An entry of a whole number of bytes. -/
theorem readEntry_eq (hdev : dev.Holds disk) (hv : OnVolume disk b root d) (width : Nat)
    (hwidth : 512 % width = 0) (hpos : 0 < width) (c : Nat)
    (hl : Loaded disk d (b.reservedSectorCount + c / (512 / width))) :
    ∃ d', readEntry width dev d c =
        .ok (d', disk.word width (512 * b.reservedSectorCount + width * c)) ∧
      Mounted disk b root d' := by
  obtain ⟨per, hper⟩ : ∃ per, 512 = width * per := Nat.dvd_of_mod_eq_zero hwidth
  have hdiv : 512 / width = per := by rw [hper, Nat.mul_div_cancel_left _ hpos]
  have hper0 : 0 < per := by
    rcases Nat.eq_zero_or_pos per with rfl | h
    · omega
    · exact h
  have hmod : c % per < per := Nat.mod_lt _ hper0
  have hfits : width * (c % per) + width ≤ 512 := by
    rw [hper, ← Nat.mul_succ]
    exact Nat.mul_le_mul_left _ hmod
  rw [hdiv] at hl
  obtain ⟨d', hread, hm', hbuf⟩ := readFat_eq hdev hv hl
  refine ⟨d', ?_, hm'⟩
  rw [readEntry, hv.sectorSize, hdiv]
  simp only [hread, bind, Except.bind, pure, Except.pure, hbuf, field_slice hfits]
  congr 3
  have hsplit : width * c = 512 * (c / per) + width * (c % per) := by
    rw [hper, Nat.mul_assoc, ← Nat.mul_add, Nat.div_add_mod]
  omega

/-- The twelve bits of an odd entry. -/
theorem oddEntry_eq (hfirst : first < 256) :
    ((first &&& 0xF0) >>> 4) ||| (second <<< 4) = (first + 256 * second) / 16 := by
  have hhigh : (first &&& 0xF0) >>> 4 = first / 16 := by
    rw [Nat.shiftRight_and_distrib, show (0xF0 : Nat) >>> 4 = 2 ^ 4 - 1 from rfl,
      Nat.and_two_pow_sub_one_eq_mod, Nat.shiftRight_eq_div_pow]
    omega
  rw [hhigh, Nat.or_comm, ← Nat.shiftLeft_add_eq_or_of_lt (by omega), Nat.shiftLeft_eq]
  omega

/-- The twelve bits of an even entry. -/
theorem evenEntry_eq (hfirst : first < 256) :
    first ||| ((second &&& 0x0F) <<< 8) = (first + 256 * second) % 4096 := by
  rw [show (0x0F : Nat) = 2 ^ 4 - 1 from rfl, Nat.and_two_pow_sub_one_eq_mod, Nat.or_comm,
    ← Nat.shiftLeft_add_eq_or_of_lt hfirst, Nat.shiftLeft_eq]
  omega

/-- The second byte of an entry of twelve bits. -/
theorem readNextByte_eq (hdev : dev.Holds disk) (hm : Mounted disk b root d) {position : Nat}
    (hbuf : d.fatbuf = disk.slice (512 * (b.reservedSectorCount + position / 512)) 512) :
    ∃ d', readNextByte dev d (position / 512) (position % 512) =
        .ok (d', disk.word 1 (512 * b.reservedSectorCount + position + 1)) ∧
      Mounted disk b root d' := by
  rw [readNextByte, hm.sectorSize]
  split
  next hlast =>
    obtain ⟨d', hread, hm', hbuf'⟩ := readFat_eq hdev hm.toOnVolume
      (hm.fatbuf (b.reservedSectorCount + (position / 512 + 1)))
    refine ⟨d', ?_, hm'⟩
    simp only [hread, bind, Except.bind, pure, Except.pure, hbuf']
    rw [field_slice (by decide)]
    congr 3
    omega
  next hlast =>
    refine ⟨d, ?_, hm⟩
    rw [hbuf, field_slice (by omega)]
    congr 3
    omega

/-- The entry of a cluster in a table of twelve bits an entry. -/
theorem readEntry12_eq (hdev : dev.Holds disk) (hv : OnVolume disk b root d)
    (hc : c ≤ FatType.maxCluster .fat12) (htype : b.fatType = .fat12)
    (hl : Loaded disk d (b.reservedSectorCount + c * 3 / 2 / 512)) :
    ∃ d', readEntry12 dev d c = .ok (d', entryOf disk b c) ∧ Mounted disk b root d' := by
  have hc' : c ≤ 0xFF4 := hc
  have hposition : (c + c / 2) % 2 ^ 16 = c * 3 / 2 := by
    rw [Nat.mod_eq_of_lt (by omega)]
    omega
  obtain ⟨d1, hread1, hm1, hbuf1⟩ := readFat_eq hdev hv hl
  obtain ⟨d', hread', hm'⟩ := readNextByte_eq hdev hm1 hbuf1
  have hfirst : field d1.fatbuf 1 (c * 3 / 2 % 512) =
      disk.word 1 (512 * b.reservedSectorCount + c * 3 / 2) := by
    rw [hbuf1, field_slice (by omega)]
    congr 1
    omega
  refine ⟨d', ?_, hm'⟩
  rw [readEntry12, hposition, hv.sectorSize]
  simp only [hread1, hread', bind, Except.bind, pure, Except.pure, hfirst]
  rw [entryOf, htype, oddEntry_eq (Bytes.word_one_lt _ _), evenEntry_eq (Bytes.word_one_lt _ _)]
  simp only [Bytes.word_two]

/-- The reader of entries `get_next_cluster` uses. -/
def entryReader (dev : BlockDevice) : FatType → FatData → Nat → Except VlStatus (FatData × Nat)
  | .fat12 => readEntry12 dev
  | .fat16 => readEntry16 dev
  | .fat32 => readEntry32 dev

theorem getNextCluster_eq_with (d : FatData) (c count : Nat) : getNextCluster dev d c count =
    getNextClusterWith (entryReader dev d.fatType) d.fatType.maxCluster d c count := by
  rw [getNextCluster]
  split <;> simp only [entryReader, *] <;> rfl

section

variable (hdev : dev.Holds disk) (hv : OnVolume disk b root d)
include hdev hv

/-- The entry of a cluster, in all three encodings. -/
theorem entryReader_eq (hc : c ≤ b.fatType.maxCluster) (hl : Loaded disk d (b.fatSector c)) :
    ∃ d', entryReader dev b.fatType d c = .ok (d', entryOf disk b c) ∧ Mounted disk b root d' := by
  unfold Bpb.fatSector at hl
  cases htype : b.fatType with
  | fat12 =>
    rw [htype] at hc hl
    exact readEntry12_eq hdev hv hc htype hl
  | fat16 =>
    rw [htype] at hl
    obtain ⟨d', hread, hm'⟩ := readEntry_eq hdev hv 2 (by decide) (by decide) c hl
    refine ⟨d', ?_, hm'⟩
    rw [entryOf, htype]
    exact hread
  | fat32 =>
    rw [htype] at hl
    obtain ⟨d', hread, hm'⟩ := readEntry_eq hdev hv 4 (by decide) (by decide) c hl
    refine ⟨d', ?_, hm'⟩
    rw [entryOf, htype]
    show readEntry32 dev d c = _
    rw [readEntry32, hread, show (0x0FFFFFFF : Nat) = 2 ^ 28 - 1 from rfl]
    simp only [bind, Except.bind, pure, Except.pure, Nat.and_two_pow_sub_one_eq_mod]

/-- A call of `get_next_cluster`: the cluster so many steps on, or a failure. Without a look at the
table the state is as before. -/
structure Stepped (disk : Bytes) (b : Bpb) (root : Nat) (d : FatData) (c count : Nat)
    (res : VlStatus × FatData × Nat) : Prop where
  mounted : c ≤ b.fatType.maxCluster → 0 < count → Mounted disk b root res.2.1
  same    : ¬ (c ≤ b.fatType.maxCluster ∧ 0 < count) → res.2 = (d, c)
  result  : stepsOf disk b count c = some res.2.2 ∧ res.1 = .success ∨
    stepsOf disk b count c = none ∧ res.1.ok = false

theorem followClusters_eq (hc : c ≤ b.fatType.maxCluster) (count : Nat)
    (hl : 0 < count → Loaded disk d (b.fatSector c)) :
    Stepped disk b root d c count
      (followClusters (entryReader dev b.fatType) b.fatType.maxCluster count d c) := by
  induction count generalizing d c with
  | zero => exact ⟨fun _ h => absurd h (Nat.lt_irrefl 0), fun _ => rfl, .inl ⟨if_pos hc, rfl⟩⟩
  | succ count ih =>
    have hasked : ¬ ¬ (c ≤ b.fatType.maxCluster ∧ 0 < count + 1) := not_not.mpr ⟨hc, count.succ_pos⟩
    obtain ⟨d', hread, hm'⟩ := entryReader_eq hdev hv hc (hl count.succ_pos)
    rw [followClusters, hread]
    simp only
    split
    next hgt =>
      refine ⟨fun _ _ => hm', fun h => absurd h hasked, .inr ⟨?_, rfl⟩⟩
      rw [stepsOf, nextOf, if_neg (by omega)]
      rfl
    next hle =>
      have hnext := ih hm'.toOnVolume (c := entryOf disk b c) (by omega) fun _ => hm'.fatbuf _
      refine ⟨fun _ _ => ?_, fun h => absurd h hasked, ?_⟩
      · rcases Nat.eq_zero_or_pos count with rfl | hpos
        · exact hm'
        · exact hnext.mounted (by omega) hpos
      · rw [stepsOf, nextOf, if_pos ⟨hc, by omega⟩]
        exact hnext.result

/-- **`get_next_cluster` follows the table**, up to the highest cluster it knows. -/
theorem getNextCluster_eq (c count : Nat)
    (hl : c ≤ b.fatType.maxCluster → 0 < count → Loaded disk d (b.fatSector c)) :
    Stepped disk b root d c count (getNextCluster dev d c count) := by
  rw [getNextCluster_eq_with, hv.fatType, getNextClusterWith]
  split
  next hgt =>
    refine ⟨fun h => absurd h (by omega), fun _ => rfl, .inr ⟨?_, rfl⟩⟩
    cases count with
    | zero => exact if_neg (by omega)
    | succ count =>
      rw [stepsOf, nextOf, if_neg (by omega)]
      rfl
  next hle => exact followClusters_eq hdev hv (by omega) count (hl (by omega))

end

end Steps

end FoliOS.Vellum.Fat
