import FoliOS.Vellum.Basic

/-!
# Vellum — FAT volumes and files (`vellum/filesystem/fat`)

`mount` reads the geometry of a volume. A FAT sector and a cluster are kept in a buffer each,
under the address they were read from. A file has a cursor and the cluster the cursor is in.
`size_t` has 32 bits. What a failed read leaves in a buffer is not modelled, nor are allocations
that fail.
-/

namespace FoliOS.Vellum.Fat

open Lib

/-! ## Volumes -/

inductive FatType where
  | fat12
  | fat16
  | fat32
  deriving DecidableEq, Repr

/-- `FAT12_MAX_CLUSTER`, `FAT16_MAX_CLUSTER`, `FAT32_MAX_CLUSTER` -/
def FatType.maxCluster : FatType → Nat
  | .fat12 => 0xFF4
  | .fat16 => 0xFFF4
  | .fat32 => 0x0FFFFFF6

/-- The fields of `struct fat_bpb_sector` that are read. -/
structure Bpb where
  bytesPerSector      : Nat
  sectorsPerCluster   : Nat
  reservedSectorCount : Nat
  fatCount            : Nat
  rootEntryCount      : Nat
  totalSectorCount16  : Nat
  fatSize16           : Nat
  totalSectorCount32  : Nat
  fatSize32           : Nat
  rootCluster         : Nat
  fsinfoSector        : Nat
  fsType              : List UInt8
  fsType32            : List UInt8
  signature           : Nat
  deriving DecidableEq

def bpbOf (l : List UInt8) : Bpb where
  bytesPerSector := field l 2 11
  sectorsPerCluster := field l 1 13
  reservedSectorCount := field l 2 14
  fatCount := field l 1 16
  rootEntryCount := field l 2 17
  totalSectorCount16 := field l 2 19
  fatSize16 := field l 2 22
  totalSectorCount32 := field l 4 32
  fatSize32 := field l 4 36
  rootCluster := field l 4 44
  fsinfoSector := field l 2 48
  fsType := (l.drop 54).take 8
  fsType32 := (l.drop 82).take 8
  signature := field l 2 510

/-- `FAT_BPB_SIGNATURE` -/
def bpbSignature : Nat := 0xAA55

/-- `FAT12_FSTYPE_STR` -/
def fat12FsType : List UInt8 := [0x46, 0x41, 0x54, 0x31, 0x32, 0x20, 0x20, 0x20]

/-- `FAT16_FSTYPE_STR` -/
def fat16FsType : List UInt8 := [0x46, 0x41, 0x54, 0x31, 0x36, 0x20, 0x20, 0x20]

/-- `FAT32_FSTYPE_STR` -/
def fat32FsType : List UInt8 := [0x46, 0x41, 0x54, 0x33, 0x32, 0x20, 0x20, 0x20]

/-- `struct fat_data`; `lba_t` is signed. -/
structure FatData where
  reservedSectors   : Nat
  sectorSize        : Nat
  clusterSize       : Nat
  sectorsPerCluster : Nat
  fatType           : FatType
  dataAreaBegin     : Nat
  rootCluster       : Nat
  rootSectorCount   : Nat
  fatbufLba         : Int
  fatbuf            : List UInt8
  databufLbaStart   : Int
  databuf           : List UInt8

def Bpb.fatSize (b : Bpb) : Nat := if b.fatSize16 ≠ 0 then b.fatSize16 else b.fatSize32

def Bpb.totalSectorCount (b : Bpb) : Nat :=
  if b.totalSectorCount16 ≠ 0 then b.totalSectorCount16 else b.totalSectorCount32

/-- The type by the number of clusters. -/
def fatTypeOf (clusterCount : Nat) : FatType :=
  if clusterCount ≤ FatType.maxCluster .fat12 then .fat12
  else if clusterCount ≤ FatType.maxCluster .fat16 then .fat16
  else .fat32

/-- `mount`; `memory` is what the allocated structure held before. The fields `fatbuf_lba` and, but
for FAT32, `root_cluster` are not initialised. -/
def mount (dev : BlockDevice) (memory : FatData) : Except VlStatus FatData := do
  if dev.blockSize ≠ 512 then throw .sizeCheckFailure
  let l ← dev.read 0 1
  let bpb := bpbOf l
  if bpb.signature ≠ bpbSignature then throw .invalidSignature
  if bpb.fsType ≠ fat12FsType ∧ bpb.fsType ≠ fat16FsType ∧ bpb.fsType32 ≠ fat32FsType then
    throw .invalidSignature
  let rootSectorCount :=
    (bpb.rootEntryCount * 32 + (bpb.bytesPerSector - 1)) / bpb.bytesPerSector % 2 ^ 16
  let dataAreaBegin := (bpb.reservedSectorCount + bpb.fatCount * bpb.fatSize) % 2 ^ 32
  let dataSectors :=
    (bpb.totalSectorCount + 2 ^ 33 - dataAreaBegin - rootSectorCount) % 2 ^ 32
  let fatType := fatTypeOf (dataSectors / bpb.sectorsPerCluster)
  let data : FatData := { memory with
    reservedSectors := bpb.reservedSectorCount
    sectorSize := bpb.bytesPerSector
    clusterSize := bpb.bytesPerSector * bpb.sectorsPerCluster
    sectorsPerCluster := bpb.sectorsPerCluster
    fatType, dataAreaBegin, rootSectorCount
    databufLbaStart := -1 }
  if fatType = .fat32 then
    let _fsinfo ← dev.read bpb.fsinfoSector 1
    return { data with rootCluster := bpb.rootCluster }
  else
    return data

/-! ## The file allocation table -/

/-- `read_fat` -/
def readFat (dev : BlockDevice) (d : FatData) (fatSector : Nat) : Except VlStatus FatData :=
  let lba := d.reservedSectors + fatSector
  if d.fatbufLba = lba then .ok d
  else do
    let l ← dev.read lba 1
    return { d with fatbuf := l, fatbufLba := lba }

/-- The byte after a byte of the table, which may be in the next sector. -/
def readNextByte (dev : BlockDevice) (d : FatData) (sectorIdx byteIdx : Nat) :
    Except VlStatus (FatData × Nat) :=
  if byteIdx = d.sectorSize - 1 then do
    let d ← readFat dev d (sectorIdx + 1)
    return (d, field d.fatbuf 1 0)
  else .ok (d, field d.fatbuf 1 (byteIdx + 1))

/-- The entry of a cluster, as the loop of `get_next_cluster12` reads it. -/
def readEntry12 (dev : BlockDevice) (d : FatData) (cluster : Nat) :
    Except VlStatus (FatData × Nat) := do
  let position := (cluster + cluster / 2) % 2 ^ 16
  let sectorIdx := position / d.sectorSize
  let byteIdx := position % d.sectorSize
  let d ← readFat dev d sectorIdx
  let first := field d.fatbuf 1 byteIdx
  let (d, second) ← readNextByte dev d sectorIdx byteIdx
  return (d,
    if cluster % 2 = 1 then ((first &&& 0xF0) >>> 4) ||| (second <<< 4)
    else first ||| ((second &&& 0x0F) <<< 8))

/-- The entry of a cluster in a table with `width` bytes an entry. -/
def readEntry (width : Nat) (dev : BlockDevice) (d : FatData) (cluster : Nat) :
    Except VlStatus (FatData × Nat) := do
  let perSector := d.sectorSize / width
  let d ← readFat dev d (cluster / perSector)
  return (d, field d.fatbuf width (width * (cluster % perSector)))

def readEntry16 : BlockDevice → FatData → Nat → Except VlStatus (FatData × Nat) := readEntry 2

def readEntry32 (dev : BlockDevice) (d : FatData) (cluster : Nat) :
    Except VlStatus (FatData × Nat) := do
  let (d, entry) ← readEntry 4 dev d cluster
  return (d, entry &&& 0x0FFFFFFF)

/-- The loop of the `get_next_cluster` functions. -/
def followClusters (entry : FatData → Nat → Except VlStatus (FatData × Nat)) (max : Nat) :
    Nat → FatData → Nat → VlStatus × FatData × Nat
  | 0, d, cluster => (.success, d, cluster)
  | count + 1, d, cluster =>
    match entry d cluster with
    | .error st => (st, d, cluster)
    | .ok (d, cluster) =>
      if cluster > max then (.endOfList, d, cluster) else followClusters entry max count d cluster

def getNextClusterWith (entry : FatData → Nat → Except VlStatus (FatData × Nat)) (max : Nat)
    (d : FatData) (cluster count : Nat) : VlStatus × FatData × Nat :=
  if cluster > max then (.invalidValue, d, cluster) else followClusters entry max count d cluster

def getNextCluster12 (dev : BlockDevice) : FatData → Nat → Nat → VlStatus × FatData × Nat :=
  getNextClusterWith (readEntry12 dev) (FatType.maxCluster .fat12)

def getNextCluster16 (dev : BlockDevice) : FatData → Nat → Nat → VlStatus × FatData × Nat :=
  getNextClusterWith (readEntry16 dev) (FatType.maxCluster .fat16)

def getNextCluster32 (dev : BlockDevice) : FatData → Nat → Nat → VlStatus × FatData × Nat :=
  getNextClusterWith (readEntry32 dev) (FatType.maxCluster .fat32)

/-- `get_next_cluster`: the status, and the cluster `count` steps after `cluster`. -/
def getNextCluster (dev : BlockDevice) (d : FatData) (cluster count : Nat) :
    VlStatus × FatData × Nat :=
  match d.fatType with
  | .fat12 => getNextCluster12 dev d cluster count
  | .fat16 => getNextCluster16 dev d cluster count
  | .fat32 => getNextCluster32 dev d cluster count

/-! ## Clusters -/

/-- `fatcluster_to_sector`, in a `uint32_t`. -/
def fatclusterToSector (d : FatData) (cluster : Nat) : Nat :=
  match d.fatType with
  | .fat12 | .fat16 =>
    ((cluster + 2 ^ 32 - 2) * d.sectorsPerCluster + d.dataAreaBegin + d.rootSectorCount) % 2 ^ 32
  | .fat32 => ((cluster + 2 ^ 32 - 2) * d.sectorsPerCluster + d.dataAreaBegin) % 2 ^ 32

/-- `read_cluster` -/
def readCluster (dev : BlockDevice) (d : FatData) (cluster : Nat) : Except VlStatus FatData :=
  let lba := fatclusterToSector d cluster
  if d.databufLbaStart = lba then .ok d
  else do
    let l ← dev.read lba d.sectorsPerCluster
    return { d with databuf := l, databufLbaStart := lba }

/-- The loop of `read_contiguous_clusters`, for so many more clusters: the last cluster of the run,
its length, and the cluster after it if it is not the next one. -/
def contiguousLoop (dev : BlockDevice) : Nat → FatData → Nat → Nat →
    FatData × Nat × Nat × Option Nat
  | 0, d, current, count => (d, current, count, none)
  | more + 1, d, current, count =>
    match getNextCluster dev d current 1 with
    | (st, d, candidate) =>
      if ¬ st.ok then (d, current, count, none)
      else if candidate ≠ current + 1 then (d, current, count, some candidate)
      else contiguousLoop dev more d candidate (count + 1)

/-- `read_contiguous_clusters`: the bytes, the number of clusters and the next cluster. -/
def readContiguousClusters (dev : BlockDevice) (d : FatData) (start maxCount : Nat) :
    Except VlStatus (FatData × List UInt8 × Nat × Option Nat) :=
  let (d, current, count, next) := contiguousLoop dev (maxCount - 1) d start 1
  let (d, next) :=
    if count = maxCount then
      match getNextCluster dev d current 1 with
      | (st, d, candidate) => (d, if st.ok then some candidate else next)
    else (d, next)
  do
    let l ← dev.read (fatclusterToSector d start) (count * d.sectorsPerCluster)
    return ({ d with databufLbaStart := -1 }, l, count, next)

/-! ## Files -/

/-- `struct fat_file_data`; of the directory entry only the size is read later. -/
structure FileData where
  size           : Nat
  headCluster    : Nat
  currentCluster : Nat
  cursor         : Nat
  deriving DecidableEq, Repr

/-- `open`, once the entry is found. -/
def openEntry (clusterLocationHigh clusterLocation size : Nat) : FileData where
  size := size
  headCluster := (clusterLocationHigh <<< 16) ||| clusterLocation
  currentCluster := (clusterLocationHigh <<< 16) ||| clusterLocation
  cursor := 0

/-- The loop of `read`: the status, and the bytes after those read before. -/
def readLoop (dev : BlockDevice) : Nat → FatData → FileData → Nat → List UInt8 →
    Option (VlStatus × FatData × FileData × List UInt8)
  | 0, _, _, _, _ => none
  | fuel + 1, d, f, len, out =>
    if len = 0 then some (.success, d, f, out)
    else
      let clusterOffset := f.cursor % d.clusterSize
      let readLen := min (d.clusterSize - clusterOffset) len
      if clusterOffset = 0 ∧ len ≥ d.clusterSize * 2 then
        match readContiguousClusters dev d f.currentCluster (len / d.clusterSize) with
        | .error st => some (st, d, f, out)
        | .ok (d, bytes, count, next) =>
          let directReadLen := count * d.clusterSize
          let f := { f with cursor := (f.cursor + directReadLen) % 2 ^ 32 }
          match next with
          | none => some (.success, d, f, out ++ bytes)
          | some cluster =>
            readLoop dev fuel d { f with currentCluster := cluster } (len - directReadLen)
              (out ++ bytes)
      else
        match readCluster dev d f.currentCluster with
        | .error st => some (st, d, f, out)
        | .ok d =>
          let bytes := (d.databuf.drop clusterOffset).take readLen
          let f := { f with cursor := (f.cursor + readLen) % 2 ^ 32 }
          if clusterOffset + readLen < d.clusterSize then
            readLoop dev fuel d f (len - readLen) (out ++ bytes)
          else
            match getNextCluster dev d f.currentCluster 1 with
            | (st, d, cluster) =>
              let f := { f with currentCluster := cluster }
              if st.ok then readLoop dev fuel d f (len - readLen) (out ++ bytes)
              else some (.success, d, f, out ++ bytes)

/-- The length a read is cut to; the sum is a `uint32_t`. -/
def clampLen (f : FileData) (len : Nat) : Nat :=
  if (f.cursor + len) % 2 ^ 32 ≥ f.size then f.size - f.cursor else len

/-- `read` -/
def read (dev : BlockDevice) (d : FatData) (f : FileData) (len : UInt32) :
    Option (VlStatus × FatData × FileData × List UInt8) :=
  if f.cursor ≥ f.size then some (.endOfFile, d, f, [])
  else readLoop dev (clampLen f len.toNat + 1) d f (clampLen f len.toNat) []

inductive Origin where
  | set
  | cur
  | fromEnd
  | other
  deriving DecidableEq, Repr

/-- The position an origin stands for. -/
def Origin.base (f : FileData) : Origin → Option Nat
  | .set => some 0
  | .cur => some f.cursor
  | .fromEnd => some f.size
  | .other => none

/-- The end of `seek`: from the head of the chain to the cluster of the new position. -/
def seekTo (dev : BlockDevice) (d : FatData) (f : FileData) (newCursor : Nat) :
    VlStatus × FatData × FileData :=
  match getNextCluster dev d f.headCluster (newCursor / d.clusterSize) with
  | (st, d, cluster) =>
    if st.ok then (.success, d, { f with currentCluster := cluster, cursor := newCursor })
    else (st, d, f)

/-- `seek`; `none` if the sum of the position and the offset overflows. -/
def seek (dev : BlockDevice) (d : FatData) (f : FileData) (offset : Int64) (origin : Origin) :
    Option (VlStatus × FatData × FileData) :=
  match origin.base f with
  | none => some (.invalidValue, d, f)
  | some base =>
    let newCursor := base + offset.toInt
    if newCursor ≥ 2 ^ 63 then none
    else if newCursor < 0 then some (.invalidValue, d, f)
    else some (seekTo dev d f (min newCursor.toNat f.size))

/-- `tell` -/
def tell (f : FileData) : Nat := f.cursor

end FoliOS.Vellum.Fat
