import FoliOS.Lib.Bytes

/-!
# mkfs.folifs — the formatter (`tools/mkfs.folifs/main.c`)

`make_fs` writes the first sector of the reserved area, the copies of the root descriptor block
(RDB), the root bitmap block (RBB), the bitmap of group 0 (GBB), the root metadata block (MDB)
and an empty hash block (DHB). The host is little-endian, and its reads, writes and seeks succeed.

The result keeps, beside the image, where each block was written and whether a store of a bitmap
loop fell outside of the block buffer.
-/

namespace FoliOS.Folifs

open Lib

/-! ## The image file -/

/-- A file; there is nothing after its end. -/
structure Image where
  len    : Nat
  bytes  : Bytes
  beyond : ∀ a, len ≤ a → bytes a = 0

/-- `fseek` and `fwrite`: the file grows when it has to. -/
def Image.write (img : Image) (pos : Nat) (l : List UInt8) : Image where
  len := max img.len (pos + l.length)
  bytes := img.bytes.put pos l
  beyond a ha := by
    rw [Bytes.put_of_notMem (by omega)]
    exact img.beyond a (by omega)

@[simp] theorem Image.write_bytes (img : Image) (pos : Nat) (l : List UInt8) :
    (img.write pos l).bytes = img.bytes.put pos l := rfl

/-! ## Checksums (`crc32.c`, the variant without a table) -/

def crcStep (crc : UInt32) : UInt32 := (crc >>> 1) ^^^ (0xEDB88320 &&& (0 - (crc &&& 1)))

def crcByte (crc : UInt32) (byte : UInt8) : UInt32 :=
  (List.range 8).foldl (fun crc _ => crcStep crc) (crc ^^^ byte.toUInt32)

def crc32 (message : List UInt8) : UInt32 := ~~~ message.foldl crcByte 0xFFFFFFFF

/-! ## Parameters and geometry -/

/-- The arguments of `make_fs`; strings without their final NUL. The times are what `time` returns
in its three calls. -/
structure Params where
  bootCode        : Option (List UInt8) := none
  osName          : List UInt8 := []
  label           : Option (List UInt8) := none
  offset          : UInt64 := 0
  rdbCount        : UInt8
  sectorsPerBlock : UInt8
  reservedSectors : UInt16
  uuid            : Vector UInt8 16 := Vector.replicate 16 0
  createTime      : UInt64 := 0
  writeTime       : UInt64 := 0
  readTime        : UInt64 := 0

def bytesPerSector : Nat := 512

section Geometry

variable (p : Params) (fileLen : Nat)

def totalSectorCount : Nat := fileLen / bytesPerSector

/-- The difference is taken in a `uint64_t`. -/
def totalBlockCount : Nat :=
  (totalSectorCount fileLen + 2 ^ 64 - p.reservedSectors.toNat) % 2 ^ 64 / p.sectorsPerBlock.toNat

def bytesPerBlock : Nat := bytesPerSector * p.sectorsPerBlock.toNat

/-- The bits of a bitmap block without its checksum. -/
def blocksPerBlockGroup : Nat := bytesPerBlock p * 8 - 32

def totalBlockGroupCount : Nat := totalBlockCount p fileLen / blocksPerBlockGroup p

def rbbCount : Nat :=
  (totalBlockGroupCount p fileLen + blocksPerBlockGroup p - 1) / blocksPerBlockGroup p

/-- The position `make_fs` seeks to for a block. -/
def blockPos (block : Nat) : Nat :=
  (bytesPerSector * p.reservedSectors.toNat + bytesPerBlock p * block) % 2 ^ 64

end Geometry

/-! ## Block buffers -/

/-- The block buffer; `overrun` once a store fell outside of it. -/
structure Buffer where
  bytes   : Bytes := fun _ => 0
  overrun : Bool := false

/-- A store of one byte. -/
def Buffer.store (buf : Buffer) (size i : Nat) (v : UInt8) : Buffer :=
  if i < size then { buf with bytes := buf.bytes.put i [v] } else { buf with overrun := true }

/-- The byte of a bitmap whose bits from `i` to the limit are set, as the loops compute it. -/
def bitmapByte (limit i : Nat) : UInt8 :=
  let left := limit - i
  UInt8.ofNat ((if left < 8 then (1 <<< left) - 1 else 0xFF) &&& (0xFF <<< (i % 8)))

/-- The bitmap loops, `for (i = start; i < limit; i = (i & ~0x07) + 8)`. -/
def fillBitmap (size limit : Nat) : Nat → Nat → Buffer → Buffer
  | 0, _, buf => buf
  | fuel + 1, i, buf =>
    if i < limit then
      fillBitmap size limit fuel (i / 8 * 8 + 8) (buf.store size (i / 8) (bitmapByte limit i))
    else buf

/-- A cleared buffer after a bitmap loop. -/
def bitmapBuffer (size start limit : Nat) : Buffer :=
  fillBitmap size limit (limit / 8 + 1) start {}

/-- A buffer with a structure at its start. -/
def structBuffer (l : List UInt8) : Buffer := { bytes := Bytes.put (fun _ => 0) 0 l }

/-- The block of a buffer, its checksum in the last four bytes. -/
def sealBlock (size : Nat) (buf : Buffer) : List UInt8 :=
  buf.bytes.slice 0 (size - 4) ++ le 4 (crc32 (buf.bytes.slice 0 (size - 4))).toNat

/-! ## Structures (`folifs.h`) -/

/-- `strncpy` into a cleared field. -/
def strncpy (width : Nat) (l : List UInt8) : List UInt8 :=
  l.take width ++ List.replicate (width - l.length) 0

/-- `struct folifs_rdb` -/
def rdb (p : Params) (fileLen : Nat) : List UInt8 :=
  le 8 (totalSectorCount fileLen) ++
  (le 8 (totalBlockCount p fileLen) ++
  (le 1 p.sectorsPerBlock.toNat ++
  (le 1 p.rdbCount.toNat ++
  (le 2 bytesPerSector ++
  (le 4 0 ++
  (le 8 (p.rdbCount.toNat + rbbCount p fileLen + 1) ++
  (le 8 0 ++
  (le 8 0 ++
  (le 8 1 ++
  (le 8 (p.rdbCount.toNat + rbbCount p fileLen) ++
  (p.uuid.toList ++
  (strncpy 16 p.osName ++
  le 2 0x0001))))))))))))

def mdbEntryFae : Nat := 1
def mdbEntryTae : Nat := 2

/-- `struct folifs_mdb_attribute_entry_header` -/
def entryHeader (length type : Nat) : List UInt8 := le 4 length ++ le 1 type ++ le 3 0

/-- `struct folifs_mdb_fae` -/
def fae (label : List UInt8) : List UInt8 :=
  let labelLen := min label.length 255
  entryHeader 272 mdbEntryFae ++ le 4 (crc32 (label.take labelLen)).toNat ++ le 4 0 ++
    le 1 labelLen ++ strncpy 255 label

/-- `struct folifs_mdb_tae` -/
def tae (p : Params) : List UInt8 :=
  entryHeader 32 mdbEntryTae ++ le 8 p.createTime.toNat ++ le 8 p.writeTime.toNat ++
    le 8 p.readTime.toNat

/-- `struct folifs_mdb` of the root directory, with its entries. -/
def rootMdb (p : Params) (fileLen : Nat) : List UInt8 :=
  le 8 0 ++
  (le 8 0 ++
  (le 4 1 ++
  (le 4 ((if p.label.isSome then 1 <<< (mdbEntryFae - 1) else 0) ||| 1 <<< (mdbEntryTae - 1)) ++
  (le 8 0 ++
  (le 8 (p.rdbCount.toNat + rbbCount p fileLen + 2) ++
  (le 8 0 ++
  (p.label.elim [] fae ++ tae p)))))))

/-! ## `make_fs` -/

inductive MakeFsError where
  /-- "file size is not a multiple of sector size" -/
  | fileSizeNotMultiple
  /-- "file size is too small for this configuration" -/
  | fileSizeTooSmall
  /-- "boot code is larger than reserved sectors area" -/
  | bootCodeTooLarge
  deriving DecidableEq, Repr

/-- What is written to a block. -/
inductive Written where
  | rdb (copy : Nat)
  | rbb
  | gbb
  | mdb
  | dhb
  deriving DecidableEq, Repr

/-- The blocks in the order they are written. -/
def blocks (p : Params) (fileLen : Nat) : List (Written × Nat × Buffer) :=
  let rdbCount := p.rdbCount.toNat
  let rbbCount := rbbCount p fileLen
  let size := bytesPerBlock p
  (List.range rdbCount).map (fun i => (.rdb i, i, structBuffer (rdb p fileLen))) ++
    [(.rbb, rdbCount, bitmapBuffer size 1 (totalBlockGroupCount p fileLen)),
      (.gbb, rdbCount + rbbCount,
        bitmapBuffer size (rdbCount + 2 + rbbCount) (blocksPerBlockGroup p)),
      (.mdb, rdbCount + 1 + rbbCount, structBuffer (rootMdb p fileLen)),
      (.dhb, rdbCount + 2 + rbbCount, {})]

/-- What `make_fs` leaves. -/
structure Result where
  image   : Image
  places  : List (Written × Nat)
  overrun : Bool

def Result.writeBlock (p : Params) (r : Result) (b : Written × Nat × Buffer) : Result where
  image := r.image.write (blockPos p b.2.1) (sealBlock (bytesPerBlock p) b.2.2)
  places := r.places ++ [(b.1, blockPos p b.2.1)]
  overrun := r.overrun || b.2.2.overrun

/-- The boot code at the start of the reserved area. -/
def writeBootCode (p : Params) (img : Image) : Except MakeFsError Image :=
  match p.bootCode with
  | none => .ok img
  | some code =>
    if code.length > p.reservedSectors.toNat * bytesPerSector then .error .bootCodeTooLarge
    else .ok (img.write 0 code)

/-- `struct folifs_first_sector` -/
def firstSector (signature : List UInt8) (p : Params) (bootcode : List UInt8) : List UInt8 :=
  bootcode ++ (le 8 p.offset.toNat ++ (signature ++ (le 2 p.reservedSectors.toNat ++ le 2 0xAA55)))

/-- The first sector is read, changed after the boot code and written back. -/
def writeFirstSector (signature : List UInt8) (p : Params) (img : Image) : Image :=
  img.write 0 (firstSector signature p (img.bytes.slice 0 496))

/-- The signature `make_fs` writes: 'A', 'F', 'S', NUL. -/
def fsSignature : List UInt8 := [0x41, 0x46, 0x53, 0x00]

/-- `make_fs`, but for the signature. -/
def makeFsWith (signature : List UInt8) (p : Params) (img : Image) : Except MakeFsError Result :=
  if img.len % bytesPerSector ≠ 0 then .error .fileSizeNotMultiple
  else if totalBlockCount p img.len = 0 ∨ bytesPerBlock p = 0 ∨ blocksPerBlockGroup p = 0 ∨
      totalBlockGroupCount p img.len = 0 ∨ rbbCount p img.len = 0 then
    .error .fileSizeTooSmall
  else do
    let booted ← writeBootCode p img
    return (blocks p img.len).foldl (Result.writeBlock p)
      { image := writeFirstSector signature p booted, places := [], overrun := false }

/-- `make_fs` -/
def makeFs : Params → Image → Except MakeFsError Result := makeFsWith fsSignature

/-! ## The bitmap loops

A loop sets the bits from its start to its limit a byte at a time. The byte it starts in is masked
twice: below the start, and above the number of bits that are left. The second mask is not moved to
the start, so with fewer than eight bits left the first byte misses some of them.

* `bit_bitmapBuffer` — the bits a loop sets.
* `overrun_bitmapBuffer` — when it stores outside of the buffer.
-/

variable {limit i j fuel size start : Nat} {buf : Buffer}

/-- Bit `j` is set by the loop from `start` to `limit`. -/
def SetBit (limit start j : Nat) : Prop :=
  start ≤ j ∧ j < limit ∧ (j / 8 = start / 8 → limit - start < 8 → j % 8 < limit - start)

instance (limit start j : Nat) : Decidable (SetBit limit start j) :=
  inferInstanceAs (Decidable (_ ∧ _))

theorem testBit_bitmapByte {k : Nat} (hk : k < 8) :
    (bitmapByte limit i).toNat.testBit k =
      decide (i % 8 ≤ k ∧ (limit - i < 8 → k < limit - i)) := by
  have hones : ((0xFF : Nat) <<< (i % 8)).testBit k = decide (i % 8 ≤ k) := by
    rw [Nat.testBit_shiftLeft, show (0xFF : Nat) = 2 ^ 8 - 1 from rfl, Nat.testBit_two_pow_sub_one]
    by_cases hle : i % 8 ≤ k
    · have hlt : k - i % 8 < 8 := by omega
      simp [hle, hlt]
    · simp [hle]
  have hleft : (if limit - i < 8 then (1 <<< (limit - i)) - 1 else 0xFF : Nat).testBit k =
      decide (limit - i < 8 → k < limit - i) := by
    split
    next h8 => simp [Nat.one_shiftLeft, h8]
    next h8 =>
      rw [show (0xFF : Nat) = 2 ^ 8 - 1 from rfl, Nat.testBit_two_pow_sub_one]
      simp [h8, hk]
  rw [bitmapByte, UInt8.toNat_ofNat', Nat.testBit_mod_two_pow, Nat.testBit_and, hleft, hones]
  simp [hk, Bool.and_comm]

section Fill

variable {size limit : Nat}

theorem store_bytes (buf : Buffer) (i : Nat) (v : UInt8) (a : Nat) :
    (buf.store size i v).bytes a = if a = i ∧ i < size then v else buf.bytes a := by
  rw [Buffer.store]
  split
  next hi =>
    by_cases ha : a = i
    · subst ha
      simp [Bytes.put, hi]
    · rw [if_neg fun h => ha h.1]
      exact Bytes.put_of_notMem (by simp only [List.length_singleton]; omega)
  next hi => rw [if_neg fun h => hi h.2]

/-- Nothing is set once the loop is over. -/
theorem bit_of_clear (hi : limit ≤ i) (hclear : i / 8 ≤ j / 8 → buf.bytes (j / 8) = 0) :
    buf.bytes.bit 0 j =
      if j / 8 < i / 8 then buf.bytes.bit 0 j else decide (SetBit limit i j) := by
  split
  next => rfl
  next hlt =>
    have hno : ¬ SetBit limit i j := by
      rintro ⟨hij, hjl, -⟩
      omega
    rw [Bytes.bit, Nat.zero_add, hclear (by omega), decide_eq_false hno]
    exact Nat.zero_testBit _

/-- The loop from `i` on leaves the bytes before and sets its bits in cleared ones. -/
theorem bit_fillBitmap (hj : j / 8 < size) (hfuel : limit ≤ 8 * (i / 8 + fuel))
    (hclear : i / 8 ≤ j / 8 → buf.bytes (j / 8) = 0) :
    (fillBitmap size limit fuel i buf).bytes.bit 0 j =
      if j / 8 < i / 8 then buf.bytes.bit 0 j else decide (SetBit limit i j) := by
  induction fuel generalizing i buf with
  | zero => exact bit_of_clear (by omega) hclear
  | succ fuel ih =>
    rw [fillBitmap]
    split
    next hlt =>
      have hnext : (i / 8 * 8 + 8) / 8 = i / 8 + 1 := by omega
      rw [ih (by omega) ?_, hnext]
      · rcases Nat.lt_trichotomy (j / 8) (i / 8) with hcmp | hcmp | hcmp
        · rw [if_pos (by omega), if_pos hcmp, Bytes.bit, Nat.zero_add, store_bytes,
            if_neg (by omega), Bytes.bit, Nat.zero_add]
        · -- the byte the loop is in
          rw [if_pos (by omega), if_neg (by omega), Bytes.bit, Nat.zero_add, store_bytes,
            if_pos ⟨hcmp, by omega⟩, testBit_bitmapByte (Nat.mod_lt _ (by decide))]
          refine decide_eq_decide.mpr ?_
          unfold SetBit
          omega
        · -- a later byte, which the loop starts at its lowest bit
          rw [if_neg (by omega), if_neg (by omega)]
          refine decide_eq_decide.mpr ?_
          unfold SetBit
          omega
      · intro hle
        rw [store_bytes, if_neg (by omega)]
        exact hclear (by omega)
    next hge => exact bit_of_clear (by omega) hclear

theorem overrun_fillBitmap (hfuel : limit ≤ 8 * (i / 8 + fuel)) :
    (fillBitmap size limit fuel i buf).overrun =
      (buf.overrun || decide (i < limit ∧ size ≤ (limit - 1) / 8)) := by
  induction fuel generalizing i buf with
  | zero =>
    have hno : ¬ (i < limit ∧ size ≤ (limit - 1) / 8) := by omega
    rw [decide_eq_false hno, Bool.or_false]
    rfl
  | succ fuel ih =>
    rw [fillBitmap]
    split
    next hlt =>
      have hstore : (buf.store size (i / 8) (bitmapByte limit i)).overrun =
          (buf.overrun || decide (size ≤ i / 8)) := by
        rw [Buffer.store]
        split
        next hi => rw [decide_eq_false (by omega), Bool.or_false]
        next hi => rw [decide_eq_true (by omega), Bool.or_true]
      rw [ih (by omega), hstore, Bool.or_assoc, ← Bool.decide_or]
      congr 1
      refine decide_eq_decide.mpr ?_
      omega
    next hge =>
      have hno : ¬ (i < limit ∧ size ≤ (limit - 1) / 8) := by omega
      rw [decide_eq_false hno, Bool.or_false]

end Fill

/-- **The bits a loop sets.** -/
theorem bit_bitmapBuffer (hj : j / 8 < size) :
    (bitmapBuffer size start limit).bytes.bit 0 j = decide (SetBit limit start j) := by
  rw [bitmapBuffer, bit_fillBitmap hj (by omega) fun _ => rfl]
  split
  next hlt =>
    have hno : ¬ SetBit limit start j := by
      rintro ⟨hsj, -⟩
      omega
    rw [decide_eq_false hno]
    exact Nat.zero_testBit _
  next => rfl

/-- **The stores of a loop are inside of the buffer** if its last bit is. -/
theorem overrun_bitmapBuffer :
    (bitmapBuffer size start limit).overrun =
      decide (start < limit ∧ size ≤ (limit - 1) / 8) := by
  rw [bitmapBuffer, overrun_fillBitmap (by omega)]
  rfl

/-- The loop from 1 sets the bits below the limit but for a short first byte. -/
theorem setBit_one_iff (hlimit : limit ≤ 1 ∨ 9 ≤ limit) : SetBit limit 1 j ↔ 1 ≤ j ∧ j < limit := by
  unfold SetBit
  omega

/-- In a short first byte the last bit is missing. -/
theorem not_setBit_one (h2 : 2 ≤ limit) (h8 : limit ≤ 8) : ¬ SetBit limit 1 (limit - 1) := by
  unfold SetBit
  omega

end FoliOS.Folifs
