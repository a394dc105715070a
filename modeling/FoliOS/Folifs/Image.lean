import FoliOS.Folifs.MakeFs
import FoliOS.Vellum.Folifs

/-!
# mkfs.folifs — the formatted image

What a successful `make_fs` leaves, against what the loader and the specification ask for.

* `makeFs_iff` — the exact conditions under which the parts of the format come out right.
-/

namespace FoliOS.Folifs

open Lib Vellum

variable {b : Written × Nat × Buffer} {copy pos : Nat}

/-! ## The format -/

/-- The image as a disk of 512-byte sectors. -/
def Image.device (img : Image) : BlockDevice where
  blockSize := 512
  read lba count :=
    if (lba + count) * 512 ≤ img.len then .ok (img.bytes.slice (lba * 512) (count * 512))
    else .error .invalidValue

/-- The loader accepts the image and reads the geometry it was made with. -/
structure Accepted (p : Params) (img : Image) : Prop where
  probe : Vellum.Folifs.probe img.device = .ok ()
  mount : ∃ data, Vellum.Folifs.mount img.device = .ok data ∧
    data.reservedSectors = p.reservedSectors.toNat ∧
    data.sectorsPerBlock = p.sectorsPerBlock.toNat ∧
    data.sectorSize = bytesPerSector ∧
    data.blockSize = bytesPerBlock p

/-- The pointers name the blocks where the structures were written. -/
structure PointersNamed (p : Params) (r : Result) : Prop where
  rbb : ∀ copy pos, (.rdb copy, pos) ∈ r.places →
    (.rbb, blockPos p (r.image.bytes.word 8 (pos + 48))) ∈ r.places
  gbb : ∀ copy pos, (.rdb copy, pos) ∈ r.places →
    (.gbb, blockPos p (r.image.bytes.word 8 (pos + 56))) ∈ r.places
  mdb : ∀ copy pos, (.rdb copy, pos) ∈ r.places →
    (.mdb, blockPos p (r.image.bytes.word 8 (pos + 24))) ∈ r.places
  dhb : ∀ pos, (.mdb, pos) ∈ r.places →
    (.dhb, blockPos p (r.image.bytes.word 8 (pos + 32))) ∈ r.places

/-- The metadata blocks are distinct and inside of the volume. -/
structure Placed (p : Params) (fileLen : Nat) (r : Result) : Prop where
  distinct : (r.places.map Prod.snd).Nodup
  inside   : ∀ w ∈ r.places, w.2 + bytesPerBlock p ≤ fileLen

/-- The bit of a group in the RBB, whose blocks stand one after the other from `pos`. -/
def rbbBit (p : Params) (img : Image) (pos group : Nat) : Bool :=
  img.bytes.bit (pos + bytesPerBlock p * (group / blocksPerBlockGroup p))
    (group % blocksPerBlockGroup p)

/-- The RBB has the bits of the groups after the first. -/
def RbbExact (p : Params) (fileLen : Nat) (r : Result) : Prop :=
  ∀ pos, (.rbb, pos) ∈ r.places → ∀ group < rbbCount p fileLen * blocksPerBlockGroup p,
    rbbBit p r.image pos group = true ↔ 1 ≤ group ∧ group < totalBlockGroupCount p fileLen

/-- A block that was written to, or one of the RBB's. -/
def HoldsMetadata (p : Params) (fileLen : Nat) (r : Result) (block : Nat) : Prop :=
  (∃ w, (w, blockPos p block) ∈ r.places) ∨
    ∃ pos, (.rbb, pos) ∈ r.places ∧
      ∃ k < rbbCount p fileLen, blockPos p block = pos + bytesPerBlock p * k

/-- The GBB has the bits of the blocks without metadata. -/
def GbbExact (p : Params) (fileLen : Nat) (r : Result) : Prop :=
  ∀ pos, (.gbb, pos) ∈ r.places → ∀ block < blocksPerBlockGroup p,
    r.image.bytes.bit pos block = true ↔ ¬ HoldsMetadata p fileLen r block

/-! ## The numbers -/

section Numbers

variable {p : Params} {fileLen block : Nat} (hspb : 1 ≤ p.sectorsPerBlock.toNat)
include hspb

/-- A bitmap block has room for the bits of a group. -/
theorem block_sizes : (512 ≤ bytesPerBlock p ∧ bytesPerBlock p ≤ 130560) ∧
    blocksPerBlockGroup p = 8 * (bytesPerBlock p - 4) := by
  have hlt := p.sectorsPerBlock.toNat_lt
  unfold blocksPerBlockGroup bytesPerBlock bytesPerSector
  omega

/-- The seeks do not wrap around. -/
theorem blockPos_eq (fileLen : Nat) (hblock : block ≤ p.rdbCount.toNat + 2 + rbbCount p fileLen) :
    blockPos p block = 512 * p.reservedSectors.toNat + bytesPerBlock p * block := by
  obtain ⟨hsize, hbpg⟩ := block_sizes hspb
  have hrdb := p.rdbCount.toNat_lt
  have hres := p.reservedSectors.toNat_lt
  have htotal : totalBlockCount p fileLen < 2 ^ 64 :=
    (Nat.div_le_self _ _).trans_lt (Nat.mod_lt _ (by decide))
  have hgroups :
      totalBlockGroupCount p fileLen * blocksPerBlockGroup p ≤ totalBlockCount p fileLen :=
    Nat.div_mul_le_self _ _
  have hrbb : rbbCount p fileLen * blocksPerBlockGroup p ≤
      totalBlockGroupCount p fileLen + blocksPerBlockGroup p - 1 := Nat.div_mul_le_self _ _
  have hmany : totalBlockGroupCount p fileLen * 4064 ≤
      totalBlockGroupCount p fileLen * blocksPerBlockGroup p :=
    Nat.mul_le_mul_left _ (by omega)
  have hbytes : bytesPerBlock p * rbbCount p fileLen ≤
      rbbCount p fileLen * blocksPerBlockGroup p := by
    rw [Nat.mul_comm]
    exact Nat.mul_le_mul_left _ (by omega)
  have hfixed : bytesPerBlock p * (p.rdbCount.toNat + 2) ≤ 130560 * 257 :=
    Nat.mul_le_mul hsize.2 (by omega)
  have hpos : bytesPerBlock p * block ≤
      bytesPerBlock p * (p.rdbCount.toNat + 2) + bytesPerBlock p * rbbCount p fileLen := by
    rw [← Nat.mul_add]
    exact Nat.mul_le_mul_left _ hblock
  unfold blockPos bytesPerSector
  exact Nat.mod_eq_of_lt (by omega)

theorem blockPos_inj (fileLen : Nat) {block' : Nat}
    (hblock : block ≤ p.rdbCount.toNat + 2 + rbbCount p fileLen)
    (hblock' : block' ≤ p.rdbCount.toNat + 2 + rbbCount p fileLen) :
    blockPos p block = blockPos p block' ↔ block = block' := by
  obtain ⟨hsize, -⟩ := block_sizes hspb
  rw [blockPos_eq hspb _ hblock, blockPos_eq hspb _ hblock', Nat.add_left_cancel_iff]
  exact Nat.mul_right_inj (by omega)

section

variable (hgroups : totalBlockGroupCount p fileLen ≤ 8 * bytesPerBlock p)
include hgroups

/-- With all groups in the buffer there are at most two blocks for their bits. -/
theorem rbbCount_le_of_groups : rbbCount p fileLen ≤ 2 := by
  obtain ⟨hsize, hbpg⟩ := block_sizes hspb
  refine Nat.le_of_lt_succ ((Nat.div_lt_iff_lt_mul (by omega)).mpr ?_)
  omega

/-- With all groups in the buffer nothing was subtracted below zero. -/
theorem reserved_le_of_groups : p.reservedSectors.toNat ≤ totalSectorCount fileLen := by
  obtain ⟨hsize, hbpg⟩ := block_sizes hspb
  have hres := p.reservedSectors.toNat_lt
  have hspb' := p.sectorsPerBlock.toNat_lt
  by_contra hlt
  have hwrap : 2 ^ 64 - 65535 ≤
      (totalSectorCount fileLen + 2 ^ 64 - p.reservedSectors.toNat) % 2 ^ 64 := by omega
  have htotal : (2 ^ 64 - 65535) / 255 ≤ totalBlockCount p fileLen :=
    Nat.div_le_div hwrap (by omega) (by omega)
  have hmany : (2 ^ 64 - 65535) / 255 / 1044448 ≤ totalBlockGroupCount p fileLen :=
    Nat.div_le_div htotal (by omega) (by omega)
  omega

end

end Numbers

/-! ## The writes -/

section Writes

variable {p : Params} {fileLen : Nat} {r : Result} {bl : List (Written × Nat × Buffer)}

theorem foldl_writeBlock_bytes : (bl.foldl (Result.writeBlock p) r).image.bytes =
    r.image.bytes.putAll
      (bl.map fun b => (blockPos p b.2.1, sealBlock (bytesPerBlock p) b.2.2)) := by
  induction bl generalizing r with
  | nil => rfl
  | cons b bl ih => exact ih

theorem foldl_writeBlock_places : (bl.foldl (Result.writeBlock p) r).places =
    r.places ++ bl.map fun b => (b.1, blockPos p b.2.1) := by
  induction bl generalizing r with
  | nil => exact (List.append_nil _).symm
  | cons b bl ih =>
    rw [List.foldl_cons, ih, List.map_cons]
    exact List.append_assoc _ _ _

theorem foldl_writeBlock_overrun : (bl.foldl (Result.writeBlock p) r).overrun =
    (r.overrun || bl.any fun b => b.2.2.overrun) := by
  induction bl generalizing r with
  | nil => exact (Bool.or_false _).symm
  | cons b bl ih =>
    rw [List.foldl_cons, ih, List.any_cons, ← Bool.or_assoc]
    rfl

theorem length_sealBlock {size : Nat} (hsize : 4 ≤ size) (buf : Buffer) :
    (sealBlock size buf).length = size := by
  rw [sealBlock, List.length_append, Bytes.length_slice, length_le]
  omega

theorem foldl_writeBlock_len (hsize : 4 ≤ bytesPerBlock p) :
    r.image.len ≤ (bl.foldl (Result.writeBlock p) r).image.len ∧
      ∀ b ∈ bl, blockPos p b.2.1 + bytesPerBlock p ≤
        (bl.foldl (Result.writeBlock p) r).image.len := by
  induction bl generalizing r with
  | nil => exact ⟨le_rfl, fun b hb => absurd hb List.not_mem_nil⟩
  | cons b bl ih =>
    obtain ⟨hlen, hbl⟩ := ih (r := r.writeBlock p b)
    have hb :
        (r.writeBlock p b).image.len = max r.image.len (blockPos p b.2.1 + bytesPerBlock p) := by
      rw [← length_sealBlock hsize b.2.2]
      rfl
    rw [hb] at hlen
    refine ⟨(le_max_left _ _).trans hlen, fun b' hb' => ?_⟩
    rcases List.mem_cons.mp hb' with rfl | hb'
    · exact (le_max_right _ _).trans hlen
    · exact hbl b' hb'

/-- The blocks are written from the first on. -/
theorem blocks_sorted (hrbb : 1 ≤ rbbCount p fileLen) :
    (blocks p fileLen).Pairwise fun b b' => b.2.1 < b'.2.1 := by
  refine List.pairwise_append.mpr ⟨?_, ?_, ?_⟩
  · exact List.pairwise_map.mpr List.pairwise_lt_range
  · simp only [List.pairwise_cons, List.mem_cons, List.not_mem_nil, or_false, forall_eq_or_imp,
      forall_eq, List.Pairwise.nil, and_true, IsEmpty.forall_iff, implies_true]
    omega
  · intro b hb b' hb'
    obtain ⟨i, hi, rfl⟩ := List.mem_map.mp hb
    have hi := List.mem_range.mp hi
    simp only [List.mem_cons, List.not_mem_nil, or_false] at hb'
    rcases hb' with rfl | rfl | rfl | rfl
    all_goals
      simp only
      omega

theorem block_le (hb : b ∈ blocks p fileLen) :
    b.2.1 ≤ p.rdbCount.toNat + 2 + rbbCount p fileLen := by
  rcases List.mem_append.mp hb with hb | hb
  · obtain ⟨i, hi, rfl⟩ := List.mem_map.mp hb
    have hi := List.mem_range.mp hi
    show i ≤ _
    omega
  · simp only [List.mem_cons, List.not_mem_nil, or_false] at hb
    rcases hb with rfl | rfl | rfl | rfl
    all_goals
      simp only
      omega

/-- The blocks stand one after the other. -/
theorem blockPos_of_mem (hspb : 1 ≤ p.sectorsPerBlock.toNat) (hb : b ∈ blocks p fileLen) :
    blockPos p b.2.1 = 512 * p.reservedSectors.toNat + bytesPerBlock p * b.2.1 :=
  blockPos_eq hspb _ (block_le hb)

end Writes

/-! ## A successful call -/

/-- What a successful call leaves. -/
structure Formatted (signature : List UInt8) (p : Params) (img : Image) (r : Result) : Prop where
  multiple : img.len % 512 = 0
  groups   : 1 ≤ totalBlockGroupCount p img.len
  rbbs     : 1 ≤ rbbCount p img.len
  places   : r.places = (blocks p img.len).map fun b => (b.1, blockPos p b.2.1)
  overrun  : r.overrun = (blocks p img.len).any fun b => b.2.2.overrun
  holds    : ∀ b ∈ blocks p img.len,
    r.image.bytes.Holds (blockPos p b.2.1) (sealBlock (bytesPerBlock p) b.2.2)
  inside   : ∀ b ∈ blocks p img.len, blockPos p b.2.1 + bytesPerBlock p ≤ r.image.len
  kept     : ∀ a, 512 * p.reservedSectors.toNat ≤ a →
    (∀ b ∈ blocks p img.len, ¬ (blockPos p b.2.1 ≤ a ∧ a < blockPos p b.2.1 + bytesPerBlock p)) →
      r.image.bytes a = img.bytes a
  first    : ∃ code : List UInt8, code.length = 496 ∧
    r.image.bytes.Holds 0 (firstSector signature p code)

section Call

variable {signature : List UInt8} {p : Params} {img booted : Image} {r : Result}

/-- The boot code stays in the reserved area. -/
theorem writeBootCode_kept (h : writeBootCode p img = .ok booted) {a : Nat}
    (ha : 512 * p.reservedSectors.toNat ≤ a) : booted.bytes a = img.bytes a := by
  rw [writeBootCode] at h
  split at h
  · rw [← Except.ok.inj h]
  · split at h
    · cases h
    · next hle =>
      rw [← Except.ok.inj h]
      refine Bytes.put_of_notMem ?_
      unfold bytesPerSector at hle
      omega

theorem formatted (hspb : 1 ≤ p.sectorsPerBlock.toNat) (hres : 1 ≤ p.reservedSectors.toNat)
    (hsig : signature.length = 4) (h : makeFsWith signature p img = .ok r) :
    Formatted signature p img r := by
  obtain ⟨hsize, -⟩ := block_sizes hspb
  rw [makeFsWith] at h
  split at h
  · cases h
  next hmultiple =>
  split at h
  · cases h
  next hsmall =>
  obtain ⟨booted, hboot, hr⟩ : ∃ booted, writeBootCode p img = .ok booted ∧
      (blocks p img.len).foldl (Result.writeBlock p)
        { image := writeFirstSector signature p booted, places := [], overrun := false } = r := by
    cases hboot : writeBootCode p img with
    | error e => rw [hboot] at h; cases h
    | ok booted => rw [hboot] at h; exact ⟨booted, rfl, Except.ok.inj h⟩
  have hrbb : 1 ≤ rbbCount p img.len := by omega
  have hlength : ∀ b : Written × Nat × Buffer,
      (sealBlock (bytesPerBlock p) b.2.2).length = bytesPerBlock p :=
    fun b => length_sealBlock (by omega) b.2.2
  obtain ⟨sector, hsector⟩ :
      ∃ sector, sector = firstSector signature p (booted.bytes.slice 0 496) :=
    ⟨_, rfl⟩
  have hfirst : sector.length = 512 := by simp [hsector, firstSector, hsig]
  subst hr
  constructor
  case multiple => exact not_not.mp hmultiple
  case groups => omega
  case rbbs => exact hrbb
  case places => exact foldl_writeBlock_places
  case overrun => rw [foldl_writeBlock_overrun, Bool.false_or]
  case holds =>
    intro b hb
    rw [foldl_writeBlock_bytes]
    refine Bytes.holds_putAll (w := (_, _)) ?_ (List.mem_map_of_mem hb)
    refine List.pairwise_map.mpr ((blocks_sorted hrbb).imp_of_mem fun {b b'} hb hb' hlt => ?_)
    have hmul := Nat.mul_le_mul_left (bytesPerBlock p) (Nat.succ_le_of_lt hlt)
    rw [Nat.mul_succ] at hmul
    left
    rw [hlength b, blockPos_of_mem hspb hb, blockPos_of_mem hspb hb']
    omega
  case inside => exact (foldl_writeBlock_len (by omega)).2
  case kept =>
    intro a ha hout
    rw [foldl_writeBlock_bytes, Bytes.putAll_of_notMem ?_]
    · have hlater : ¬ (0 ≤ a ∧ a < 0 + sector.length) := by omega
      rw [writeFirstSector, Image.write_bytes, ← hsector, Bytes.put_of_notMem hlater,
        writeBootCode_kept hboot ha]
    · intro w hw
      obtain ⟨b, hb, rfl⟩ := List.mem_map.mp hw
      rw [hlength b]
      exact hout b hb
  case first =>
    refine ⟨booted.bytes.slice 0 496, Bytes.length_slice _ _ _, ?_⟩
    rw [foldl_writeBlock_bytes, ← hsector]
    refine (Bytes.holds_put booted.bytes 0 sector).congr fun a _ ha => ?_
    rw [Bytes.putAll_of_notMem ?_, writeFirstSector, Image.write_bytes, ← hsector]
    intro w hw
    obtain ⟨b, hb, rfl⟩ := List.mem_map.mp hw
    rw [blockPos_of_mem hspb hb]
    omega

end Call

/-! ## What the blocks hold -/

section Contents

variable {m : Bytes} {off size i : Nat} {buf : Buffer} {l : List UInt8}

/-- A block has the bytes of its buffer up to the checksum. -/
theorem byte_of_sealBlock (h : m.Holds off (sealBlock size buf)) (hi : i < size - 4) :
    m (off + i) = buf.bytes i := by
  have hslice := (Bytes.holds_append.mp h).1
  rw [Bytes.holds_slice.mp hslice i hi, Nat.zero_add]

theorem bit_of_sealBlock (h : m.Holds off (sealBlock size buf)) (hi : i / 8 < size - 4) :
    m.bit off i = buf.bytes.bit 0 i := by
  refine Bytes.bit_congr ?_
  rw [byte_of_sealBlock h hi, Nat.zero_add]

theorem holds_of_structBuffer (h : m.Holds off (sealBlock size (structBuffer l)))
    (hl : l.length ≤ size - 4) : m.Holds off l := by
  have hbuf : Bytes.Holds (structBuffer l).bytes 0 l := Bytes.holds_put _ 0 l
  have hslice : m.Holds off ((structBuffer l).bytes.slice 0 l.length) :=
    Bytes.holds_slice.mpr fun i hi => by rw [byte_of_sealBlock h (by omega), Nat.zero_add]
  rwa [hbuf] at hslice

end Contents

section Parts

variable {signature : List UInt8} {p : Params} {img : Image} {r : Result}

theorem mem_blocks : b ∈ blocks p img.len ↔
    (∃ i < p.rdbCount.toNat, b = (.rdb i, i, structBuffer (rdb p img.len))) ∨
    b = (.rbb, p.rdbCount.toNat,
      bitmapBuffer (bytesPerBlock p) 1 (totalBlockGroupCount p img.len)) ∨
    b = (.gbb, p.rdbCount.toNat + rbbCount p img.len,
      bitmapBuffer (bytesPerBlock p) (p.rdbCount.toNat + 2 + rbbCount p img.len)
        (blocksPerBlockGroup p)) ∨
    b = (.mdb, p.rdbCount.toNat + 1 + rbbCount p img.len, structBuffer (rootMdb p img.len)) ∨
    b = (.dhb, p.rdbCount.toNat + 2 + rbbCount p img.len, {}) := by
  simp only [blocks, List.mem_append, List.mem_map, List.mem_range, List.mem_cons,
    List.not_mem_nil, or_false, eq_comm]

theorem length_strncpy (width : Nat) (l : List UInt8) : (strncpy width l).length = width := by
  rw [strncpy, List.length_append, List.length_take, List.length_replicate]
  omega

theorem length_rdb (fileLen : Nat) : (rdb p fileLen).length = 98 := by
  simp [rdb, length_strncpy]

theorem length_rootMdb_le (fileLen : Nat) : (rootMdb p fileLen).length ≤ 352 := by
  cases hl : p.label <;> simp [rootMdb, hl, fae, tae, entryHeader, length_strncpy]

section

variable (hf : Formatted signature p img r)
include hf

/-- The descriptor of the first copy. -/
theorem Formatted.holds_rdb (hspb : 1 ≤ p.sectorsPerBlock.toNat) (hcopy : copy < p.rdbCount.toNat) :
    r.image.bytes.Holds (blockPos p copy) (rdb p img.len) := by
  obtain ⟨hsize, -⟩ := block_sizes hspb
  have hholds := hf.holds _ (mem_blocks.mpr (.inl ⟨copy, hcopy, rfl⟩))
  exact holds_of_structBuffer hholds (by rw [length_rdb]; omega)

theorem Formatted.slice_signature (hsig : signature.length = 4) :
    r.image.bytes.slice 504 4 = signature := by
  obtain ⟨code, hcode, hfirst⟩ := hf.first
  have hholds := (Bytes.holds_append.mp (Bytes.holds_append.mp
    (Bytes.holds_append.mp hfirst).2).2).1
  rw [hcode, length_le] at hholds
  unfold Bytes.Holds at hholds
  rw [hsig] at hholds
  exact hholds

/-- The two numbers of the first sector. -/
theorem Formatted.words_first (hsig : signature.length = 4) :
    field (r.image.bytes.slice 0 512) 2 508 = p.reservedSectors.toNat ∧
      field (r.image.bytes.slice 0 512) 2 510 = Vellum.Folifs.vbrSignature := by
  rw [field_slice (by decide), field_slice (by decide)]
  obtain ⟨code, hcode, hfirst⟩ := hf.first
  have hholds := (Bytes.holds_append.mp (Bytes.holds_append.mp
    (Bytes.holds_append.mp hfirst).2).2).2
  rw [hcode, length_le, hsig] at hholds
  obtain ⟨hres, hvbr⟩ := Bytes.holds_append.mp hholds
  exact ⟨hres.word_of_lt p.reservedSectors.toNat_lt, hvbr.word_of_lt (by decide)⟩

/-- The geometry in the first copy of the descriptor. -/
theorem Formatted.words_rdb (hspb : 1 ≤ p.sectorsPerBlock.toNat) (hrdb : 1 ≤ p.rdbCount.toNat) :
    field (r.image.bytes.slice (blockPos p 0) 512) 1 16 = p.sectorsPerBlock.toNat ∧
      field (r.image.bytes.slice (blockPos p 0) 512) 2 18 = bytesPerSector := by
  rw [field_slice (by decide), field_slice (by decide)]
  have hholds := hf.holds_rdb hspb hrdb
  simp only [rdb, Bytes.holds_append, length_le, Nat.add_assoc, Nat.reduceAdd] at hholds
  obtain ⟨-, -, hspbHolds, -, hsectorHolds, -⟩ := hholds
  exact ⟨hspbHolds.word_of_lt p.sectorsPerBlock.toNat_lt, hsectorHolds.word_of_lt (by decide)⟩

/-- **The loader accepts the image exactly if the formatter wrote its signature.** -/
theorem Formatted.accepted_iff (hsig : signature.length = 4) (hspb : 1 ≤ p.sectorsPerBlock.toNat)
    (hres : 1 ≤ p.reservedSectors.toNat) (hrdb : 1 ≤ p.rdbCount.toNat) :
    Accepted p r.image ↔ signature = Vellum.Folifs.fsSignature := by
  obtain ⟨hsize, -⟩ := block_sizes hspb
  have hpos : blockPos p 0 = 512 * p.reservedSectors.toNat + bytesPerBlock p * 0 :=
    blockPos_eq hspb img.len (Nat.zero_le _)
  have hlen := hf.inside _ (mem_blocks.mpr (.inl ⟨0, hrdb, rfl⟩))
  simp only [hpos] at hlen
  have hread0 : r.image.device.read 0 1 = .ok (r.image.bytes.slice 0 512) := if_pos (by omega)
  have hsector : ((r.image.bytes.slice 0 512).drop 504).take 4 = signature := by
    rw [Bytes.take_drop_slice (by decide)]
    exact hf.slice_signature hsig
  have hprobe : Vellum.Folifs.probe r.image.device =
      Vellum.Folifs.checkSignatures (r.image.bytes.slice 0 512) := Vellum.Folifs.probe_eq rfl hread0
  constructor
  · intro hacc
    have hok := hprobe.symm.trans hacc.probe
    rw [Vellum.Folifs.checkSignatures, hsector] at hok
    split at hok
    · cases hok
    · split at hok
      · cases hok
      · next hne => exact not_not.mp hne
  · intro hfoli
    have hcheck : Vellum.Folifs.checkSignatures (r.image.bytes.slice 0 512) = .ok () := by
      rw [Vellum.Folifs.checkSignatures, hsector, if_neg, if_neg (not_not.mpr hfoli)]
      exact not_not.mpr (hf.words_first hsig).2
    refine ⟨hprobe.trans hcheck, ?_⟩
    have hreserved := (hf.words_first hsig).1
    have hrdbRead : r.image.device.read p.reservedSectors.toNat 1 =
        .ok (r.image.bytes.slice (blockPos p 0) 512) := by
      rw [hpos, Nat.mul_zero, Nat.add_zero, Nat.mul_comm]
      exact if_pos (by omega)
    obtain ⟨hspbRead, hsectorRead⟩ := hf.words_rdb hspb hrdb
    have hblkRead : r.image.device.read p.reservedSectors.toNat p.sectorsPerBlock.toNat =
        .ok (r.image.bytes.slice (p.reservedSectors.toNat * 512)
          (p.sectorsPerBlock.toNat * 512)) := by
      refine if_pos ?_
      unfold bytesPerBlock bytesPerSector at hlen
      omega
    obtain ⟨data, hmount, hdata⟩ := Vellum.Folifs.exists_mount rfl hread0 hcheck
      (by rw [hreserved]; exact hrdbRead) (by rw [hreserved, hspbRead]; exact hblkRead)
    rw [hreserved, hspbRead, hsectorRead] at hdata
    exact ⟨data, hmount, hdata⟩

/-- The bitmap of group 0 always fits, that of the groups does if it has its bits in a block. -/
theorem Formatted.overrun_iff (hspb : 1 ≤ p.sectorsPerBlock.toNat) :
    r.overrun = false ↔ totalBlockGroupCount p img.len ≤ 8 * bytesPerBlock p := by
  obtain ⟨hsize, hbpg⟩ := block_sizes hspb
  rw [hf.overrun, List.any_eq_false]
  constructor
  · intro hall
    have hrbb := hall _ (mem_blocks.mpr (.inr (.inl rfl)))
    simp only [overrun_bitmapBuffer, decide_eq_true_eq] at hrbb
    omega
  · intro hgroups b hb
    rcases mem_blocks.mp hb with ⟨i, -, rfl⟩ | rfl | rfl | rfl | rfl
    · simp [structBuffer]
    · simp only [overrun_bitmapBuffer, decide_eq_true_eq]
      omega
    · simp only [overrun_bitmapBuffer, decide_eq_true_eq]
      omega
    · simp [structBuffer]
    · simp

theorem Formatted.mem_places {w : Written} :
    (w, pos) ∈ r.places ↔ ∃ block buf, (w, block, buf) ∈ blocks p img.len ∧
      pos = blockPos p block := by
  rw [hf.places, List.mem_map]
  constructor
  · rintro ⟨⟨w', block, buf⟩, hb, heq⟩
    cases heq
    exact ⟨block, buf, hb, rfl⟩
  · rintro ⟨block, buf, hb, rfl⟩
    exact ⟨_, hb, rfl⟩

/-- Where each structure is. -/
theorem Formatted.places_iff :
    (∀ copy, (.rdb copy, pos) ∈ r.places ↔ copy < p.rdbCount.toNat ∧ pos = blockPos p copy) ∧
    ((.rbb, pos) ∈ r.places ↔ pos = blockPos p p.rdbCount.toNat) ∧
    ((.gbb, pos) ∈ r.places ↔ pos = blockPos p (p.rdbCount.toNat + rbbCount p img.len)) ∧
    ((.mdb, pos) ∈ r.places ↔ pos = blockPos p (p.rdbCount.toNat + 1 + rbbCount p img.len)) ∧
    ((.dhb, pos) ∈ r.places ↔ pos = blockPos p (p.rdbCount.toNat + 2 + rbbCount p img.len)) := by
  simp only [hf.mem_places, mem_blocks]
  refine ⟨fun copy => ?_, ?_, ?_, ?_, ?_⟩ <;> simp

section

variable (hspb : 1 ≤ p.sectorsPerBlock.toNat)
  (hgroups : totalBlockGroupCount p img.len ≤ 8 * bytesPerBlock p)
include hspb hgroups

/-- The pointers of a copy of the descriptor. -/
theorem Formatted.pointers_rdb (hplace : (.rdb copy, pos) ∈ r.places) :
    r.image.bytes.word 8 (pos + 24) = p.rdbCount.toNat + rbbCount p img.len + 1 ∧
    r.image.bytes.word 8 (pos + 48) = 1 ∧
    r.image.bytes.word 8 (pos + 56) = p.rdbCount.toNat + rbbCount p img.len := by
  obtain ⟨hcopy, rfl⟩ := (hf.places_iff.1 copy).mp hplace
  have hrbb := rbbCount_le_of_groups hspb hgroups
  have hlt := p.rdbCount.toNat_lt
  have hholds := hf.holds_rdb hspb hcopy
  simp only [rdb, Bytes.holds_append, length_le, Nat.add_assoc, Nat.reduceAdd] at hholds
  obtain ⟨-, -, -, -, -, -, hmdb, -, -, hrbbHolds, hgbb, -⟩ := hholds
  simp only [Nat.add_assoc]
  exact ⟨hmdb.word_of_lt (by omega), hrbbHolds.word_of_lt (by decide), hgbb.word_of_lt (by omega)⟩

theorem Formatted.pointer_mdb :
    r.image.bytes.word 8 (blockPos p (p.rdbCount.toNat + 1 + rbbCount p img.len) + 32) =
      p.rdbCount.toNat + rbbCount p img.len + 2 := by
  have hrbb := rbbCount_le_of_groups hspb hgroups
  have hlt := p.rdbCount.toNat_lt
  obtain ⟨hsize, -⟩ := block_sizes hspb
  have hlength := length_rootMdb_le (p := p) img.len
  have hblock := hf.holds _ (mem_blocks.mpr (.inr (.inr (.inr (.inl rfl)))))
  have hholds := holds_of_structBuffer hblock (by omega)
  simp only [rootMdb, Bytes.holds_append, length_le, Nat.add_assoc, Nat.reduceAdd] at hholds
  obtain ⟨-, -, -, -, -, hdhb, -⟩ := hholds
  simp only [Nat.add_assoc]
  exact hdhb.word_of_lt (by omega)

/-- **The pointers name the blocks** of what they point to if the RBB is block 1. -/
theorem Formatted.pointersNamed_iff (hrdb : 1 ≤ p.rdbCount.toNat) :
    PointersNamed p r ↔ p.rdbCount.toNat = 1 := by
  have hone : (.rbb, blockPos p 1) ∈ r.places ↔ p.rdbCount.toNat = 1 := by
    rw [(hf.places_iff).2.1, blockPos_inj hspb img.len (by omega) (by omega)]
    exact eq_comm
  constructor
  · intro hnamed
    have hzero := (hf.places_iff.1 0).mpr ⟨hrdb, rfl⟩
    have hrbb := hnamed.rbb 0 _ hzero
    rwa [(hf.pointers_rdb hspb hgroups hzero).2.1, hone] at hrbb
  · intro heq
    refine ⟨?_, ?_, ?_, ?_⟩
    · intro copy pos hpos
      rw [(hf.pointers_rdb hspb hgroups hpos).2.1]
      exact hone.mpr heq
    · intro copy pos hpos
      rw [(hf.pointers_rdb hspb hgroups hpos).2.2]
      exact hf.places_iff.2.2.1.mpr rfl
    · intro copy pos hpos
      rw [(hf.pointers_rdb hspb hgroups hpos).1, Nat.add_right_comm]
      exact hf.places_iff.2.2.2.1.mpr rfl
    · intro pos hpos
      rw [hf.places_iff.2.2.2.1.mp hpos, hf.pointer_mdb hspb hgroups, Nat.add_right_comm]
      exact hf.places_iff.2.2.2.2.mpr rfl

/-- **The metadata blocks are distinct and in the volume.** -/
theorem Formatted.placed (hlen : img.len < 2 ^ 63) : Placed p img.len r := by
  obtain ⟨hsize, hbpg⟩ := block_sizes hspb
  have hrbb := rbbCount_le_of_groups hspb hgroups
  have hrdb := p.rdbCount.toNat_lt
  constructor
  case distinct =>
    rw [hf.places, List.map_map, List.nodup_iff_pairwise_ne]
    refine List.pairwise_map.mpr ((blocks_sorted hf.rbbs).imp_of_mem fun {b b'} hb hb' hlt => ?_)
    intro heq
    have hblock := (blockPos_inj hspb _ (block_le hb) (block_le hb')).mp heq
    omega
  case inside =>
    intro w hw
    rw [hf.places] at hw
    obtain ⟨b, hb, rfl⟩ := List.mem_map.mp hw
    have hle := block_le hb
    have hreserved := reserved_le_of_groups hspb hgroups
    have hsectors : totalSectorCount img.len * 512 = img.len := by
      have := hf.multiple
      unfold totalSectorCount bytesPerSector
      omega
    -- the first group is in the volume, and the metadata in the first group
    have hfree : (totalSectorCount img.len + 2 ^ 64 - p.reservedSectors.toNat) % 2 ^ 64 =
        totalSectorCount img.len - p.reservedSectors.toNat := by omega
    have htotal : totalBlockCount p img.len * p.sectorsPerBlock.toNat ≤
        totalSectorCount img.len - p.reservedSectors.toNat := by
      rw [← hfree]
      exact Nat.div_mul_le_self _ _
    have hgroup : blocksPerBlockGroup p ≤ totalBlockCount p img.len := by
      have hmul : totalBlockGroupCount p img.len * blocksPerBlockGroup p ≤
          totalBlockCount p img.len := Nat.div_mul_le_self _ _
      exact (Nat.le_mul_of_pos_left _ hf.groups).trans hmul
    have hblocks : (b.2.1 + 1) * p.sectorsPerBlock.toNat ≤
        totalBlockCount p img.len * p.sectorsPerBlock.toNat :=
      Nat.mul_le_mul_right _ (by omega)
    have hbytes : bytesPerBlock p * b.2.1 + bytesPerBlock p =
        512 * ((b.2.1 + 1) * p.sectorsPerBlock.toNat) := by
      unfold bytesPerBlock bytesPerSector
      ring
    rw [blockPos_of_mem hspb hb]
    omega

/-- **The bits of the groups**: the loop misses one of two to eight groups, and what is after the
first block of the RBB is not written. -/
theorem Formatted.rbbExact_iff :
    RbbExact p img.len r ↔
      (totalBlockGroupCount p img.len = 1 ∨ 9 ≤ totalBlockGroupCount p img.len) ∧
      ∀ group, blocksPerBlockGroup p ≤ group →
        group < rbbCount p img.len * blocksPerBlockGroup p →
        (rbbBit p img (blockPos p p.rdbCount.toNat) group = true ↔
          group < totalBlockGroupCount p img.len) := by
  obtain ⟨hsize, hbpg⟩ := block_sizes hspb
  have hrbb := rbbCount_le_of_groups hspb hgroups
  have hrbbs := hf.rbbs
  have hgroup1 := hf.groups
  have hholds := hf.holds _ (mem_blocks.mpr (.inr (.inl rfl)))
  have hfirst : ∀ group < blocksPerBlockGroup p,
      (rbbBit p r.image (blockPos p p.rdbCount.toNat) group = true ↔
        SetBit (totalBlockGroupCount p img.len) 1 group) := by
    intro group hlt
    rw [rbbBit, Nat.div_eq_of_lt hlt, Nat.mod_eq_of_lt hlt, Nat.mul_zero, Nat.add_zero,
      bit_of_sealBlock hholds (by omega), bit_bitmapBuffer (by omega), decide_eq_true_eq]
  have hsecond : ∀ group, blocksPerBlockGroup p ≤ group →
      group < rbbCount p img.len * blocksPerBlockGroup p →
      rbbBit p r.image (blockPos p p.rdbCount.toNat) group =
        rbbBit p img (blockPos p p.rdbCount.toNat) group := by
    intro group hle hlt
    have hdiv : group / blocksPerBlockGroup p = 1 := by
      have h2 : group < 2 * blocksPerBlockGroup p := hlt.trans_le (Nat.mul_le_mul_right _ hrbb)
      rw [Nat.div_eq_iff (by omega)]
      omega
    have htwo : rbbCount p img.len = 2 := by
      by_contra hne
      have hone : rbbCount p img.len = 1 := by omega
      rw [hone] at hlt
      omega
    have hmod : group % blocksPerBlockGroup p < blocksPerBlockGroup p := Nat.mod_lt _ (by omega)
    refine Bytes.bit_congr (hf.kept _ ?_ fun b hb => ?_)
    · rw [blockPos_eq hspb img.len (by omega)]
      omega
    · -- the second block of the RBB is none of those written
      rw [hdiv, Nat.mul_one, blockPos_of_mem hspb hb, blockPos_eq hspb img.len (by omega)]
      have hne : b.2.1 ≤ p.rdbCount.toNat ∨ p.rdbCount.toNat + 2 ≤ b.2.1 := by
        rcases mem_blocks.mp hb with ⟨i, hi, rfl⟩ | rfl | rfl | rfl | rfl
        all_goals
          simp only
          omega
      rcases hne with hne | hne
      · have hmul := Nat.mul_le_mul_left (bytesPerBlock p) hne
        omega
      · have hmul := Nat.mul_le_mul_left (bytesPerBlock p) hne
        rw [Nat.mul_add] at hmul
        omega
  constructor
  · intro hexact
    have hexact := hexact _ (hf.places_iff.2.1.mpr rfl)
    refine ⟨?_, fun group hle hlt => ?_⟩
    · by_contra hno
      have hlast : totalBlockGroupCount p img.len - 1 < blocksPerBlockGroup p := by omega
      have hone : blocksPerBlockGroup p ≤ rbbCount p img.len * blocksPerBlockGroup p :=
        Nat.le_mul_of_pos_left _ hrbbs
      have hset := (hexact (totalBlockGroupCount p img.len - 1) (by omega)).mpr (by omega)
      exact not_setBit_one (by omega) (by omega) ((hfirst _ hlast).mp hset)
    · rw [← hsecond group hle hlt, hexact group hlt]
      omega
  · rintro ⟨hcount, hrest⟩ pos hpos group hlt
    rw [hf.places_iff.2.1.mp hpos]
    by_cases hle : blocksPerBlockGroup p ≤ group
    · rw [hsecond group hle hlt, hrest group hle hlt]
      omega
    · rw [hfirst group (by omega), setBit_one_iff (by omega)]

/-- **The block of the root DHB is marked free.** -/
theorem Formatted.not_gbbExact : ¬ GbbExact p img.len r := by
  obtain ⟨hsize, hbpg⟩ := block_sizes hspb
  have hrbb := rbbCount_le_of_groups hspb hgroups
  have hrdb := p.rdbCount.toNat_lt
  intro hexact
  have hholds := hf.holds _ (mem_blocks.mpr (.inr (.inr (.inl rfl))))
  have hiff := hexact _ (hf.places_iff.2.2.1.mpr rfl)
    (p.rdbCount.toNat + 2 + rbbCount p img.len) (by omega)
  refine hiff.mp ?_ (.inl ⟨.dhb, hf.places_iff.2.2.2.2.mpr rfl⟩)
  rw [bit_of_sealBlock hholds (by omega), bit_bitmapBuffer (by omega), decide_eq_true_eq]
  unfold SetBit
  omega

end

end

end Parts

/-- **A formatted image.** The loader rejects each one, since `make_fs` writes another signature
than `probe` and `mount` ask for. The stores of the bitmap loops are in the buffer if the groups
have their bits in a block. Then the metadata blocks are distinct and in the volume; the pointers
are right if there is one RDB; the RBB is right for one group or more than eight, as long as the
image already had the right bits in a second RBB; and the GBB is wrong. -/
theorem makeFs_iff (p : Params) (img : Image) (r : Result) (hrdb : 1 ≤ p.rdbCount.toNat)
    (hspb : 1 ≤ p.sectorsPerBlock.toNat) (hres : 1 ≤ p.reservedSectors.toNat)
    (hlen : img.len < 2 ^ 63) (h : makeFs p img = .ok r) :
    ¬ Accepted p r.image ∧
    (r.overrun = false ↔ totalBlockGroupCount p img.len ≤ 8 * bytesPerBlock p) ∧
    (totalBlockGroupCount p img.len ≤ 8 * bytesPerBlock p →
      Placed p img.len r ∧
      (PointersNamed p r ↔ p.rdbCount.toNat = 1) ∧
      (RbbExact p img.len r ↔
        (totalBlockGroupCount p img.len = 1 ∨ 9 ≤ totalBlockGroupCount p img.len) ∧
        ∀ group, blocksPerBlockGroup p ≤ group →
          group < rbbCount p img.len * blocksPerBlockGroup p →
          (rbbBit p img (blockPos p p.rdbCount.toNat) group = true ↔
            group < totalBlockGroupCount p img.len)) ∧
      ¬ GbbExact p img.len r) := by
  have hf : Formatted fsSignature p img r := formatted hspb hres rfl h
  refine ⟨fun hacc => ?_, hf.overrun_iff hspb, fun hgroups => ⟨hf.placed hspb hgroups hlen,
    hf.pointersNamed_iff hspb hgroups hrdb, hf.rbbExact_iff hspb hgroups,
    hf.not_gbbExact hspb hgroups⟩⟩
  have heq := (hf.accepted_iff rfl hspb hres hrdb).mp hacc
  exact absurd heq (by decide)

/-- An empty image of a reserved sector and a number of groups, for blocks of one sector. -/
def emptyImage (groups : Nat) : Image where
  len := 512 * (1 + 4064 * groups)
  bytes _ := 0
  beyond _ _ := rfl

/-- Blocks of one sector after one reserved sector. -/
def smallParams (rdbCount : UInt8) : Params where
  rdbCount := rdbCount
  sectorsPerBlock := 1
  reservedSectors := 1

theorem makeFs_one : ∃ r, makeFs (smallParams 1) (emptyImage 1) = .ok r := by
  rw [makeFs, makeFsWith, if_neg (by decide), if_neg (by decide)]
  exact ⟨_, rfl⟩

/-- With one group and one RDB the pointers and the RBB come out right. -/
theorem makeFs_iff_one : ∃ r, makeFs (smallParams 1) (emptyImage 1) = .ok r ∧
    r.overrun = false ∧ Placed (smallParams 1) (emptyImage 1).len r ∧
    PointersNamed (smallParams 1) r ∧ RbbExact (smallParams 1) (emptyImage 1).len r := by
  obtain ⟨r, hr⟩ := makeFs_one
  obtain ⟨-, hoverrun, hparts⟩ := makeFs_iff (smallParams 1) (emptyImage 1) r (by decide)
    (by decide) (by decide) (by decide) hr
  obtain ⟨hplaced, hnamed, hrbb, -⟩ := hparts (by decide)
  refine ⟨r, hr, hoverrun.mpr (by decide), hplaced, hnamed.mpr (by decide), hrbb.mpr ?_⟩
  refine ⟨.inl (by decide), fun group hle hlt => ?_⟩
  have hbound : rbbCount (smallParams 1) (emptyImage 1).len *
      blocksPerBlockGroup (smallParams 1) = blocksPerBlockGroup (smallParams 1) := by decide
  omega

theorem makeFs_two : ∃ r, makeFs (smallParams 2) (emptyImage 2) = .ok r := by
  rw [makeFs, makeFsWith, if_neg (by decide), if_neg (by decide)]
  exact ⟨_, rfl⟩

/-- With two groups and two RDBs the loader does not accept the image, the RBB pointer names the
second RDB, the bit of group 1 is missing, and the root DHB is marked free. -/
theorem makeFs_two_wrong : ∃ r, makeFs (smallParams 2) (emptyImage 2) = .ok r ∧
    r.overrun = false ∧ ¬ Accepted (smallParams 2) r.image ∧ ¬ PointersNamed (smallParams 2) r ∧
    ¬ RbbExact (smallParams 2) (emptyImage 2).len r ∧
    ¬ GbbExact (smallParams 2) (emptyImage 2).len r := by
  obtain ⟨r, hr⟩ := makeFs_two
  have hspb : 1 ≤ (smallParams 2).sectorsPerBlock.toNat := by decide
  have hf : Formatted fsSignature (smallParams 2) (emptyImage 2) r :=
    formatted hspb (by decide) rfl hr
  have hgroups : totalBlockGroupCount (smallParams 2) (emptyImage 2).len ≤
      8 * bytesPerBlock (smallParams 2) := by decide
  refine ⟨r, hr, (hf.overrun_iff hspb).mpr hgroups, fun hacc => ?_, fun hnamed => ?_,
    fun hrbb => ?_, hf.not_gbbExact hspb hgroups⟩
  · exact absurd ((hf.accepted_iff rfl hspb (by decide) (by decide)).mp hacc) (by decide)
  · exact absurd ((hf.pointersNamed_iff hspb hgroups (by decide)).mp hnamed) (by decide)
  · exact absurd ((hf.rbbExact_iff hspb hgroups).mp hrbb).1 (by decide)

end FoliOS.Folifs
