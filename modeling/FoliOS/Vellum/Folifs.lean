import FoliOS.Vellum.Basic

/-!
# Vellum — probing and mounting a FOLIFS volume (`vellum/filesystem/folifs`)

`probe` checks the two signatures of the first sector, `mount` checks them again and reads the
geometry from the root descriptor block. Allocations succeed.
-/

namespace FoliOS.Vellum.Folifs

open Lib

/-- `FOLIFS_VBR_SIGNATURE` -/
def vbrSignature : Nat := 0xAA55

/-- `FOLIFS_FS_SIGNATURE`, "FOLI". -/
def fsSignature : List UInt8 := [0x46, 0x4F, 0x4C, 0x49]

/-- The checks of the first sector; `strncmp` compares the four bytes of the signature. -/
def checkSignatures (lba0 : List UInt8) : Except VlStatus Unit :=
  if field lba0 2 510 ≠ vbrSignature then .error .invalidSignature
  else if (lba0.drop 504).take 4 ≠ fsSignature then .error .invalidSignature
  else .ok ()

def probe (dev : BlockDevice) : Except VlStatus Unit := do
  if dev.blockSize ≠ 512 then throw .sizeCheckFailure
  let lba0 ← dev.read 0 1
  checkSignatures lba0

/-- `struct folifs_data` -/
structure FolifsData where
  reservedSectors  : Nat
  sectorsPerBlock  : Nat
  sectorSize       : Nat
  blockSize        : Nat
  udbPointer       : Nat
  jbbPointer       : Nat
  rbbPointer       : Nat
  group0GbbPointer : Nat
  rootMdbPointer   : Nat
  blkbuf           : List UInt8

/-- `mount`. The sector with the descriptor is read into a `struct folifs_rdb` of 98 bytes, which it
overruns; only the fields are modelled. `read_block` of block 0 does not find it in the buffer. -/
def mount (dev : BlockDevice) : Except VlStatus FolifsData := do
  if dev.blockSize ≠ 512 then throw .sizeCheckFailure
  let lba0 ← dev.read 0 1
  checkSignatures lba0
  let reservedSectors := field lba0 2 508
  let rdb ← dev.read reservedSectors 1
  let sectorsPerBlock := field rdb 1 16
  let sectorSize := field rdb 2 18
  let blkbuf ← dev.read reservedSectors sectorsPerBlock
  return {
    reservedSectors, sectorsPerBlock, sectorSize
    blockSize := sectorSize * sectorsPerBlock
    udbPointer := field blkbuf 8 32
    jbbPointer := field blkbuf 8 40
    rbbPointer := field blkbuf 8 48
    group0GbbPointer := field blkbuf 8 56
    rootMdbPointer := field blkbuf 8 24
    blkbuf }

section Reads

variable {dev : BlockDevice} {lba0 rdb blkbuf : List UInt8}

theorem probe_eq (hsize : dev.blockSize = 512) (hread : dev.read 0 1 = .ok lba0) :
    probe dev = checkSignatures lba0 := by
  rw [probe, hread, if_neg (not_not.mpr hsize)]
  rfl

/-- The volume a mount makes of the sectors it reads. -/
theorem exists_mount (hsize : dev.blockSize = 512) (hread : dev.read 0 1 = .ok lba0)
    (hcheck : checkSignatures lba0 = .ok ()) (hrdb : dev.read (field lba0 2 508) 1 = .ok rdb)
    (hblock : dev.read (field lba0 2 508) (field rdb 1 16) = .ok blkbuf) :
    ∃ data, mount dev = .ok data ∧ data.reservedSectors = field lba0 2 508 ∧
      data.sectorsPerBlock = field rdb 1 16 ∧ data.sectorSize = field rdb 2 18 ∧
      data.blockSize = field rdb 2 18 * field rdb 1 16 := by
  rw [mount, hread, if_neg (not_not.mpr hsize)]
  simp only [bind, Except.bind, pure, Except.pure, hcheck, hrdb, hblock, Except.ok.injEq,
    exists_eq_left', and_self]

end Reads

end FoliOS.Vellum.Folifs
