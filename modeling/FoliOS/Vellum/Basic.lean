import FoliOS.Lib.Bytes

/-!
# Vellum — status codes and block devices (`vellum/status.h`, `vellum/interface/block.h`)
-/

namespace FoliOS.Vellum

open Lib

/-- The `STATUS_*` codes the modelled functions of the loader return. -/
inductive VlStatus where
  | success
  | unexpectedResult
  | invalidValue
  | conflictingState
  | endOfList
  | pageNotPresent
  | insufficientMemory
  | invalidSignature
  | sizeCheckFailure
  | entryNotFound
  | wrongElementType
  | endOfFile
  deriving DecidableEq, Repr

/-- `CHECK_SUCCESS` -/
def VlStatus.ok : VlStatus → Bool
  | .success => true
  | _ => false

theorem VlStatus.ok_iff {st : VlStatus} : st.ok = true ↔ st = .success := by
  cases st <;> decide

theorem bind_eq_ok {ε α β : Type} {x : Except ε α} {f : α → Except ε β} {b : β} :
    x >>= f = .ok b ↔ ∃ a, x = .ok a ∧ f a = .ok b := by
  cases x with
  | error e => exact ⟨fun h => (by cases h), fun ⟨_, h, _⟩ => (by cases h)⟩
  | ok a => exact ⟨fun h => ⟨a, rfl, h⟩, fun ⟨_, ha, h⟩ => (by cases ha; exact h)⟩

theorem map_eq_ok {ε α β : Type} {x : Except ε α} {f : α → β} {b : β} :
    x.map f = .ok b ↔ ∃ a, x = .ok a ∧ f a = b := by
  cases x with
  | error e => exact ⟨fun h => (by cases h), fun ⟨_, h, _⟩ => (by cases h)⟩
  | ok a =>
    constructor
    · exact fun h => ⟨a, rfl, Except.ok.inj h⟩
    · rintro ⟨_, ha, rfl⟩
      cases ha
      rfl

/-- The block interface of a device: `get_block_size`, and `read` of a number of blocks. -/
structure BlockDevice where
  blockSize : Nat
  read      : (lba count : Nat) → Except VlStatus (List UInt8)

/-- A device with 512-byte sectors that reads everywhere. -/
structure BlockDevice.Holds (dev : BlockDevice) (disk : Bytes) : Prop where
  blockSize : dev.blockSize = 512
  read      : ∀ lba count, dev.read lba count = .ok (disk.slice (512 * lba) (512 * count))

theorem BlockDevice.Holds.read_one {dev : BlockDevice} {disk : Bytes} (hdev : dev.Holds disk)
    (lba : Nat) : dev.read lba 1 = .ok (disk.slice (512 * lba) 512) := by
  rw [hdev.read, Nat.mul_one]

/-- A little-endian field of what was read. -/
def field (l : List UInt8) (width off : Nat) : Nat := ofLe ((l.drop off).take width)

theorem field_slice {m : Bytes} {off n width k : Nat} (h : k + width ≤ n) :
    field (m.slice off n) width k = m.word width (off + k) := by
  rw [field, Bytes.take_drop_slice h, Bytes.word]

end FoliOS.Vellum
