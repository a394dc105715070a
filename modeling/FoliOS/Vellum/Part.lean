import FoliOS.Vellum.Basic
import Mathlib.Algebra.Group.Int.Defs
import Mathlib.Algebra.Group.Nat.Defs
import Mathlib.Tactic.SplitIfs

/-!
# Vellum — partition devices (`vellum/device/block/part`)

A partition passes reads and writes on to the device it is on, with the address moved by the
partition's base and the count cut at its limit. `lba_t` is signed and has 64 bits, `size_t` has
32. The limit is the last sector of the partition, and the clamp treats it as the first one
behind it; the range check compares an address in the partition with the limit on the device.

* `transfer_correct_iff` — when a transfer does what it should.
-/

namespace FoliOS.Vellum.Part

/-! ## Partitions -/

/-- `struct part_data` of a partition: its first and its last sector, as `lba_t`s. -/
structure Partition where
  base    : Nat
  limit   : Nat
  ordered : base ≤ limit
  fits    : limit < 2 ^ 63

/-- `probe` of the partition driver: the `part_base` and `part_limit` it stores for a resource. -/
def probe (base limit : UInt64) : Option (Int64 × Int64) :=
  if base > limit then none else some (base.toInt64, limit.toInt64)

/-- The resource `register_partitions` makes of an entry of the table at `base`. -/
def mbrResource (base baseLba sectorCount : Nat) : Nat × Nat :=
  (base + baseLba, (base + baseLba + sectorCount + 2 ^ 64 - 1) % 2 ^ 64)

/-- The sectors of the partition. -/
def Partition.sectors (d : Partition) : Nat := d.limit - d.base + 1

/-! ## Transfers -/

/-- What a call does. -/
inductive Outcome where
  /-- It returns without a call of the parent. -/
  | returned (st : VlStatus)
  /-- It passes on what the parent returns for these sectors. -/
  | passed (lba : Int) (count : Nat) (st : VlStatus)
  /-- A signed sum overflows. -/
  | undefined
  deriving DecidableEq, Repr

/-- A sum of type `lba_t`. -/
def addLba (a b : Int) : Option Int :=
  if -2 ^ 63 ≤ a + b ∧ a + b < 2 ^ 63 then some (a + b) else none

/-- The count after the clamp, back in a `size_t`. -/
def clamp (d : Partition) (past : Int) (count : Nat) : Nat :=
  if past > d.limit then ((count - (past - d.limit)) % 2 ^ 32).toNat else count

/-- The body of `read` and `write`. -/
def transfer (parent : Int → Nat → VlStatus) (d : Partition) (lba : Int64) (count : UInt32) :
    Outcome :=
  if lba.toInt > d.limit then .returned .invalidValue
  else
    match addLba d.base lba.toInt with
    | none => .undefined
    | some start =>
      match addLba start count.toNat with
      | none => .undefined
      | some past =>
        let count := clamp d past count.toNat
        if count < 1 then .returned .success else .passed start count (parent start count)

/-- `struct block_interface` -/
structure BlockInterface where
  read  : Int → Nat → VlStatus
  write : Int → Nat → VlStatus

def read (blkif : BlockInterface) : Partition → Int64 → UInt32 → Outcome := transfer blkif.read

def write (blkif : BlockInterface) : Partition → Int64 → UInt32 → Outcome := transfer blkif.write

/-! ## What a transfer should do -/

/-- The sectors of the parent a call asks for, from the first one on. -/
def Outcome.sectors : Outcome → Option Nat
  | .returned _ => some 0
  | .passed _ n _ => some n
  | .undefined => none

/-- Only sectors of the partition, all of those asked for that it has, and an error for an
address behind it. -/
structure Correct (d : Partition) (lba : Int) (count : Nat) (o : Outcome) : Prop where
  inside : ∀ start n st, o = .passed start n st →
    start = d.base + lba ∧ d.base ≤ start ∧ start + n ≤ d.limit + 1
  exact  : lba ≤ d.limit - d.base →
    ∃ n : Nat, o.sectors = some n ∧ (n : Int) = min (count : Int) (d.sectors - lba)
  behind : d.limit - d.base < lba → ∃ st, o = .returned st ∧ st.ok = false

variable {d : Partition} {lba : Int64} {count : UInt32} {parent : Int → Nat → VlStatus}

theorem addLba_of_range {a b : Int} (h : -2 ^ 63 ≤ a + b ∧ a + b < 2 ^ 63) :
    addLba a b = some (a + b) :=
  if_pos h

theorem addLba_cases (a b : Int) : addLba a b = none ∨ addLba a b = some (a + b) := by
  unfold addLba
  split
  · exact .inr rfl
  · exact .inl rfl

theorem lba_bounds (lba : Int64) : -2 ^ 63 ≤ lba.toInt ∧ lba.toInt < 2 ^ 63 :=
  ⟨lba.le_toInt, lba.toInt_lt⟩

/-- Where the sum is at most the limit, neither the check nor the clamp applies. -/
theorem transfer_within (h : (d.base : Int) + lba.toInt + count.toNat ≤ d.limit) :
    transfer parent d lba count = if count.toNat < 1 then .returned .success
      else .passed (d.base + lba.toInt) count.toNat (parent (d.base + lba.toInt) count.toNat) := by
  have hfits := d.fits
  have hlba := lba_bounds lba
  unfold transfer
  rw [if_neg (by omega), addLba_of_range ⟨by omega, by omega⟩]
  dsimp only
  rw [addLba_of_range ⟨by omega, by omega⟩]
  have hclamp : clamp d (d.base + lba.toInt + count.toNat) count.toNat = count.toNat :=
    if_neg (by omega)
  dsimp only
  rw [hclamp]

/-- Where the sum is more than the limit, the error of the range check is not among what can
happen, and a sector of the partition is missing from what is transferred. -/
theorem transfer_beyond (parent : Int → Nat → VlStatus) (hlba : lba.toInt ≤ d.limit)
    (h : (d.limit : Int) < d.base + lba.toInt + count.toNat) :
    (∀ st, transfer parent d lba count = .returned st → st = .success) ∧
      ∀ n, (transfer parent d lba count).sectors = some n → lba.toInt ≤ d.limit - d.base →
        (n : Int) = d.limit - d.base - lba.toInt := by
  have hcount := count.toNat_lt
  unfold transfer
  rw [if_neg (by omega)]
  have hundefined : (∀ st, Outcome.undefined = .returned st → st = .success) ∧
      ∀ n, Outcome.undefined.sectors = some n → lba.toInt ≤ d.limit - d.base →
        (n : Int) = d.limit - d.base - lba.toInt :=
    ⟨fun st hst => (by cases hst), fun n hn => (by cases hn)⟩
  rcases addLba_cases d.base lba.toInt with hstart | hstart <;> rw [hstart]
  · exact hundefined
  rcases addLba_cases (d.base + lba.toInt) count.toNat with hpast | hpast <;> simp only [hpast]
  · exact hundefined
  have hclamp : lba.toInt ≤ d.limit - d.base →
      (clamp d (d.base + lba.toInt + count.toNat) count.toNat : Int) =
        d.limit - d.base - lba.toInt := by
    rw [clamp, if_pos (by omega)]
    omega
  split_ifs with hzero
  · refine ⟨fun st hst => (Outcome.returned.inj hst).symm, fun n hn hin => ?_⟩
    have := Option.some.inj hn
    omega
  · refine ⟨fun st hst => (by cases hst), fun n hn hin => ?_⟩
    rw [← hclamp hin, Option.some.inj hn]

/-- **When a transfer is right.** -/
theorem transfer_correct_iff (d : Partition) (lba : Int64) (count : UInt32)
    (parent : Int → Nat → VlStatus) :
    Correct d lba.toInt count.toNat (transfer parent d lba count) ↔
      d.limit < lba.toInt ∨
        d.base + lba.toInt + count.toNat ≤ d.limit ∧ (0 ≤ lba.toInt ∨ count.toNat = 0) := by
  have hord := d.ordered
  have hsectors : (d.sectors : Int) = d.limit - d.base + 1 := by
    unfold Partition.sectors
    omega
  by_cases hcheck : d.limit < lba.toInt
  · have ho : transfer parent d lba count = .returned .invalidValue := if_pos hcheck
    rw [ho]
    refine ⟨fun _ => .inl hcheck,
      fun _ => ⟨fun _ _ _ h => (by cases h), fun h => ?_, fun _ => ⟨_, rfl, rfl⟩⟩⟩
    omega
  by_cases hwithin : d.base + lba.toInt + count.toNat ≤ d.limit
  · rw [transfer_within hwithin]
    constructor
    · -- a negative address is before the partition
      intro hc
      refine .inr ⟨hwithin, ?_⟩
      by_cases hzero : count.toNat < 1
      · exact .inr (by omega)
      · have := (hc.inside _ _ _ (if_neg hzero)).2.1
        exact .inl (by omega)
    · rintro (h | ⟨-, h⟩)
      · exact absurd h hcheck
      · split
        next hzero =>
          exact ⟨fun _ _ _ h => (by cases h), fun _ => ⟨0, rfl, by omega⟩, fun _ => by omega⟩
        next hzero =>
          refine ⟨fun start n st ho => ?_, fun _ => ⟨count.toNat, rfl, by omega⟩, fun _ => by omega⟩
          obtain ⟨rfl, rfl, -⟩ := Outcome.passed.inj ho
          exact ⟨rfl, by omega, by omega⟩
  · have hle : lba.toInt ≤ d.limit := by omega
    have hlt : (d.limit : Int) < d.base + lba.toInt + count.toNat := by omega
    obtain ⟨hst, hn⟩ := transfer_beyond parent hle hlt
    refine ⟨fun hc => ?_, fun h => by omega⟩
    by_cases hin : lba.toInt ≤ d.limit - d.base
    · obtain ⟨n, hsome, hmin⟩ := hc.exact hin
      have := hn n hsome hin
      omega
    · obtain ⟨st, hret, herr⟩ := hc.behind (by omega)
      rw [hst st hret] at herr
      cases herr

/-- **Reads and writes of a partition are right away from its end.** They are for an address
that is behind the limit even on the device, and for sectors before the last one; a negative
address is before the partition unless nothing is asked for. -/
theorem readWrite_correct_iff (blkif : BlockInterface) (d : Partition) (lba : Int64)
    (count : UInt32) : (Correct d lba.toInt count.toNat (read blkif d lba count) ↔
        d.limit < lba.toInt ∨
          d.base + lba.toInt + count.toNat ≤ d.limit ∧ (0 ≤ lba.toInt ∨ count.toNat = 0)) ∧
      (Correct d lba.toInt count.toNat (write blkif d lba count) ↔
        d.limit < lba.toInt ∨
          d.base + lba.toInt + count.toNat ≤ d.limit ∧ (0 ≤ lba.toInt ∨ count.toNat = 0)) :=
  ⟨transfer_correct_iff d lba count blkif.read, transfer_correct_iff d lba count blkif.write⟩

/-- A partition of 2048 sectors, as an MBR at 0 describes it. -/
def smallPartition : Partition := ⟨2048, 4095, by decide, by decide⟩

/-- Of its last sector nothing is read, and success is reported. A sector behind it is an
address of the parent that belongs to the next partition. -/
theorem read_last_sector :
    mbrResource 0 2048 2048 = (2048, 4095) ∧ probe 2048 4095 = some (2048, 4095) ∧
      read ⟨fun _ _ => .success, fun _ _ => .success⟩ smallPartition 2047 1 = .returned .success ∧
      read ⟨fun _ _ => .success, fun _ _ => .success⟩ smallPartition 2049 1 =
        .passed 4097 4294967294 .success ∧
      ¬ Correct smallPartition 2047 1
        (read ⟨fun _ _ => .success, fun _ _ => .success⟩ smallPartition 2047 1) := by
  have hread : read ⟨fun _ _ => .success, fun _ _ => .success⟩ smallPartition 2047 1 =
      .returned .success := by decide +kernel
  refine ⟨rfl, by decide +kernel, hread, by decide +kernel, fun hc => ?_⟩
  obtain ⟨n, hn, hmin⟩ := hc.exact (by decide)
  have := Option.some.inj hn
  have hsectors : smallPartition.sectors = 2048 := rfl
  omega

end FoliOS.Vellum.Part
