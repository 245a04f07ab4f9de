import RtSpark.Common.Nor
import RtSpark.Common.CString
import Mathlib.Algebra.Group.Nat.Defs
import Mathlib.Algebra.Group.Int.Defs
import Mathlib.Logic.Function.Basic
/-!
# The flash abstraction layer

`fal_partition.c` over the board's partition table. An access is checked
against the partition, its address moved to the partition's start, and
the device's operation called; all sums are 32 bits wide, as are `size_t`
and `long`. The cells are those of the device the partition is on.

What the commands sent to a device come to is an argument of its
operations.
-/

namespace RtSpark

namespace Flash

open Nor

/-- `struct fal_flash_dev`: what matters of it is its length and its
operations, each with its result and what it leaves in the buffer or in
the cells. -/
structure FalFlashDev (ω : Type) where
  len : ℕ
  /-- The cell an address of the device selects. -/
  cell : ℕ → ℕ
  read : Cells → ω → (offset : ℕ) → (buf : Mem) → (size : ℕ) → ℤ × Mem
  write : Cells → ω → (offset : ℕ) → (buf : Mem) → (size : ℕ) → ℤ × Cells
  erase : Cells → ω → (offset size : ℕ) → ℤ × Cells

/-- A `size_t` returned as an `int`. -/
def toInt (size : ℕ) : ℤ := if size < 2 ^ 31 then size else size - 2 ^ 32

theorem toInt_nonneg {size : ℕ} (h : size < 2 ^ 31) : 0 ≤ toInt size := by
  unfold toInt
  rw [if_pos h]
  omega

/-- `struct fal_partition`. -/
structure FalPartition where
  name : String
  flashName : String
  offset : ℕ
  len : ℕ
deriving DecidableEq

/-- `FAL_PART_TABLE`, without a boot loader. -/
def falPartTable : List FalPartition :=
  [⟨"app", "onchip_flash_128k", 0, 384 * 1024⟩,
    ⟨"param", "onchip_flash_128k", 384 * 1024, 640 * 1024⟩,
    ⟨"easyflash", "W25Q64", 0, 512 * 1024⟩,
    ⟨"download", "W25Q64", 512 * 1024, 1024 * 1024⟩,
    ⟨"wifi_image", "W25Q64", (512 + 1024) * 1024, 512 * 1024⟩,
    ⟨"font", "W25Q64", (512 + 1024 + 512) * 1024, 3 * 1024 * 1024⟩,
    ⟨"filesystem", "W25Q64", (512 + 1024 + 512 + 3 * 1024) * 1024, 3 * 1024 * 1024⟩]

/-- `fal_partition_find`. -/
def falPartitionFind (name : String) : Option FalPartition :=
  falPartTable.find? fun part => name = part.name

/-- The partition of the font library. -/
def font : FalPartition := ⟨"font", "W25Q64", (512 + 1024 + 512) * 1024, 3 * 1024 * 1024⟩

theorem falPartitionFind_font : falPartitionFind "font" = some font := by decide

section

variable {ω : Type} (devTable : List (String × FalFlashDev ω))

/-- `fal_flash_device_find`. -/
def falFlashDeviceFind (name : String) : Option (FalFlashDev ω) :=
  (devTable.find? fun dev => name = dev.1).map (·.2)

def falPartitionRead (part : FalPartition) (cells : Cells) (o : ω) (addr : ℕ) (buf : Mem)
    (size : ℕ) : ℤ × Mem :=
  if part.len < (addr + size) % 2 ^ 32 then (-1, buf)
  else
    match falFlashDeviceFind devTable part.flashName with
    | none => (-1, buf)
    | some flashDev => flashDev.read cells o ((part.offset + addr) % 2 ^ 32) buf size

def falPartitionWrite (part : FalPartition) (cells : Cells) (o : ω) (addr : ℕ) (buf : Mem)
    (size : ℕ) : ℤ × Cells :=
  if part.len < (addr + size) % 2 ^ 32 then (-1, cells)
  else
    match falFlashDeviceFind devTable part.flashName with
    | none => (-1, cells)
    | some flashDev => flashDev.write cells o ((part.offset + addr) % 2 ^ 32) buf size

def falPartitionErase (part : FalPartition) (cells : Cells) (o : ω) (addr size : ℕ) :
    ℤ × Cells :=
  if part.len < (addr + size) % 2 ^ 32 then (-1, cells)
  else
    match falFlashDeviceFind devTable part.flashName with
    | none => (-1, cells)
    | some flashDev => flashDev.erase cells o ((part.offset + addr) % 2 ^ 32) size

def falPartitionEraseAll (part : FalPartition) (cells : Cells) (o : ω) : ℤ × Cells :=
  falPartitionErase devTable part cells o 0 part.len

end

/-! ## Calls on a partition -/

/-- A call on a partition. -/
inductive FalCall where
  | write (addr : UInt32) (buf : Mem) (size : UInt32)
  | erase (addr size : UInt32)
  | eraseAll

/-- What a call asks for. -/
def FalCall.addr : FalCall → ℕ
  | .write addr _ _ => addr.toNat
  | .erase addr _ => addr.toNat
  | .eraseAll => 0

def FalCall.size (part : FalPartition) : FalCall → ℕ
  | .write _ _ size => size.toNat
  | .erase _ size => size.toNat
  | .eraseAll => part.len

/-- A call and what the commands it sends come to. -/
structure FalRequest (ω : Type) where
  call : FalCall
  outcomes : ω

section

variable {ω : Type} (devTable : List (String × FalFlashDev ω))

def falCall (part : FalPartition) (cells : Cells) (q : FalRequest ω) : ℤ × Cells :=
  match q.call with
  | .write addr buf size =>
    falPartitionWrite devTable part cells q.outcomes addr.toNat buf size.toNat
  | .erase addr size => falPartitionErase devTable part cells q.outcomes addr.toNat size.toNat
  | .eraseAll => falPartitionEraseAll devTable part cells q.outcomes

def falStep (part : FalPartition) (cells : Cells) (q : FalRequest ω) : Cells :=
  (falCall devTable part cells q).2

end

/-! ## Commands to a device -/

/-- What a command sent to a device comes to. One that fails may have been
carried out all the same, on all of its cells or on some. -/
inductive Outcome where
  | ok
  | failed (carried : ℕ → Bool)

/-- The cells after a command that turns `cells` into `cells'`. -/
def Outcome.cells : Outcome → Cells → Cells → Cells
  | .ok, _, cells' => cells'
  | .failed carried, cells, cells' => fun i => if carried i then cells' i else cells i

end Flash

end RtSpark
