import RtSpark.Flash.Model.DrvFlash
import RtSpark.Common.Loop
/-!
# The calls of an on-chip write

`stm32_flash_write` with the calls it makes of the HAL: the programs in
their order and whether the controller is locked. `results k` is whether
the program number `k` succeeds; one that fails leaves the cells.
-/

namespace RtSpark

namespace Flash

open Nor

structure WriteState where
  writtenSize : ℕ
  cells : Cells
  /-- The programs so far, by address and width. -/
  programs : List (ℕ × ℕ)
  /-- `result` is not `RT_EOK`, and the loop was left. -/
  failed : Bool

/-- One pass of the loop. -/
def writePass (results : ℕ → Bool) (addr : ℕ) (buf : Mem) (size : ℕ) (s : WriteState) :
    Option WriteState :=
  if s.failed then
    none
  else if s.writtenSize < size then
    let width := writeSize (addr + s.writtenSize) (size - s.writtenSize)
    let data : Mem := fun i => buf (s.writtenSize + i)
    let programs := s.programs ++ [(addr + s.writtenSize, width)]
    if results s.programs.length then
      let cells := halFlashProgram s.cells (addr + s.writtenSize) width data
      if ∃ i ∈ List.range width, cells (stm32Cell (addr + s.writtenSize + i)) ≠ data i then
        some ⟨s.writtenSize, cells, programs, true⟩
      else
        some ⟨s.writtenSize + width, cells, programs, false⟩
    else
      some ⟨s.writtenSize, s.cells, programs, true⟩
  else
    none

def writeInit (cells : Cells) : WriteState := ⟨0, cells, [], false⟩

/-- The state the loop ends in. Every pass writes a byte or is the last. -/
def writeLast (results : ℕ → Bool) (cells : Cells) (addr : ℕ) (buf : Mem) (size : ℕ) :
    WriteState :=
  Loop.run (writePass results addr buf size) (size + 2) (writeInit cells)

/-- The flash and its controller. -/
structure FlashUnit where
  cells : Cells
  locked : Bool

structure WriteRun where
  result : ℤ
  unit : FlashUnit
  programs : List (ℕ × ℕ)

/-- `HAL_FLASH_Unlock`. -/
def FlashUnit.unlock (u : FlashUnit) : FlashUnit := { u with locked := false }

/-- `HAL_FLASH_Lock`. -/
def FlashUnit.lock (u : FlashUnit) : FlashUnit := { u with locked := true }

/-- What follows the loop. -/
def writeEnd (size : ℕ) (u : FlashUnit) (s : WriteState) : WriteRun :=
  let u := FlashUnit.lock { u with cells := s.cells }
  if s.failed then ⟨-1, u, s.programs⟩ else ⟨toInt size, u, s.programs⟩

/-- `stm32_flash_write`. -/
def stm32FlashWriteCalls (results : ℕ → Bool) (u : FlashUnit) (addr : ℕ) (buf : Mem)
    (size : ℕ) : WriteRun :=
  if stm32FlashEnd < (addr + size) % 2 ^ 32 then
    ⟨-10, u, []⟩
  else if size < 1 then
    ⟨-10, u, []⟩
  else
    let u := u.unlock
    writeEnd size u (writeLast results u.cells addr buf size)

end Flash

end RtSpark
