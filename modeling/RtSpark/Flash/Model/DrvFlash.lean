import RtSpark.Flash.Model.Fal
/-!
# The on-chip flash

`drv_flash_f4.c` and the two functions of the HAL it calls, for the 1 MiB
of an STM32F407. The functions are called with bus addresses; a cell is
named by its distance from the start of the flash, modulo `2 ^ 32`, and
the flash has those below its size.
-/

namespace RtSpark

namespace Flash

open Nor

/-- `STM32_FLASH_START_ADRESS`. -/
def stm32FlashStart : ℕ := 0x08000000

/-- `STM32_FLASH_SIZE`. -/
def stm32FlashSize : ℕ := 1024 * 1024

/-- `STM32_FLASH_END_ADDRESS`. -/
def stm32FlashEnd : ℕ := stm32FlashStart + stm32FlashSize

/-- The cell at a bus address. -/
def stm32Cell (addr : ℕ) : ℕ := (addr + (2 ^ 32 - stm32FlashStart)) % 2 ^ 32

/-! ## Sectors -/

/-- `ADDR_FLASH_SECTOR_0` to `ADDR_FLASH_SECTOR_12`, the last of which is the end. -/
def addrFlashSector : Fin 13 → ℕ
  | 0 => 0x08000000
  | 1 => 0x08004000
  | 2 => 0x08008000
  | 3 => 0x0800C000
  | 4 => 0x08010000
  | 5 => 0x08020000
  | 6 => 0x08040000
  | 7 => 0x08060000
  | 8 => 0x08080000
  | 9 => 0x080A0000
  | 10 => 0x080C0000
  | 11 => 0x080E0000
  | 12 => 0x08100000

/-- `GetSector`: outside the flash it is sector 0. -/
def getSector (address : ℕ) : ℕ :=
  (((List.finRange 12).find? fun k =>
    address < addrFlashSector k.succ ∧ addrFlashSector k.castSucc ≤ address).map (·.val)).getD 0

/-- `FLASH_Erase_Sector`, for the sectors the chip has. -/
def flashEraseSector (cells : Cells) (index : ℕ) : Cells :=
  if h : index < 12 then
    let k : Fin 12 := ⟨index, h⟩
    erase cells (addrFlashSector k.castSucc - stm32FlashStart)
      (addrFlashSector k.succ - addrFlashSector k.castSucc)
  else
    cells

section

variable (o : ℕ → Outcome)

/-- The loop of `HAL_FLASHEx_Erase`. -/
def halFlashExErase (k : ℕ) (cells : Cells) (index last : ℕ) : Bool × Cells :=
  if index < last then
    let cells := (o k).cells cells (flashEraseSector cells index)
    match o k with
    | .failed _ => (false, cells)
    | .ok => halFlashExErase (k + 1) cells (index + 1) last
  else
    (true, cells)
termination_by last - index

/-! ## `drv_flash_f4.c` -/

def stm32FlashRead (cells : Cells) (addr : ℕ) (buf : Mem) (size : ℕ) : ℤ × Mem :=
  if stm32FlashEnd < (addr + size) % 2 ^ 32 then (-1, buf)
  else (toInt size, fun i => if i < size then cells (stm32Cell (addr + i)) else buf i)

/-- Four bytes where the address is a word's and as many are left, two
where it is a half word's, or one. -/
def writeSize (addr left : ℕ) : ℕ :=
  if addr % 4 = 0 ∧ 4 ≤ left then 4 else if addr % 2 = 0 ∧ 2 ≤ left then 2 else 1

/-- `HAL_FLASH_Program`, of `width` bytes. -/
def halFlashProgram (cells : Cells) (address width : ℕ) (data : Mem) : Cells :=
  if stm32Cell address < stm32FlashSize then program cells (stm32Cell address) width data
  else cells

/-- The loop of `stm32_flash_write`: each program is read back. -/
def stm32WriteLoop (k : ℕ) (cells : Cells) (addr : ℕ) (buf : Mem) (size written : ℕ) :
    Bool × Cells :=
  if written < size then
    let width := writeSize (addr + written) (size - written)
    let data : Mem := fun i => buf (written + i)
    let cells := (o k).cells cells (halFlashProgram cells (addr + written) width data)
    match o k with
    | .failed _ => (false, cells)
    | .ok =>
      if ∃ i ∈ List.range width, cells (stm32Cell (addr + written + i)) ≠ data i then
        (false, cells)
      else stm32WriteLoop (k + 1) cells addr buf size (written + width)
  else
    (true, cells)
termination_by size - written
decreasing_by
  unfold writeSize
  split
  · omega
  · split <;> omega

/-- `stm32_flash_write`; `RT_EINVAL` is 10 and `RT_ERROR` 1. -/
def stm32FlashWrite (cells : Cells) (addr : ℕ) (buf : Mem) (size : ℕ) : ℤ × Cells :=
  if stm32FlashEnd < (addr + size) % 2 ^ 32 then (-10, cells)
  else if size < 1 then (-10, cells)
  else
    let (ok, cells) := stm32WriteLoop o 0 cells addr buf size 0
    if ok then (toInt size, cells) else (-1, cells)

def stm32FlashErase (cells : Cells) (addr size : ℕ) : ℤ × Cells :=
  if stm32FlashEnd < (addr + size) % 2 ^ 32 then (-10, cells)
  else if size < 1 then (-10, cells)
  else
    let firstSector := getSector addr
    let nbOfSectors :=
      (getSector ((addr + size - 1) % 2 ^ 32) + (2 ^ 32 - firstSector) + 1) % 2 ^ 32
    let (ok, cells) :=
      halFlashExErase o 0 cells firstSector ((nbOfSectors + firstSector) % 2 ^ 32)
    if ok then (toInt size, cells) else (-1, cells)

end

/-- `stm32_onchip_flash_128k`. -/
def stm32OnchipFlash128k : FalFlashDev (ℕ → Outcome) where
  len := stm32FlashSize
  cell := fun offset => stm32Cell (stm32FlashStart + offset)
  read := fun cells _ offset buf size =>
    stm32FlashRead cells ((stm32FlashStart + offset) % 2 ^ 32) buf size
  write := fun cells o offset buf size =>
    stm32FlashWrite o cells ((stm32FlashStart + offset) % 2 ^ 32) buf size
  erase := fun cells o offset size =>
    stm32FlashErase o cells ((stm32FlashStart + offset) % 2 ^ 32) size

end Flash

end RtSpark
