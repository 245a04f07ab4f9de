import RtSpark.Flash.Model.Fal
/-!
# The W25Q64

The functions of `sfud.c` the port calls, and the port,
`fal_spi_flash_sfud_port.c`. The chip takes 24 address bits and has 8 MiB,
so it decodes the low 23. Its erase sizes come from its SFDP table, where
it has one.

The command of step `k` of a loop comes to `o k`.
-/

namespace RtSpark

namespace Flash

open Nor

/-- `chip.capacity`. -/
def w25q64Capacity : ℕ := 8 * 1024 * 1024

/-- The cell the chip selects for an address. -/
def w25q64Cell (addr : ℕ) : ℕ := addr % w25q64Capacity

/-- `sfud_err`. The codes a command to the chip fails with are one: which
of them it is nobody looks at. -/
inductive SfudErr where
  | success
  | addrOutOfBound
  | command
deriving DecidableEq

/-- The result of a command. -/
def Outcome.sfudErr : Outcome → SfudErr
  | .ok => .success
  | .failed _ => .command

/-- The eraser sizes of `sfud_sfdp`, the smallest first and 0 where there
are fewer than four: whole parts of 64 KiB. -/
structure Sfdp where
  eraser : Fin 4 → ℕ
  smallest : eraser 0 ≠ 0
  blocks : ∀ i, eraser i ≠ 0 → eraser i ∣ 64 * 1024

/-- `sfud_flash`, where `sfdp.available` or not. -/
structure SfudFlash where
  sfdp : Option Sfdp

/-- `chip.erase_gran`. -/
def eraseGran : ℕ := 4096

/-- `sfud_sfdp_get_suitable_eraser`. -/
def sfudSfdpGetSuitableEraser (sfdp : Sfdp) (addr eraseSize : ℕ) : Fin 4 :=
  if addr % sfdp.eraser 0 ≠ 0 then 0
  else
    (([3, 2, 1, 0] : List (Fin 4)).find? fun i =>
      sfdp.eraser i ≠ 0 ∧ sfdp.eraser i ≤ eraseSize ∧ addr % sfdp.eraser i = 0).getD 0

def curEraseSize (flash : SfudFlash) (addr size : ℕ) : ℕ :=
  match flash.sfdp with
  | some sfdp => sfdp.eraser (sfudSfdpGetSuitableEraser sfdp addr size)
  | none => eraseGran

/-- An eraser of the table is chosen, never one of size 0. -/
theorem sfudSfdpGetSuitableEraser_ne_zero (sfdp : Sfdp) (addr eraseSize : ℕ) :
    sfdp.eraser (sfudSfdpGetSuitableEraser sfdp addr eraseSize) ≠ 0 := by
  unfold sfudSfdpGetSuitableEraser
  split
  · exact sfdp.smallest
  · cases hfind : ([3, 2, 1, 0] : List (Fin 4)).find? fun i =>
      sfdp.eraser i ≠ 0 ∧ sfdp.eraser i ≤ eraseSize ∧ addr % sfdp.eraser i = 0 with
    | none => exact sfdp.smallest
    | some i =>
      have hi := List.find?_some hfind
      simp only [decide_eq_true_eq] at hi
      exact hi.1

theorem curEraseSize_dvd (flash : SfudFlash) (addr size : ℕ) :
    curEraseSize flash addr size ∣ 64 * 1024 := by
  unfold curEraseSize
  split
  · exact Sfdp.blocks _ _ (sfudSfdpGetSuitableEraser_ne_zero _ addr size)
  · exact ⟨16, rfl⟩

theorem curEraseSize_pos (flash : SfudFlash) (addr size : ℕ) :
    0 < curEraseSize flash addr size :=
  Nat.pos_of_dvd_of_pos (curEraseSize_dvd flash addr size) (by decide)

section

variable (flash : SfudFlash) (o : ℕ → Outcome)

/-- `sfud_read`. A read that fails leaves the buffer. -/
def sfudRead (cells : Cells) (addr size : ℕ) (data : Mem) : SfudErr × Mem :=
  if w25q64Capacity < (addr + size) % 2 ^ 32 then (.addrOutOfBound, data)
  else
    match o 0 with
    | .ok => (.success, fun i => if i < size then cells (w25q64Cell (addr + i)) else data i)
    | .failed _ => (.command, data)

def sfudChipErase (cells : Cells) : SfudErr × Cells :=
  ((o 0).sfudErr, (o 0).cells cells (erase cells 0 w25q64Capacity))

/-- The loop of `sfud_erase`: the block that holds `addr`, then on from its
end. -/
def sfudEraseLoop (k : ℕ) (cells : Cells) (addr size : ℕ) : SfudErr × Cells :=
  if size = 0 then (.success, cells)
  else
    let curEraseSize := curEraseSize flash addr size
    let cells := (o k).cells cells (eraseBlock cells curEraseSize (w25q64Cell addr))
    match o k with
    | .failed _ => (.command, cells)
    | .ok =>
      -- on an aligned address this is the whole block
      let rest := curEraseSize - addr % curEraseSize
      if rest < size then sfudEraseLoop (k + 1) cells ((addr + rest) % 2 ^ 32) (size - rest)
      else (.success, cells)
termination_by size
decreasing_by
  have := Nat.mod_lt addr (curEraseSize_pos flash addr size)
  omega

def sfudErase (cells : Cells) (addr size : ℕ) : SfudErr × Cells :=
  if w25q64Capacity < (addr + size) % 2 ^ 32 then (.addrOutOfBound, cells)
  else if addr = 0 ∧ size = w25q64Capacity then sfudChipErase o cells
  else sfudEraseLoop flash o 0 cells addr size

/-- The loop of `page256_or_1_byte_write`, at a granularity of 256: up to
the end of the page, then on from there. -/
def sfudWriteLoop (k : ℕ) (cells : Cells) (addr size : ℕ) (data : Mem) : SfudErr × Cells :=
  if size = 0 then (.success, cells)
  else
    let dataSize := min size (256 - addr % 256)
    let cells := (o k).cells cells (program cells (w25q64Cell addr) dataSize data)
    match o k with
    | .failed _ => (.command, cells)
    | .ok =>
      sfudWriteLoop (k + 1) cells ((addr + dataSize) % 2 ^ 32) (size - dataSize)
        fun i => data (i + dataSize)
termination_by size
decreasing_by
  have := Nat.mod_lt addr (by omega : 0 < 256)
  omega

/-- `sfud_write`, in the chip's page mode. -/
def sfudWrite (cells : Cells) (addr size : ℕ) (data : Mem) : SfudErr × Cells :=
  if w25q64Capacity < (addr + size) % 2 ^ 32 then (.addrOutOfBound, cells)
  else sfudWriteLoop o 0 cells addr size data

end

/-! ## The port -/

/-- `w25q64`, whose `addr` is 0. -/
def w25q64 (flash : SfudFlash) : FalFlashDev (ℕ → Outcome) where
  len := w25q64Capacity
  cell := w25q64Cell
  read := fun cells o offset buf size =>
    -- what `sfud_read` returns is dropped
    let (_, buf) := sfudRead o cells offset size buf
    (toInt size, buf)
  write := fun cells o offset buf size =>
    let (err, cells) := sfudWrite o cells offset size buf
    if err ≠ .success then (-1, cells) else (toInt size, cells)
  erase := fun cells o offset size =>
    let (err, cells) := sfudErase flash o cells offset size
    if err ≠ .success then (-1, cells) else (toInt size, cells)

end Flash

end RtSpark
