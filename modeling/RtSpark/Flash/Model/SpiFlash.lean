import RtSpark.Flash.Model.SfudPort
import RtSpark.Flash.Model.DrvFlash
import RtSpark.Lcd.Model.Draw
/-!
# `hal_spi_flash.cpp`

The board's two flash devices, and the read and the font update over them.
The contents of the devices are given by the devices' names.
-/

namespace RtSpark

namespace Flash

open Nor

/-- `FAL_FLASH_DEV_TABLE`. -/
def falFlashDevTable (flash : SfudFlash) : List (String × FalFlashDev (ℕ → Outcome)) :=
  [("onchip_flash_128k", stm32OnchipFlash128k), ("W25Q64", w25q64 flash)]

section

variable {ω : Type} (devTable : List (String × FalFlashDev ω))

/-- `hal::spi_flash_read`: its result, and the buffer. -/
def spiFlashRead (contents : String → Cells) (o : ω) (partitonName : Option String)
    (destBuf : Mem) (startOffset : UInt32) (fontLen : UInt16) : ℤ × Mem :=
  match partitonName with
  | none => (-1, destBuf)
  | some name =>
    match falPartitionFind name with
    | none => (-1, destBuf)
    | some partition =>
      match falFlashDeviceFind devTable partition.flashName with
      | none => (-1, destBuf)
      | some _ =>
        let (err, destBuf) := falPartitionRead devTable partition (contents partition.flashName) o
          startOffset.toNat destBuf fontLen.toNat
        if err < 0 then (err, destBuf) else (0, destBuf)

/-! ## The font partition -/

/-- What `lcd_show_chinese` has in its buffer once it has read a glyph, or
`none` where the read returns an error. The buffer is `char buf[128] = {0}`. -/
def fontRead (contents : String → Cells) (o : ω) (beyond : Mem) (fontAddr fontUsed : ℕ) :
    Option Mem :=
  let (err, buf) := spiFlashRead devTable contents o (some "font") (Mem.buffer 128 [] beyond)
    (UInt32.ofNat fontAddr) (UInt16.ofNat fontUsed)
  if err ≠ 0 then none else some buf

/-! ## `SPI_Flash_FontLibUpdate` -/

/-- `BUF_SIZE`. -/
def bufSize : ℕ := 512

/-- The font library, whose size is a 32-bit field on the volume, and what
the calls of an update come to: the `open`, the erase, the read of the
chunk at each index, and each `read()` of the file with the write after
it. A `read()` fails, or delivers at most so many of the bytes left. -/
structure UpdateCalls (ω : Type) where
  file : List UInt8
  fits : file.length < 2 ^ 32
  opens : Bool
  erase : ω
  verify : ℕ → ω
  copies : List (Option ℕ × ω)

/-- The length of the chunk at index `i`. -/
def chunkLen (part : FalPartition) (i : ℕ) : ℕ :=
  if bufSize < part.len - i then bufSize else part.len - i

theorem chunkLen_bounds {part : FalPartition} {i : ℕ} (h : i < part.len) :
    0 < chunkLen part i ∧ chunkLen part i ≤ bufSize ∧ i + chunkLen part i ≤ part.len := by
  unfold chunkLen bufSize
  split <;> omega

/-- The loop that reads the erased partition back from index `i` on: the
`ret` it leaves, or what the function returns from inside it. -/
def eraseCheck (part : FalPartition) (cells : Cells) (o : ℕ → ω) (i : ℕ) (ret : ℤ) :
    Except ℤ ℤ :=
  if i < part.len then
    let len := chunkLen part i
    let r := falPartitionRead devTable part cells (o i) i Mem.zeros len
    if r.1 < 0 then .error (-6)
    else if ∃ j ∈ List.range len, r.2 j ≠ 0xFF then .error (-7)
    else eraseCheck part cells o (i + len) r.1
  else
    .ok ret
termination_by part.len - i
decreasing_by
  have := chunkLen_bounds (by assumption : i < part.len)
  omega

structure CopyState where
  total : ℕ
  /-- Where the file stands. -/
  pos : ℕ
  ret : ℤ
  buf : Mem
  cells : Cells

/-- The copy loop: what the function returns, unless it is still waiting
in `read()`, and the cells. -/
def copyLoop (part : FalPartition) (file : List UInt8) :
    List (Option ℕ × ω) → CopyState → Option ℤ × Cells
  | [], s =>
    if s.total < file.length % 2 ^ 32 ∧ s.total < part.len then (none, s.cells)
    else (some s.ret, s.cells)
  | (got, o) :: copies, s =>
    if s.total < file.length % 2 ^ 32 ∧ s.total < part.len then
      match got with
      -- `break` keeps the `ret` of the call before
      | none => (some s.ret, s.cells)
      | some count =>
        let data := (file.drop s.pos).take (min count bufSize)
        let buf : Mem := fun i => if i < data.length then data.getD i 0 else s.buf i
        let r := falPartitionWrite devTable part s.cells o s.total buf data.length
        if r.1 < 0 then (some (-8), r.2)
        else
          copyLoop part file copies {
            total := (s.total + data.length) % 2 ^ 32
            pos := s.pos + data.length
            ret := r.1
            buf := buf
            cells := r.2 }
    else
      (some s.ret, s.cells)

/-- An update on the partition found. -/
def updatePartition (part : FalPartition) (cells : Cells) (c : UpdateCalls ω) :
    Option ℤ × Cells :=
  match falFlashDeviceFind devTable part.flashName with
  | none => (some (-4), cells)
  | some _ =>
    let r := falPartitionEraseAll devTable part cells c.erase
    if r.1 < 0 then (some (-5), r.2)
    else
      match eraseCheck devTable part r.2 c.verify 0 r.1 with
      | .error e => (some e, r.2)
      | .ok ret => copyLoop devTable part c.file c.copies ⟨0, 0, ret, Mem.zeros, r.2⟩

/-- `SPI_Flash_FontLibUpdate`, called with the name in `argv[1]`: what it
returns, and the contents of the devices. -/
def spiFlashFontLibUpdate (contents : String → Cells) (argc : ℤ) (argv1 : Option String)
    (c : UpdateCalls ω) : Option ℤ × (String → Cells) :=
  if argc ≠ 3 then (some (-1), contents)
  else if c.opens = false then (some (-1), contents)
  else
    match argv1 with
    | none => (some (-2), contents)
    | some name =>
      match falPartitionFind name with
      | none => (some (-3), contents)
      | some part =>
        let (ret, cells) := updatePartition devTable part (contents part.flashName) c
        (ret, Function.update contents part.flashName cells)

end

end Flash

end RtSpark
