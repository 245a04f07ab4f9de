import RtSpark.Reader.Model.Reader
import RtSpark.Flash.Model.SpiFlash
import RtSpark.Common.Loop
/-!
# The file commands

`SD_Read` and `hal::sd_fontlib_update` of `hal_sdcard.cpp` and
`SPI_Flash_FontLibUpdate` of `hal_spi_flash.cpp`, as far as their control
goes: the reads they make, the stretches of their buffer they store to,
the descriptors that are open and what they return. Whatever they call
answers as it likes: `reads k` is `none` where the `read()` number `k`
fails, and otherwise how much the file had, of which it delivers at most
as many bytes as it was asked for.
-/

namespace RtSpark

namespace SdCard

open Reader (fdAlloc)
open Flash (bufSize)

structure CmdState where
  /-- The calls of `read()` so far. -/
  reads : ℕ
  total : ℕ
  ret : ℤ
  /-- The stretches of the buffer stored to, by start and length. -/
  stores : List (ℕ × ℕ)
  fds : Finset ℕ
  /-- What the function has returned. -/
  returned : Option ℤ

namespace CmdState

def start (fds : Finset ℕ) : CmdState := ⟨0, 0, 0, [], fds, none⟩

/-- An `open` that succeeds. -/
def opened (s : CmdState) : CmdState := { s with fds := insert (fdAlloc s.fds) s.fds }

def close (s : CmdState) (fd : ℕ) : CmdState := { s with fds := s.fds.erase fd }

def store (s : CmdState) (first count : ℕ) : CmdState :=
  { s with stores := s.stores ++ [(first, count)] }

/-- `return ret;` -/
def leave (s : CmdState) (ret : ℤ) : CmdState := { s with returned := some ret }

end CmdState

/-! ## `SD_Read` -/

/-- `sizeof(buf)`. -/
def sdReadBuf : ℕ := 128

def sdReadStart (argc : ℤ) (opens : Bool) (fds : Finset ℕ) : CmdState :=
  if argc ≠ 2 then (CmdState.start fds).leave 1
  else if opens = false then (CmdState.start fds).leave (-1)
  else (CmdState.start fds).opened.store 0 sdReadBuf

/-- One pass of the loop of `SD_Read`. -/
def sdReadPass (reads : ℕ → Option ℕ) (fd : ℕ) (s : CmdState) : Option CmdState :=
  if s.returned.isSome then
    none
  else
    match reads s.reads with
    | none => some ({ s with reads := s.reads + 1 }.leave (-1))
    | some n =>
      let cnt := min n (sdReadBuf - 1)
      let s := (({ s with reads := s.reads + 1 } : CmdState).store 0 cnt).store cnt 1
      if cnt ≠ sdReadBuf - 1 then some ((s.close fd).leave 0) else some s

/-! ## `hal::sd_fontlib_update` -/

/-- `buf_size`. -/
def fontBufSize : ℕ := 1024 * 2

/-- The block of `rt_malloc` is there, or `RT_ASSERT` would not come back. -/
def sdFontlibStart (opens : Bool) (fds : Finset ℕ) : CmdState :=
  if opens = false then (CmdState.start fds).leave 0 else (CmdState.start fds).opened

/-- One pass of the loop of `hal::sd_fontlib_update`, which returns
nothing. -/
def sdFontlibPass (reads : ℕ → Option ℕ) (fd : ℕ) (s : CmdState) : Option CmdState :=
  if s.returned.isSome then
    none
  else
    match reads s.reads with
    | none => some ((({ s with reads := s.reads + 1 } : CmdState).close fd).leave 0)
    | some n =>
      some ((({ s with reads := s.reads + 1 } : CmdState).store 0 (min n (fontBufSize - 1))).store
        fontBufSize 1)

/-! ## `SPI_Flash_FontLibUpdate` -/

/-- What the calls of an update come to. -/
structure FontLibCalls where
  argc : ℤ
  opens : Bool
  /-- `f_stat.st_size`. -/
  stSize : ℕ
  /-- `argv[1]` is not null. -/
  name : Bool
  /-- The length of the partition found. -/
  partition : Option ℕ
  device : Bool
  erase : ℤ
  /-- The read of the erased partition at an index: its result, and
  whether it finds `0xFF` only. -/
  verify : ℕ → ℤ × Bool
  reads : ℕ → Option ℕ
  writes : ℕ → ℤ

/-- The loop that checks the erased partition. -/
def verifyLoop (verify : ℕ → ℤ × Bool) (len i : ℕ) (s : CmdState) : CmdState :=
  if i < len then
    let n := if bufSize < len - i then bufSize else len - i
    let s := { (s.store 0 bufSize).store 0 n with ret := (verify i).1 }
    if (verify i).1 < 0 then s.leave (-6)
    else if (verify i).2 = false then s.leave (-7)
    else verifyLoop verify len (i + n) s
  else
    s
termination_by len - i
decreasing_by
  unfold bufSize
  split <;> omega

/-- An update on the partition found, up to the copy loop. -/
def fontLibFound (c : FontLibCalls) (len : ℕ) (s : CmdState) : CmdState :=
  if c.device = false then s.leave (-4)
  else if c.erase < 0 then s.leave (-5)
  else
    let s := verifyLoop c.verify len 0 { s.store 0 bufSize with ret := c.erase }
    if s.returned.isSome then s else s.store 0 bufSize

/-- Up to the copy loop. -/
def fontLibStart (c : FontLibCalls) (fds : Finset ℕ) : CmdState :=
  if c.argc ≠ 3 then (CmdState.start fds).leave (-1)
  else if c.opens = false then (CmdState.start fds).leave (-1)
  else if c.name = false then (CmdState.start fds).opened.leave (-2)
  else
    match c.partition with
    | none => (CmdState.start fds).opened.leave (-3)
    | some len => fontLibFound c len (CmdState.start fds).opened

/-- One pass of the copy loop, or what follows it. -/
def fontLibPass (c : FontLibCalls) (fd : ℕ) (s : CmdState) : Option CmdState :=
  if s.returned.isSome then
    none
  else if s.total < c.stSize % 2 ^ 32 ∧ s.total < c.partition.getD 0 then
    match c.reads s.reads with
    | none => some ((({ s with reads := s.reads + 1 } : CmdState).close fd).leave s.ret)
    | some n =>
      let rx := min n bufSize
      let s : CmdState := { s.store 0 rx with reads := s.reads + 1, ret := c.writes s.reads }
      if s.ret < 0 then some (s.leave (-8))
      else some { s with total := (s.total + rx) % 2 ^ 32 }
  else
    some ((s.close fd).leave s.ret)

end SdCard

end RtSpark
