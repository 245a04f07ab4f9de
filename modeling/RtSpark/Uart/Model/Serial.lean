import RtSpark.Uart.Model.DrvUsart
import Mathlib.Logic.Function.Basic
/-!
# The receive fifo of a serial device

The receiving side of `serial.c`: the software fifo between the interrupt
and `rt_serial_read`, filled byte by byte where the device was opened with
`RT_DEVICE_FLAG_INT_RX`, and told of lengths where it was opened with
`RT_DEVICE_FLAG_DMA_RX` and the DMA fills the buffer itself.
-/

namespace RtSpark

namespace Uart

/-- `struct rt_serial_rx_fifo`, with `config.bufsz`. -/
structure RxFifo where
  buffer : ℕ → UInt8
  putIndex : ℕ
  getIndex : ℕ
  isFull : Bool
  bufsz : ℕ

namespace RxFifo

/-- What `rt_serial_open` sets up. -/
def opened (bufsz : ℕ) : RxFifo where
  buffer := fun _ => 0
  putIndex := 0
  getIndex := 0
  isFull := false
  bufsz := bufsz

/-- `_serial_fifo_calc_recved_len`, and `rt_dma_calc_recved_len`. -/
def calcRecvedLen (f : RxFifo) : ℕ :=
  if f.putIndex = f.getIndex then
    if f.isFull = false then 0 else f.bufsz
  else if f.getIndex < f.putIndex then f.putIndex - f.getIndex
  else f.bufsz - (f.getIndex - f.putIndex)

/-! ## Byte by byte -/

/-- One byte of the loop of `RT_SERIAL_EVENT_RX_IND`. -/
def rxChar (f : RxFifo) (ch : UInt8) : RxFifo :=
  let put := if f.bufsz ≤ f.putIndex + 1 then 0 else f.putIndex + 1
  let f := { f with buffer := Function.update f.buffer f.putIndex ch, putIndex := put }
  -- the next position is the read index: the oldest byte is discarded
  if f.putIndex = f.getIndex then
    { f with
      getIndex := if f.bufsz ≤ f.getIndex + 1 then 0 else f.getIndex + 1
      isFull := true }
  else f

/-- `RT_SERIAL_EVENT_RX_IND`, with what `getc` gives until it gives `-1`. -/
def isrRxInd (f : RxFifo) (chs : List UInt8) : RxFifo := chs.foldl rxChar f

/-- `_serial_int_rx`: at most `length` bytes. -/
def serialIntRx : RxFifo → ℕ → RxFifo × List UInt8
  | f, 0 => (f, [])
  | f, length + 1 =>
    if f.getIndex = f.putIndex ∧ f.isFull = false then (f, [])
    else
      let ch := f.buffer f.getIndex
      let get := if f.bufsz ≤ f.getIndex + 1 then 0 else f.getIndex + 1
      let rest := serialIntRx { f with getIndex := get, isFull := false } length
      (rest.1, ch :: rest.2)

/-! ## Told of lengths -/

/-- A sum in `rt_uint16_t`, which the indices are. -/
def add16 (i len : ℕ) : ℕ := (i + len) % 2 ^ 16

/-- `rt_dma_recv_update_get_index`; `none` where its assertion fails. -/
def recvUpdateGetIndex (f : RxFifo) (len : ℕ) : Option RxFifo :=
  if len ≤ f.calcRecvedLen then
    let get := add16 f.getIndex len
    some { f with
      isFull := if f.isFull = true ∧ len ≠ 0 then false else f.isFull
      getIndex := if f.bufsz ≤ get then get % f.bufsz else get }
  else none

/-- The end of `rt_dma_recv_update_put_index`: a full fifo is read from where
the next byte goes. -/
def readOldest (f : RxFifo) : RxFifo :=
  if f.isFull = true then { f with getIndex := f.putIndex } else f

/-- `rt_dma_recv_update_put_index`. -/
def recvUpdatePutIndex (f : RxFifo) (len : ℕ) : RxFifo :=
  let put := add16 f.putIndex len
  readOldest <|
    if f.getIndex ≤ f.putIndex then
      if f.bufsz ≤ put then
        { f with
          putIndex := put % f.bufsz
          isFull := if f.getIndex ≤ put % f.bufsz then true else f.isFull }
      else { f with putIndex := put }
    else if f.getIndex ≤ put then
      { f with putIndex := if f.bufsz ≤ put then put % f.bufsz else put, isFull := true }
    else { f with putIndex := put }

/-- `n` bytes of the buffer from `i` on. -/
def bytes (f : RxFifo) (i n : ℕ) : List UInt8 := (List.range n).map fun j => f.buffer (i + j)

/-- `_serial_dma_rx`: at most `length` bytes, in one copy or in two. -/
def serialDmaRx (f : RxFifo) (length : ℕ) : Option (RxFifo × List UInt8) :=
  let recvLen := if length < f.calcRecvedLen then length else f.calcRecvedLen
  let data :=
    if f.getIndex + recvLen < f.bufsz then f.bytes f.getIndex recvLen
    else f.bytes f.getIndex (f.bufsz - f.getIndex) ++ f.bytes 0 (recvLen + f.getIndex - f.bufsz)
  (f.recvUpdateGetIndex recvLen).map fun f => (f, data)

/-- `rt_hw_serial_isr` in this mode. -/
def rtHwSerialIsr (f : RxFifo) : SerialEvent → RxFifo
  | .rxDmadone recvLen => f.recvUpdatePutIndex recvLen
  | .rxInd => f

end RxFifo

end Uart

end RtSpark
