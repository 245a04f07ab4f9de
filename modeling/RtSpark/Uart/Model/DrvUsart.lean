import Mathlib.Data.Nat.Notation
import Mathlib.Algebra.Group.Nat.Defs
/-!
# DMA reception

The receiving side of `drv_usart.c` with a circular DMA behind it. The
stream counts down from the size of the buffer and is reloaded when it has
gone round; it raises its half-transfer and transfer-complete flags on the
way, and the line raises the idle flag. A handler runs in one step.
-/

namespace RtSpark

namespace Uart

/-- What `rt_hw_serial_isr` is told. Of the length in an
`RT_SERIAL_EVENT_RX_DMADONE` word twenty-four bits are kept. -/
inductive SerialEvent where
  | rxInd
  | rxDmadone (recvLen : ℕ)
deriving DecidableEq

/-- Subtraction of `rt_size_t`. -/
def sub32 (a b : ℕ) : ℕ := (a + 2 ^ 32 - b) % 2 ^ 32

end Uart

open Uart

/-- `struct stm32_uart` and the registers its reception uses: the flags, the
interrupt sources that are enabled, and the counter of the stream. `stored`
counts what the DMA has put in the buffer so far, and `served` what it had
when a handler last looked. -/
structure Uart where
  bufsz : ℕ
  uartDmaFlag : Bool
  lastIndex : ℕ
  counter : ℕ
  flagRxne : Bool
  flagIdle : Bool
  flagHt : Bool
  flagTc : Bool
  itRxne : Bool
  itIdle : Bool
  itHt : Bool
  itTc : Bool
  events : List SerialEvent
  stored : ℕ
  served : ℕ
deriving DecidableEq

namespace Uart

/-- What `stm32_configure` and `stm32_dma_config` leave for a receiver with
a buffer of `bufsz` bytes. -/
def dmaConfig (bufsz : ℕ) : Uart where
  bufsz := bufsz
  uartDmaFlag := true
  lastIndex := 0
  counter := bufsz
  flagRxne := false
  flagIdle := false
  flagHt := false
  flagTc := false
  itRxne := false
  itIdle := true
  itHt := true
  itTc := true
  events := []
  stored := 0
  served := 0

def rtHwSerialIsr (serial : Uart) (event : SerialEvent) : Uart :=
  { serial with events := serial.events ++ [event] }

/-- The report both handlers end in. -/
def report (serial : Uart) (recvLen : ℕ) : Uart :=
  if recvLen ≠ 0 then serial.rtHwSerialIsr (.rxDmadone (recvLen % 2 ^ 24)) else serial

/-- `uart_isr`, as far as it receives. -/
def uartIsr (serial : Uart) : Uart :=
  if serial.flagRxne ∧ serial.itRxne then serial.rtHwSerialIsr .rxInd
  else if serial.uartDmaFlag ∧ serial.flagIdle ∧ serial.itIdle then
    let recvTotalIndex := sub32 serial.bufsz serial.counter
    let recvLen := sub32 recvTotalIndex serial.lastIndex
    let serial := { serial with lastIndex := recvTotalIndex }
    { serial.report recvLen with flagIdle := false }
  else serial

/-- `dma_isr`. -/
def dmaIsr (serial : Uart) : Uart :=
  if serial.itTc ∨ serial.itHt then
    let recvTotalIndex := sub32 serial.bufsz serial.counter
    let recvLen :=
      if recvTotalIndex = 0 then sub32 serial.bufsz serial.lastIndex
      else (sub32 serial.bufsz serial.lastIndex + recvTotalIndex) % 2 ^ 32
    { serial with lastIndex := recvTotalIndex }.report recvLen
  else serial

/-- `HAL_UART_RxHalfCpltCallback`. -/
def halUartRxHalfCpltCallback (huart : Uart) : Uart := huart.dmaIsr

/-- `HAL_UART_RxCpltCallback`. -/
def halUartRxCpltCallback (huart : Uart) : Uart := huart.dmaIsr

/-! ## The receiver in time -/

/-- What happens next: the DMA stores a byte, the line falls idle, or one of
the three interrupts is taken. -/
inductive RxEvent where
  | byte
  | lineIdle
  | idleIrq
  | halfIrq
  | completeIrq
deriving DecidableEq

/-- The DMA stores a byte. -/
def store (serial : Uart) : Uart :=
  if serial.counter = 1 then
    { serial with counter := serial.bufsz, flagTc := true, stored := serial.stored + 1 }
  else
    { serial with
      counter := serial.counter - 1
      flagHt := serial.flagHt || serial.counter - 1 == serial.bufsz / 2
      stored := serial.stored + 1 }

/-- A handler has looked at the counter. -/
def serve (serial : Uart) : Uart := { serial with served := serial.stored }

/-- One event. An interrupt whose flag is not up is not taken, and
`HAL_DMA_IRQHandler` clears the flag before the callback. -/
def rxStep (serial : Uart) : RxEvent → Uart
  | .byte => serial.store
  | .lineIdle => { serial with flagIdle := true }
  | .idleIrq => if serial.flagIdle then serial.uartIsr.serve else serial
  | .halfIrq =>
    if serial.flagHt then { serial with flagHt := false }.halUartRxHalfCpltCallback.serve
    else serial
  | .completeIrq =>
    if serial.flagTc then { serial with flagTc := false }.halUartRxCpltCallback.serve
    else serial

end Uart

end RtSpark
