import RtSpark.Common.Loop
import RtSpark.Common.Word
/-!
# The SPI transfer

`spixfer` of `drv_spi.c` cuts a message into transfers of at most 65535
bytes. Lengths and addresses are thirty-two bits wide. The DMA and the
polling functions of the HAL take the same arguments and are one call
here; what the hardware answers to the call number `k` is `ok k`.
-/

namespace RtSpark

namespace Spi

open Word

/-- The fields of `rt_spi_message` the transfer reads; a buffer is its
address, zero where there is none. -/
structure SpiMessage where
  sendBuf : ℕ
  recvBuf : ℕ
  length : ℕ

/-- A call of the HAL, with its addresses and its length. What a call of
`receive` is given was filled with `0xff` before. -/
inductive SpiCall where
  | transmitReceive (sendBuf recvBuf sendLength : ℕ)
  | transmit (sendBuf sendLength : ℕ)
  | receive (recvBuf sendLength : ℕ)
deriving DecidableEq

structure XferState where
  messageLength : ℕ
  /-- `message->length`. -/
  length : ℕ
  /-- The calls made so far. -/
  calls : List SpiCall

/-- The call a chunk is transferred by. -/
def startCall (msg : SpiMessage) (alreadySendLength sendLength : ℕ) : SpiCall :=
  let sendBuf := u32 (msg.sendBuf + alreadySendLength)
  let recvBuf := u32 (msg.recvBuf + alreadySendLength)
  if msg.sendBuf ≠ 0 ∧ msg.recvBuf ≠ 0 then .transmitReceive sendBuf recvBuf sendLength
  else if msg.sendBuf ≠ 0 then .transmit sendBuf sendLength
  else .receive recvBuf sendLength

/-- One pass of the loop. -/
def spixferPass (ok : ℕ → Bool) (msg : SpiMessage) (s : XferState) : Option XferState :=
  if s.messageLength = 0 then
    none
  else
    let sendLength := if 65535 < s.messageLength then 65535 else s.messageLength
    let messageLength := if 65535 < s.messageLength then s.messageLength - 65535 else 0
    let alreadySendLength := sub32 (sub32 s.length sendLength) messageLength
    some {
      messageLength := messageLength
      length := if ok s.calls.length then s.length else 0
      calls := s.calls ++ [startCall msg alreadySendLength sendLength] }

/-- What the loop of `spixfer` begins with. -/
def spixferInit (msg : SpiMessage) : XferState := ⟨msg.length, msg.length, []⟩

/-- `spixfer`: what it returns, and the calls it made. Every pass takes
from the length, so that many are enough. -/
def spixfer (ok : ℕ → Bool) (msg : SpiMessage) : ℕ × List SpiCall :=
  let s := Loop.run (spixferPass ok msg) (msg.length + 1) (spixferInit msg)
  (s.length, s.calls)

end Spi

end RtSpark
