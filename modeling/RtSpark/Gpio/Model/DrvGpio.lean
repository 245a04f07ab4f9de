import Mathlib.Data.Nat.Notation
import Mathlib.Data.Int.Notation
import Mathlib.Algebra.Group.Nat.Defs
import Mathlib.Algebra.Group.Int.Defs
import Mathlib.Logic.Function.Basic
/-!
# The pin interrupts

`drv_gpio.c`, the part that registers and enables external interrupts. The
table has one row for each bit number of a port, whatever the port; a row
holds the pin it was taken for, or −1. Handlers and their arguments are
pointers, compared and never followed here.
-/

namespace RtSpark

namespace Gpio

/-- The external interrupts of `IRQn_Type`. -/
inductive IRQn where
  | exti0
  | exti1
  | exti2
  | exti3
  | exti4
  | exti9_5
  | exti15_10
deriving DecidableEq

/-- The `rt_err_t` the driver returns. -/
inductive RtErr where
  | eok
  | enosys
  | ebusy
deriving DecidableEq

/-! ## Pin numbers -/

/-- `PIN_STPORT_MAX`, with `GPIOI` the last port. -/
def pinStportMax : ℕ := 9

/-- `PIN_PORT`. -/
def pinPort (pin : ℤ) : ℕ := ((pin / 16) % 16).toNat

/-- `PIN_NO`. -/
def pinNo (pin : ℤ) : ℕ := (pin % 16).toNat

/-- `PIN_STPIN`. -/
def pinStpin (pin : ℤ) : BitVec 32 := 1#32 <<< pinNo pin

/-- `bit2bitno`; the −1 of the source is `none`. -/
def bit2bitno (bit : BitVec 32) : Option ℕ :=
  (List.range 32).find? fun i => 1#32 <<< i == bit

/-- `struct pin_irq_map`. -/
structure PinIrqMap where
  pinbit : BitVec 32
  irqno : IRQn
deriving DecidableEq

/-- The table `pin_irq_map`. -/
def pinIrqMap (i : Fin 16) : PinIrqMap where
  pinbit := 1#32 <<< i.val
  irqno :=
    if i = 0 then .exti0 else if i = 1 then .exti1 else if i = 2 then .exti2
    else if i = 3 then .exti3 else if i = 4 then .exti4
    else if i ≤ 9 then .exti9_5 else .exti15_10

/-- The row of a pin: `bit2bitno` and its two bounds. -/
def irqIndex (pin : ℤ) : Option (Fin 16) :=
  match bit2bitno (pinStpin pin) with
  | none => none
  | some i => if h : i < 16 then some ⟨i, h⟩ else none

/-! ## State -/

/-- `struct rt_pin_irq_hdr`. The pin is kept in sixteen bits, as is the
mode. -/
structure PinIrqHdr (H A : Type*) where
  pin : ℤ
  mode : ℕ
  hdr : Option H
  args : Option A
deriving DecidableEq

/-- `GPIO_PULLDOWN` and its kind. -/
inductive Pull where
  | nopull
  | pullup
  | pulldown
deriving DecidableEq

/-- `GPIO_MODE_IT_RISING` and its kind. -/
inductive ItMode where
  | rising
  | falling
  | risingFalling
deriving DecidableEq

/-- What the driver changes: its table and mask, the interrupt lines enabled
at the NVIC, and how the pins of a port are set up as interrupt inputs. -/
structure PinIrq (H A : Type*) where
  pinIrqHdrTab : Fin 16 → PinIrqHdr H A
  pinIrqEnableMask : BitVec 32
  nvic : IRQn → Bool
  gpio : ℕ → ℕ → Option (Pull × ItMode)

variable {H A : Type*}

/-- A row no pin has taken. -/
def PinIrqHdr.free : PinIrqHdr H A := ⟨-1, 0, none, none⟩

/-- The state the driver starts from. -/
def PinIrq.init : PinIrq H A where
  pinIrqHdrTab := fun _ => .free
  pinIrqEnableMask := 0
  nvic := fun _ => false
  gpio := fun _ _ => none

/-! ## Operations -/

/-- `stm32_pin_attach_irq`. -/
def stm32PinAttachIrq [DecidableEq H] [DecidableEq A] (s : PinIrq H A) (pin : ℤ) (mode : ℕ)
    (hdr : Option H) (args : Option A) : PinIrq H A × RtErr :=
  if pinStportMax ≤ pinPort pin then (s, .enosys)
  else
    match irqIndex pin with
    | none => (s, .enosys)
    | some irqindex =>
      let row := s.pinIrqHdrTab irqindex
      if row.pin = pin ∧ row.hdr = hdr ∧ row.mode = mode ∧ row.args = args then (s, .eok)
      else if row.pin ≠ -1 then (s, .ebusy)
      else
        let row := ⟨pin.bmod (2 ^ 16), mode % 2 ^ 16, hdr, args⟩
        ({ s with pinIrqHdrTab := Function.update s.pinIrqHdrTab irqindex row }, .eok)

/-- `stm32_pin_dettach_irq`. -/
def stm32PinDettachIrq (s : PinIrq H A) (pin : ℤ) : PinIrq H A × RtErr :=
  if pinStportMax ≤ pinPort pin then (s, .enosys)
  else
    match irqIndex pin with
    | none => (s, .enosys)
    | some irqindex =>
      if (s.pinIrqHdrTab irqindex).pin = -1 then (s, .eok)
      else ({ s with pinIrqHdrTab := Function.update s.pinIrqHdrTab irqindex .free }, .eok)

/-- The pull and the trigger an interrupt mode asks for; the switch of the
source has no other case. -/
def itConfig (mode : ℕ) : Option (Pull × ItMode) :=
  match mode with
  | 0 => some (.pulldown, .rising)
  | 1 => some (.pullup, .falling)
  | 2 => some (.nopull, .risingFalling)
  | _ => none

/-- The setup of one pin of one port. -/
def PinIrq.setGpio (s : PinIrq H A) (pin : ℤ) (c : Option (Pull × ItMode)) : PinIrq H A :=
  { s with gpio := fun port no =>
      if port = pinPort pin ∧ no = pinNo pin then c else s.gpio port no }

/-- The branches on `pinbit` that decide whether the line goes off with its
bit. -/
def nvicDisable (irqmap : PinIrqMap) (mask : BitVec 32) (nvic : IRQn → Bool) : IRQn → Bool :=
  if 0x0020#32 ≤ irqmap.pinbit ∧ irqmap.pinbit ≤ 0x0200#32 then
    if mask &&& 0x03E0#32 = 0 then Function.update nvic irqmap.irqno false else nvic
  else if 0x0400#32 ≤ irqmap.pinbit ∧ irqmap.pinbit ≤ 0x8000#32 then
    if mask &&& 0xFC00#32 = 0 then Function.update nvic irqmap.irqno false else nvic
  else
    Function.update nvic irqmap.irqno false

/-- `stm32_pin_irq_enable`, with `PIN_IRQ_ENABLE` 1 and `PIN_IRQ_DISABLE`
0. -/
def stm32PinIrqEnable (s : PinIrq H A) (pin : ℤ) (enabled : ℕ) : PinIrq H A × RtErr :=
  if pinStportMax ≤ pinPort pin then (s, .enosys)
  else if enabled = 1 then
    match irqIndex pin with
    | none => (s, .enosys)
    | some irqindex =>
      if (s.pinIrqHdrTab irqindex).pin = -1 then (s, .enosys)
      else
        let irqmap := pinIrqMap irqindex
        let s := s.setGpio pin (itConfig (s.pinIrqHdrTab irqindex).mode)
        ({ s with
            nvic := Function.update s.nvic irqmap.irqno true
            pinIrqEnableMask := s.pinIrqEnableMask ||| irqmap.pinbit }, .eok)
  else if enabled = 0 then
    match irqIndex pin with
    | none => (s, .enosys)
    | some irqindex =>
      let irqmap := pinIrqMap irqindex
      let s := s.setGpio pin none
      let mask := s.pinIrqEnableMask &&& ~~~irqmap.pinbit
      ({ s with pinIrqEnableMask := mask, nvic := nvicDisable irqmap mask s.nvic }, .eok)
  else (s, .enosys)

/-! ## Histories -/

/-- The operations of `_stm32_pin_ops` on interrupts. -/
inductive PinOp (H A : Type*) where
  | attach (pin : ℤ) (mode : ℕ) (hdr : Option H) (args : Option A)
  | dettach (pin : ℤ)
  | irqEnable (pin : ℤ) (enabled : ℕ)

def PinOp.pin : PinOp H A → ℤ
  | .attach pin .. => pin
  | .dettach pin => pin
  | .irqEnable pin _ => pin

/-- The state an operation leaves. -/
def pinStep [DecidableEq H] [DecidableEq A] (s : PinIrq H A) : PinOp H A → PinIrq H A
  | .attach pin mode hdr args => (stm32PinAttachIrq s pin mode hdr args).1
  | .dettach pin => (stm32PinDettachIrq s pin).1
  | .irqEnable pin enabled => (stm32PinIrqEnable s pin enabled).1

end Gpio

end RtSpark
