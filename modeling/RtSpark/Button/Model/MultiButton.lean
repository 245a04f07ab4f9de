import Mathlib.Data.Nat.Notation
import Mathlib.Algebra.Group.Nat.Defs
/-!
# The button state machine

`multi_button.c`. A button is sampled once a tick; `buttonHandler` returns
the button after the tick and the events it raised, in order. The fields
keep the widths the source gives them.
-/

namespace RtSpark

namespace Button

/-- The level of a pin. -/
inductive PinLevel where
  | low
  | high
deriving DecidableEq

inductive PressEvent where
  | pressDown
  | pressUp
  | pressRepeat
  | singleClick
  | doubleClick
  | longPressStart
  | longPressHold
  | nonePress
deriving DecidableEq

/-- `DEBOUNCE_TICKS`. -/
def debounceTicks : ℕ := 3

/-- `SHORT_TICKS`. -/
def shortTicks : ℕ := 300 / 5

/-- `LONG_TICKS`. -/
def longTicks : ℕ := 1000 / 5

end Button

open Button

/-- `struct Button`. -/
structure Button where
  ticks : ℕ
  repeats : ℕ
  event : PressEvent
  state : ℕ
  debounceCnt : ℕ
  activeLevel : PinLevel
  buttonLevel : PinLevel
  buttonId : UInt8
deriving DecidableEq

namespace Button

/-- `button_init`, with the level it reads. -/
def buttonInit (pinLevel : UInt8 → PinLevel) (activeLevel : PinLevel) (buttonId : UInt8) :
    Button where
  ticks := 0
  repeats := 0
  event := .nonePress
  state := 0
  debounceCnt := 0
  activeLevel := activeLevel
  buttonLevel := pinLevel buttonId
  buttonId := buttonId

/-- `if ((handle->state) > 0) handle->ticks++`. -/
def countTick (b : Button) : Button :=
  if 0 < b.state then { b with ticks := (b.ticks + 1) % 2 ^ 16 } else b

/-- The debounce block: a level that differs three ticks in a row is taken
over. -/
def debounce (b : Button) (readGpioLevel : PinLevel) : Button :=
  if readGpioLevel ≠ b.buttonLevel then
    let cnt := (b.debounceCnt + 1) % 2 ^ 3
    if debounceTicks ≤ cnt then { b with buttonLevel := readGpioLevel, debounceCnt := 0 }
    else { b with debounceCnt := cnt }
  else
    { b with debounceCnt := 0 }

/-- The state machine, and the events it raises. -/
def stateMachine (b : Button) : Button × List PressEvent :=
  match b.state with
  | 0 =>
    if b.buttonLevel = b.activeLevel then
      ({ b with event := .pressDown, ticks := 0, repeats := 1, state := 1 }, [.pressDown])
    else
      ({ b with event := .nonePress }, [])
  | 1 =>
    if b.buttonLevel ≠ b.activeLevel then
      ({ b with event := .pressUp, ticks := 0, state := 2 }, [.pressUp])
    else if longTicks < b.ticks then
      ({ b with event := .longPressStart, state := 5 }, [.longPressStart])
    else
      (b, [])
  | 2 =>
    if b.buttonLevel = b.activeLevel then
      ({ b with event := .pressDown, repeats := (b.repeats + 1) % 2 ^ 4, ticks := 0, state := 3 },
        [.pressDown, .pressRepeat])
    else if shortTicks < b.ticks then
      if b.repeats = 1 then
        ({ b with event := .singleClick, state := 0 }, [.singleClick])
      else if b.repeats = 2 then
        ({ b with event := .doubleClick, state := 0 }, [.doubleClick])
      else
        ({ b with state := 0 }, [])
    else
      (b, [])
  | 3 =>
    if b.buttonLevel ≠ b.activeLevel then
      if b.ticks < shortTicks then
        ({ b with event := .pressUp, ticks := 0, state := 2 }, [.pressUp])
      else
        ({ b with event := .pressUp, state := 0 }, [.pressUp])
    else if shortTicks < b.ticks then
      -- a repeated press held on: the machine starts over, and raises nothing
      ({ b with state := 0 }, [])
    else
      (b, [])
  | 5 =>
    if b.buttonLevel = b.activeLevel then
      ({ b with event := .longPressHold }, [.longPressHold])
    else
      ({ b with event := .pressUp, state := 0 }, [.pressUp])
  | _ => ({ b with state := 0 }, [])

/-- `button_handler`. -/
def buttonHandler (b : Button) (readGpioLevel : PinLevel) : Button × List PressEvent :=
  stateMachine (debounce (countTick b) readGpioLevel)

end Button

end RtSpark
