import RtSpark.Button.Model.MultiButton
/-!
# The keypad

The four buttons of `hal_button.cpp`, the one variable their callbacks
share, and the `keypad_read` that the GUI polls.
-/

namespace RtSpark

namespace Button

/-! ## `hal_def.h` -/

def btnUpId : UInt8 := 1
def btnDownId : UInt8 := 2
def btnLeftId : UInt8 := 3
def btnRightId : UInt8 := 4

/-! ## `hal_button.cpp` -/

/-- The list `button_ticks` walks, from its head, and `s_act_key`. -/
structure Keypad where
  buttons : List Button
  actKey : UInt8
deriving DecidableEq

/-- `hal::btn_init`: each of the four buttons is initialised and put at the
head of the list. -/
def btnInit (pinLevel : UInt8 → PinLevel) : Keypad where
  buttons := [btnUpId, btnDownId, btnLeftId, btnRightId].foldl
    (fun head btnNum => buttonInit pinLevel .low btnNum :: head) []
  actKey := 0

/-- What the callback attached to an event leaves in `s_act_key`:
`btn_on_pressed` and `btn_on_released` set it, `btn_on_long_pressing` and
the events without one do not. -/
def eventCb (buttonId : UInt8) (actKey : UInt8) : PressEvent → UInt8
  | .pressDown => buttonId
  | .pressUp => 0
  | _ => actKey

/-- `button_ticks`, down the list. -/
def ticksFrom (pinLevel : UInt8 → PinLevel) : List Button → UInt8 → Keypad
  | [], actKey => ⟨[], actKey⟩
  | target :: next, actKey =>
    let (target', events) := buttonHandler target (pinLevel target.buttonId)
    let rest := ticksFrom pinLevel next (events.foldl (eventCb target.buttonId) actKey)
    ⟨target' :: rest.buttons, rest.actKey⟩

def buttonTicks (k : Keypad) (pinLevel : UInt8 → PinLevel) : Keypad :=
  ticksFrom pinLevel k.buttons k.actKey

/-! ## `keypad_read` -/

/-- `lv_indev_state_t`. -/
inductive IndevState where
  | released
  | pressed
deriving DecidableEq

/-- `lv_indev_data_t`. -/
structure IndevData where
  state : IndevState
  key : UInt8
deriving DecidableEq

/-- The LVGL key of a button. -/
def translateKey (actKey : UInt8) : UInt8 :=
  if actKey = btnUpId then 9
  else if actKey = btnDownId then 11
  else if actKey = btnRightId then 10
  else if actKey = btnLeftId then 27
  else actKey

/-- `keypad_read`, from the `last_key` it kept; it keeps the key reported. -/
def keypadRead (lastKey actKey : UInt8) : IndevData :=
  if actKey ≠ 0 then ⟨.pressed, translateKey actKey⟩ else ⟨.released, lastKey⟩

end Button

end RtSpark
