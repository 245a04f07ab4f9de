import RtSpark.Button.Keypad
import RtSpark.Common.Edge
/-!
# Presses and releases of one button

A button is sampled tick after tick, and its callbacks are held against the
debounced level. The machine raises what the change of level asks for as
long as it knows the level was active; it forgets that when a repeated press
outlasts its time, so presses and releases alternate exactly on the runs in
which no tick starts from there.
-/

namespace RtSpark

namespace Button

variable {b : Button} {level : PinLevel}

/-! ## The callbacks of a tick -/

/-- The events `btn_init` attaches `btn_on_pressed` and `btn_on_released`
to. -/
def callbacks (events : List PressEvent) : List PressEvent :=
  events.filter fun e => e = .pressDown ∨ e = .pressUp

/-- The debounced level after each tick, and the callbacks of the tick. -/
def trace (b : Button) : List PinLevel → List (Bool × List PressEvent)
  | [] => []
  | level :: levels =>
    (decide (buttonHandler b level).1.Active, callbacks (buttonHandler b level).2) ::
      trace (buttonHandler b level).1 levels

/-- The machine knows of a press. -/
def Pressed (b : Button) : Prop := b.state ≠ 0 ∧ b.state ≠ 2

instance (b : Button) : Decidable b.Pressed := inferInstanceAs (Decidable (_ ∧ _))

/-- **The callbacks of a run of the machine** are the mark of the change
from the press it knows of to the level. -/
theorem stateMachine_callbacks (b : Button) (hstates : b.state = 0 ∨ b.state = 1 ∨ b.state = 2 ∨
      b.state = 3 ∨ b.state = 5) :
    callbacks b.stateMachine.2 =
      Edge.mark .pressDown .pressUp (decide b.Pressed) (decide b.Active) := by
  unfold Pressed Active
  by_cases hactive : b.buttonLevel = b.activeLevel
  · rcases hstates with h | h | h | h | h
    · simp [stateMachine, h, hactive, callbacks, Edge.mark]
    · by_cases hlong : longTicks < b.ticks
      · simp [stateMachine, h, hactive, hlong, callbacks, Edge.mark]
      · simp [stateMachine, h, hactive, hlong, callbacks, Edge.mark]
    · simp [stateMachine, h, hactive, callbacks, Edge.mark]
    · by_cases hshort : shortTicks < b.ticks
      · simp [stateMachine, h, hactive, hshort, callbacks, Edge.mark]
      · simp [stateMachine, h, hactive, hshort, callbacks, Edge.mark]
    · simp [stateMachine, h, hactive, callbacks, Edge.mark]
  · rcases hstates with h | h | h | h | h
    · simp [stateMachine, h, hactive, callbacks, Edge.mark]
    · simp [stateMachine, h, hactive, callbacks, Edge.mark]
    · -- a click ends here, and clicks have no callback of these two
      simp only [stateMachine, h, hactive, if_false]
      repeat' split
      all_goals rfl
    · by_cases hshort : b.ticks < shortTicks
      · simp [stateMachine, h, hactive, hshort, callbacks, Edge.mark]
      · simp [stateMachine, h, hactive, hshort, callbacks, Edge.mark]
    · simp [stateMachine, h, hactive, callbacks, Edge.mark]

theorem callbacks_eq_mark (h : b.Sound) (level : PinLevel) :
    callbacks (buttonHandler b level).2 =
      Edge.mark .pressDown .pressUp (decide b.Pressed)
        (decide (buttonHandler b level).1.Active) := by
  obtain ⟨hstate, -, hactive⟩ := sampled b level
  obtain ⟨hlevel, -⟩ := buttonHandler_spec h level
  have hpressed : (b.countTick.debounce level).Pressed ↔ b.Pressed := by
    unfold Pressed
    rw [hstate]
  rw [buttonHandler, stateMachine_callbacks _ (by rw [hstate]; exact h.states),
    decide_eq_decide.2 hpressed, decide_eq_decide.2 (hactive.trans hlevel.symm)]
  rfl

/-! ## Runs -/

/-- A button, and whether its level was active at the last tick. -/
structure Watched where
  button : Button
  last : Bool

/-- A tick of it. -/
def watch (w : Watched) (level : PinLevel) : Watched where
  button := (buttonHandler w.button level).1
  last := decide (buttonHandler w.button level).1.Active

/-- The machine is at rest under a press it has already reported. -/
def Watched.StartedOver (w : Watched) : Prop := w.button.state = 0 ∧ w.last = true

instance (w : Watched) : Decidable w.StartedOver := inferInstanceAs (Decidable (_ ∧ _))

/-- What holds of a watched button: away from rest, its last level is the
one it has. -/
structure Watched.Sound (w : Watched) : Prop where
  button : w.button.Sound
  last : w.button.state ≠ 0 → (w.last = true ↔ w.button.Active)

theorem Watched.Sound.watch {w : Watched} (h : w.Sound) (level : PinLevel) :
    (watch w level).Sound where
  button := (buttonHandler_spec h.button level).2.2.1
  last := fun _ => decide_eq_true_iff

/-- Unless it started over, the machine knows of a press exactly where the
last level was active. -/
theorem Watched.Sound.pressed {w : Watched} (h : w.Sound) :
    decide w.button.Pressed = if w.StartedOver then false else w.last := by
  by_cases hrest : w.button.state = 0
  · have hno : ¬ w.button.Pressed := fun hp => hp.1 hrest
    rw [decide_eq_false hno]
    cases hlast : w.last with
    | false => simp
    | true => rw [if_pos ⟨hrest, hlast⟩]
  · rw [if_neg fun hover => hrest hover.1]
    have hstates := h.button.states
    rw [Bool.eq_iff_iff, decide_eq_true_iff, h.last hrest]
    constructor
    · rintro ⟨-, hclick⟩
      exact h.button.held (by omega)
    · intro hactive
      exact ⟨hrest, fun hclick => h.button.loose hclick hactive⟩

/-- **A tick raises the mark of its change exactly when it did not start
over.** -/
theorem mark_iff {w : Watched} (h : w.Sound) (level : PinLevel) :
    callbacks (buttonHandler w.button level).2 =
      Edge.mark .pressDown .pressUp w.last (watch w level).last ↔ ¬ w.StartedOver := by
  rw [callbacks_eq_mark h.button, h.pressed]
  change Edge.mark _ _ _ (watch w level).last = _ ↔ _
  -- a start over forgets the press it is in, so the marks differ
  by_cases hover : w.StartedOver
  · rw [if_pos hover, hover.2]
    refine iff_of_false ?_ (not_not.2 hover)
    cases (watch w level).last with
    | false => simp [Edge.mark]
    | true => simp [Edge.mark]
  · rw [if_neg hover]
    exact iff_of_true rfl hover

/-- A repeated press is held past its time. -/
def Watched.Outlasts (w : Watched) (level : PinLevel) : Prop :=
  w.button.state = 3 ∧ w.button.ActiveAt level ∧
    shortTicks < (w.button.countTick.debounce level).ticks

/-- Under an active level the machine comes to rest in one way. -/
theorem stateMachine_rests_iff (hstates : b.state = 0 ∨ b.state = 1 ∨ b.state = 2 ∨
      b.state = 3 ∨ b.state = 5) (hactive : b.Active) :
    b.stateMachine.1.state = 0 ↔ b.state = 3 ∧ shortTicks < b.ticks := by
  have hlevel : b.buttonLevel = b.activeLevel := hactive
  rcases hstates with h | h | h | h | h
  · simp [stateMachine, h, hlevel]
  · by_cases hlong : longTicks < b.ticks
    · simp [stateMachine, h, hlevel, hlong]
    · simp [stateMachine, h, hlevel, hlong]
  · simp [stateMachine, h, hlevel]
  · -- the repeated press: the one branch that rests under an active level
    by_cases hshort : shortTicks < b.ticks
    · simp [stateMachine, h, hlevel, hshort]
    · simp [stateMachine, h, hlevel, hshort]
  · simp [stateMachine, h, hlevel]

theorem startedOver_watch_iff {w : Watched} (h : w.Sound) (level : PinLevel) :
    (watch w level).StartedOver ↔ w.Outlasts level := by
  obtain ⟨hstate, -, hactive⟩ := sampled w.button level
  obtain ⟨hlevel, -⟩ := buttonHandler_spec h.button level
  have hstates := h.button.states
  rw [← hstate] at hstates
  have hlast : (watch w level).last = true ↔ w.button.ActiveAt level := by
    rw [← hlevel]
    exact decide_eq_true_iff
  constructor
  · rintro ⟨hrest, hover⟩
    have hact := hlast.1 hover
    obtain ⟨h3, hticks⟩ := (stateMachine_rests_iff hstates (hactive.2 hact)).1 hrest
    exact ⟨hstate ▸ h3, hact, hticks⟩
  · rintro ⟨h3, hact, hticks⟩
    exact ⟨(stateMachine_rests_iff hstates (hactive.2 hact)).2 ⟨hstate.trans h3, hticks⟩,
      hlast.2 hact⟩

theorem trace_forgetful {w : Watched} (h : w.Sound) (levels : List PinLevel) :
    Edge.Forgetful .pressDown .pressUp w.last (trace w.button levels) := by
  induction levels generalizing w with
  | nil => trivial
  | cons level levels ih =>
    refine ⟨?_, ih (h.watch level)⟩
    rw [callbacks_eq_mark h.button, h.pressed]
    split
    · exact Or.inr rfl
    · exact Or.inl rfl

theorem trace_marked_iff {w : Watched} (levels : List PinLevel) :
    Edge.Marked .pressDown .pressUp w.last (trace w.button levels) ↔
      Run.AlongRun watch (fun w level w' => callbacks (buttonHandler w.button level).2 =
        Edge.mark .pressDown .pressUp w.last w'.last) w levels := by
  induction levels generalizing w with
  | nil => exact Iff.rfl
  | cons level levels ih => exact and_congr_right fun _ => ih (w := watch w level)

/-- Every button starts at rest. -/
theorem mem_btnInit {pinLevel : UInt8 → PinLevel} (h : b ∈ (btnInit pinLevel).buttons) :
    b.state = 0 := by
  simp only [btnInit, List.foldl_cons, List.foldl_nil, List.mem_cons, List.not_mem_nil,
    or_false] at h
  rcases h with rfl | rfl | rfl | rfl <;> rfl

theorem sound_watched {pinLevel : UInt8 → PinLevel} (hb : b ∈ (btnInit pinLevel).buttons) :
    Watched.Sound ⟨b, false⟩ where
  button := sound_of Iff.rfl (Or.inl (mem_btnInit hb))
  last := fun hrest => absurd (mem_btnInit hb) hrest

/-- **The machine starts over in one way**: in every run, just where the tick
before found a repeated press held past its time. -/
theorem startedOver_iff_outlasts {pinLevel : UInt8 → PinLevel}
    (hb : b ∈ (btnInit pinLevel).buttons) (levels : List PinLevel) (level : PinLevel) :
    (Run.stateAfter watch ⟨b, false⟩ (levels ++ [level])).StartedOver ↔
      (Run.stateAfter watch ⟨b, false⟩ levels).Outlasts level := by
  have hsound : (Run.stateAfter watch ⟨b, false⟩ levels).Sound :=
    Run.invariant (sound_watched hb) fun w level _ hw => hw.watch level
  rw [Run.stateAfter_append]
  exact startedOver_watch_iff hsound level

/-- **Presses and releases alternate exactly as long as the machine does not
start over under a press.** For every button that `btn_init` registers and
every sequence of samples of its pin, the callbacks alternate from a press
on, every period with an active level has exactly one press and its end
exactly one release, if and only if no tick begins with the machine at rest
and the level active at the tick before. -/
theorem callbacks_alternate_iff {pinLevel : UInt8 → PinLevel}
    (hb : b ∈ (btnInit pinLevel).buttons) (levels : List PinLevel) :
    Edge.OneEach .pressDown .pressUp (trace b levels) ↔
      Run.AlongRun watch (fun w _ _ => ¬ w.StartedOver) ⟨b, false⟩ levels := by
  have hsound := sound_watched hb
  rw [Edge.oneEach_iff_marked (by decide) (trace_forgetful hsound levels),
    trace_marked_iff (w := ⟨b, false⟩) levels]
  refine Run.alongRun_iff (I := Watched.Sound) (Q := fun _ _ _ => True)
    (fun w level hw _ => mark_iff hw level) (fun w level hw _ => hw.watch level) hsound
    (Run.alongRun_of_forall fun _ _ => trivial)

/-- The up key, pressed and released. -/
theorem callbacks_alternate_up :
    let b := buttonInit (fun _ => .high) .low btnUpId
    let levels := List.replicate 5 PinLevel.low ++ List.replicate 5 PinLevel.high
    Edge.OneEach .pressDown .pressUp (trace b levels) ∧
      Edge.events (trace b levels) = [.pressDown, .pressUp] := by
  intro b levels
  have hb : b ∈ (btnInit fun _ => .high).buttons := by simp [b, btnInit]
  have hnever : Run.AlongRun watch (fun w _ _ => ¬ w.StartedOver) ⟨b, false⟩ levels := by decide
  exact ⟨(callbacks_alternate_iff hb levels).2 hnever, by decide⟩

/-- **A double press held on is reported as three.** -/
theorem callbacks_not_alternate :
    ¬ ∀ (pinLevel : UInt8 → PinLevel) (b : Button) (levels : List PinLevel),
      b ∈ (btnInit pinLevel).buttons → Edge.OneEach .pressDown .pressUp (trace b levels) := by
  intro h
  have hone := h (fun _ => .high) (buttonInit (fun _ => .high) .low btnUpId)
    (List.replicate 3 .low ++ List.replicate 3 .high ++ List.replicate 70 .low)
    (by simp [btnInit])
  have hev : Edge.events (trace (buttonInit (fun _ => .high) .low btnUpId)
      (List.replicate 3 .low ++ List.replicate 3 .high ++ List.replicate 70 .low)) =
        [.pressDown, .pressUp, .pressDown, .pressDown] := by decide +kernel
  have halt := hone.alternates
  rw [hev] at halt
  exact absurd halt.2.2.2.1 (by decide)

end Button

end RtSpark
