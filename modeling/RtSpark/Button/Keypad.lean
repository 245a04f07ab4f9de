import RtSpark.Button.Model.Keypad
import RtSpark.Common.Run
import Mathlib.Tactic.ByContra
import Mathlib.Data.List.Nodup
/-!
# The keypad against its buttons

`buttonHandler_spec` says what a tick of one button does to the level, to
the machine and to the key the callbacks share: a press that is noticed
sets the key, a release that is noticed clears it, whoever holds it. The
machine misses a release in the tick after it started over under a press
that went on (`Lapses`). So the key follows the buttons exactly on the
ticks that `Fair` describes.
-/

namespace RtSpark

namespace Button

variable {b : Button} {level : PinLevel} {key : UInt8} {pins : UInt8 → PinLevel}

/-! ## One button -/

/-- The debounced level is the active one. -/
def Active (b : Button) : Prop := b.buttonLevel = b.activeLevel

instance (b : Button) : Decidable b.Active := inferInstanceAs (Decidable (_ = _))

/-- The level the debounce block leaves at this sample is the active one. -/
def ActiveAt (b : Button) (level : PinLevel) : Prop := (b.debounce level).Active

instance (b : Button) (level : PinLevel) : Decidable (b.ActiveAt level) :=
  inferInstanceAs (Decidable (Active _))

/-- The machine is at rest or between clicks, and the level turns active. -/
def Presses (b : Button) (level : PinLevel) : Prop :=
  (b.state = 0 ∨ b.state = 2) ∧ b.ActiveAt level

instance (b : Button) (level : PinLevel) : Decidable (b.Presses level) :=
  inferInstanceAs (Decidable (_ ∧ _))

/-- The machine is in a press, and the level is no longer active. -/
def Releases (b : Button) (level : PinLevel) : Prop :=
  (b.state = 1 ∨ b.state = 3 ∨ b.state = 5) ∧ ¬ b.ActiveAt level

instance (b : Button) (level : PinLevel) : Decidable (b.Releases level) :=
  inferInstanceAs (Decidable (_ ∧ _))

/-- The level was active and is no longer, but the machine is at rest: it
started over under a press that went on, and raises no release now. -/
def Lapses (b : Button) (level : PinLevel) : Prop :=
  b.state = 0 ∧ b.Active ∧ ¬ b.ActiveAt level

instance (b : Button) (level : PinLevel) : Decidable (b.Lapses level) :=
  inferInstanceAs (Decidable (_ ∧ _))

/-- The states the machine can be in, with the level each of them has. -/
structure Sound (b : Button) : Prop where
  states : b.state = 0 ∨ b.state = 1 ∨ b.state = 2 ∨ b.state = 3 ∨ b.state = 5
  held : b.state = 1 ∨ b.state = 3 ∨ b.state = 5 → b.Active
  loose : b.state = 2 → ¬ b.Active

/-- What the callbacks of a tick leave of the key. -/
def keyAfter (b : Button) (level : PinLevel) (key : UInt8) : UInt8 :=
  if b.Presses level then b.buttonId else if b.Releases level then 0 else key

/-- The level is taken over once it has differed for long enough, and
nothing else of what the machine reads is touched. -/
theorem debounce_level (b : Button) (level : PinLevel) :
    (b.debounce level).buttonLevel =
      if level ≠ b.buttonLevel ∧ debounceTicks ≤ (b.debounceCnt + 1) % 2 ^ 3 then level
      else b.buttonLevel := by
  unfold debounce
  by_cases hdiff : level ≠ b.buttonLevel
  · by_cases hcnt : debounceTicks ≤ (b.debounceCnt + 1) % 2 ^ 3
    · rw [if_pos hdiff]
      simp only [if_pos hcnt]
      exact (if_pos ⟨hdiff, hcnt⟩).symm
    · rw [if_pos hdiff]
      simp only [if_neg hcnt]
      exact (if_neg fun h => hcnt h.2).symm
  · rw [if_neg hdiff]
    exact (if_neg fun h => hdiff h.1).symm

theorem debounce_fields (b : Button) (level : PinLevel) :
    (b.debounce level).state = b.state ∧ (b.debounce level).buttonId = b.buttonId ∧
      (b.debounce level).activeLevel = b.activeLevel := by
  unfold debounce
  split
  · simp only
    split <;> exact ⟨rfl, rfl, rfl⟩
  · exact ⟨rfl, rfl, rfl⟩

theorem countTick_fields (b : Button) :
    b.countTick.state = b.state ∧ b.countTick.buttonId = b.buttonId ∧
      b.countTick.activeLevel = b.activeLevel ∧ b.countTick.buttonLevel = b.buttonLevel ∧
      b.countTick.debounceCnt = b.debounceCnt := by
  unfold countTick
  split <;> exact ⟨rfl, rfl, rfl, rfl, rfl⟩

/-- What the machine is handed: the state of before, and the debounced
level. -/
theorem sampled (b : Button) (level : PinLevel) :
    (b.countTick.debounce level).state = b.state ∧
      (b.countTick.debounce level).buttonId = b.buttonId ∧
      ((b.countTick.debounce level).Active ↔ b.ActiveAt level) := by
  obtain ⟨hstate, hid, hactive, hlevel, hcnt⟩ := countTick_fields b
  obtain ⟨hstate', hid', hactive'⟩ := debounce_fields b.countTick level
  obtain ⟨-, -, hactive''⟩ := debounce_fields b level
  refine ⟨hstate'.trans hstate, hid'.trans hid, ?_⟩
  unfold ActiveAt Active
  rw [hactive', hactive, hactive'', debounce_level, debounce_level, hlevel, hcnt]

/-- A state that goes with the level. -/
theorem sound_of {b' : Button} (hactive : b'.Active ↔ b.Active)
    (h : b'.state = 0 ∨ ((b'.state = 1 ∨ b'.state = 3 ∨ b'.state = 5) ∧ b.Active) ∨
      (b'.state = 2 ∧ ¬ b.Active)) : b'.Sound where
  states := by omega
  held := by
    intro hheld
    rcases h with h | ⟨-, h⟩ | ⟨h, -⟩
    · omega
    · exact hactive.2 h
    · omega
  loose := by
    intro hloose
    rcases h with h | ⟨h, -⟩ | ⟨-, h⟩
    · omega
    · omega
    · exact fun hact => h (hactive.1 hact)

/-- What one run of the machine leaves, as `stateMachine_spec` has it of
every state. -/
structure MachineStep (b b' : Button) (events : List PressEvent) : Prop where
  level : b'.buttonLevel = b.buttonLevel
  active : b'.activeLevel = b.activeLevel
  id : b'.buttonId = b.buttonId
  sound : b'.Sound
  key : ∀ key, events.foldl (eventCb b.buttonId) key =
    if (b.state = 0 ∨ b.state = 2) ∧ b.Active then b.buttonId
    else if (b.state = 1 ∨ b.state = 3 ∨ b.state = 5) ∧ ¬ b.Active then 0 else key

/-- At rest or between clicks only a press sets the key. -/
theorem key_of_loose (events : List PressEvent) (h : b.state = 0 ∨ b.state = 2)
    (hkey : ∀ key, events.foldl (eventCb b.buttonId) key = if b.Active then b.buttonId else key)
    (key : UInt8) : events.foldl (eventCb b.buttonId) key =
      if (b.state = 0 ∨ b.state = 2) ∧ b.Active then b.buttonId
      else if (b.state = 1 ∨ b.state = 3 ∨ b.state = 5) ∧ ¬ b.Active then 0 else key := by
  rw [hkey]
  by_cases hactive : b.Active
  · rw [if_pos hactive, if_pos ⟨h, hactive⟩]
  · rw [if_neg hactive, if_neg fun h' => hactive h'.2, if_neg fun h' => ?_]
    have := h'.1
    omega

/-- In a press only a release clears it. -/
theorem key_of_held (events : List PressEvent) (h : b.state = 1 ∨ b.state = 3 ∨ b.state = 5)
    (hkey : ∀ key, events.foldl (eventCb b.buttonId) key = if b.Active then key else 0)
    (key : UInt8) : events.foldl (eventCb b.buttonId) key =
      if (b.state = 0 ∨ b.state = 2) ∧ b.Active then b.buttonId
      else if (b.state = 1 ∨ b.state = 3 ∨ b.state = 5) ∧ ¬ b.Active then 0 else key := by
  rw [hkey]
  have hloose : ¬ ((b.state = 0 ∨ b.state = 2) ∧ b.Active) := fun h' => by
    have := h'.1
    omega
  by_cases hactive : b.Active
  · rw [if_pos hactive, if_neg hloose, if_neg fun h' => h'.2 hactive]
  · rw [if_neg hactive, if_neg hloose, if_pos ⟨h, hactive⟩]

/-- **One run of the machine.** It leaves the level alone, is in a state
that goes with it, and raises a press or a release as its state and the
level say. -/
theorem stateMachine_spec (b : Button) (hstates : b.state = 0 ∨ b.state = 1 ∨ b.state = 2 ∨
      b.state = 3 ∨ b.state = 5) : MachineStep b b.stateMachine.1 b.stateMachine.2 := by
  unfold stateMachine
  rcases hstates with h | h | h | h | h <;> rw [h] <;> simp only
  · have hkey := fun events => key_of_loose (b := b) events (Or.inl h)
    split
    · rename_i hactive
      exact ⟨rfl, rfl, rfl, sound_of Iff.rfl (Or.inr (Or.inl ⟨Or.inl rfl, hactive⟩)),
        hkey _ fun key => (if_pos hactive).symm⟩
    · rename_i hactive
      exact ⟨rfl, rfl, rfl, sound_of Iff.rfl (Or.inl rfl),
        hkey _ fun key => (if_neg hactive).symm⟩
  · have hkey := fun events => key_of_held (b := b) events (Or.inl h)
    split
    · rename_i hactive
      exact ⟨rfl, rfl, rfl, sound_of Iff.rfl (Or.inr (Or.inr ⟨rfl, hactive⟩)),
        hkey _ fun key => (if_neg hactive).symm⟩
    · rename_i hactive
      have hactive' : b.Active := not_not.1 hactive
      split
      · exact ⟨rfl, rfl, rfl, sound_of Iff.rfl (Or.inr (Or.inl ⟨Or.inr (Or.inr rfl), hactive'⟩)),
          hkey _ fun key => (if_pos hactive').symm⟩
      · exact ⟨rfl, rfl, rfl, sound_of Iff.rfl (Or.inr (Or.inl ⟨Or.inl h, hactive'⟩)),
          hkey _ fun key => (if_pos hactive').symm⟩
  · have hkey := fun events => key_of_loose (b := b) events (Or.inr h)
    split
    · rename_i hactive
      exact ⟨rfl, rfl, rfl,
        sound_of Iff.rfl (Or.inr (Or.inl ⟨Or.inr (Or.inl rfl), hactive⟩)),
        hkey _ fun key => (if_pos hactive).symm⟩
    · rename_i hactive
      have hidle : ∀ key : UInt8, key = if b.Active then b.buttonId else key :=
        fun key => (if_neg hactive).symm
      split
      · split
        · exact ⟨rfl, rfl, rfl, sound_of Iff.rfl (Or.inl rfl), hkey _ hidle⟩
        · split
          · exact ⟨rfl, rfl, rfl, sound_of Iff.rfl (Or.inl rfl), hkey _ hidle⟩
          · exact ⟨rfl, rfl, rfl, sound_of Iff.rfl (Or.inl rfl), hkey _ hidle⟩
      · exact ⟨rfl, rfl, rfl, sound_of Iff.rfl (Or.inr (Or.inr ⟨h, hactive⟩)), hkey _ hidle⟩
  · have hkey := fun events => key_of_held (b := b) events (Or.inr (Or.inl h))
    split
    · rename_i hactive
      split
      · exact ⟨rfl, rfl, rfl, sound_of Iff.rfl (Or.inr (Or.inr ⟨rfl, hactive⟩)),
          hkey _ fun key => (if_neg hactive).symm⟩
      · exact ⟨rfl, rfl, rfl, sound_of Iff.rfl (Or.inl rfl),
          hkey _ fun key => (if_neg hactive).symm⟩
    · rename_i hactive
      have hactive' : b.Active := not_not.1 hactive
      split
      · exact ⟨rfl, rfl, rfl, sound_of Iff.rfl (Or.inl rfl),
          hkey _ fun key => (if_pos hactive').symm⟩
      · exact ⟨rfl, rfl, rfl, sound_of Iff.rfl (Or.inr (Or.inl ⟨Or.inr (Or.inl h), hactive'⟩)),
          hkey _ fun key => (if_pos hactive').symm⟩
  · have hkey := fun events => key_of_held (b := b) events (Or.inr (Or.inr h))
    split
    · rename_i hactive
      exact ⟨rfl, rfl, rfl, sound_of Iff.rfl (Or.inr (Or.inl ⟨Or.inr (Or.inr rfl), hactive⟩)),
        hkey _ fun key => (if_pos hactive).symm⟩
    · rename_i hactive
      exact ⟨rfl, rfl, rfl, sound_of Iff.rfl (Or.inl rfl),
        hkey _ fun key => (if_neg hactive).symm⟩

/-- **A tick of one button**: the level becomes the debounced one, and the
callbacks leave `keyAfter` of the key. -/
theorem buttonHandler_spec (h : b.Sound) (level : PinLevel) :
    ((buttonHandler b level).1.Active ↔ b.ActiveAt level) ∧
      (buttonHandler b level).1.buttonId = b.buttonId ∧ (buttonHandler b level).1.Sound ∧
      ∀ key, (buttonHandler b level).2.foldl (eventCb b.buttonId) key = keyAfter b level key := by
  obtain ⟨hstate, hid, hactive⟩ := sampled b level
  have hstep := stateMachine_spec (b.countTick.debounce level) (by rw [hstate]; exact h.states)
  refine ⟨?_, hstep.id.trans hid, hstep.sound, fun key => ?_⟩
  · rw [← hactive]
    unfold Active
    rw [buttonHandler, hstep.level, hstep.active]
  · have hkey := hstep.key key
    rw [hid, hstate] at hkey
    simp only [hactive] at hkey
    exact hkey

/-! ## The list -/

/-- The button has a press or a release at this sample. -/
def HasEvent (pins : UInt8 → PinLevel) (b : Button) : Prop :=
  b.Presses (pins b.buttonId) ∨ b.Releases (pins b.buttonId)

instance (pins : UInt8 → PinLevel) : DecidablePred (HasEvent pins) := fun _ =>
  inferInstanceAs (Decidable (_ ∨ _))

/-- The last button down the list with a press or a release. -/
def lastEvent (pins : UInt8 → PinLevel) (bs : List Button) : Option Button :=
  (bs.filter (HasEvent pins)).getLast?

theorem keyAfter_of_not_hasEvent (h : ¬ HasEvent pins b) (key : UInt8) :
    keyAfter b (pins b.buttonId) key = key := by
  rw [keyAfter, if_neg fun hp => h (Or.inl hp), if_neg fun hr => h (Or.inr hr)]

/-- A press or a release leaves the same key whatever it was. -/
theorem keyAfter_of_hasEvent (h : HasEvent pins b) (key key' : UInt8) :
    keyAfter b (pins b.buttonId) key = keyAfter b (pins b.buttonId) key' := by
  unfold keyAfter
  by_cases hp : b.Presses (pins b.buttonId)
  · rw [if_pos hp, if_pos hp]
  · have hr := h.resolve_left hp
    rw [if_neg hp, if_neg hp, if_pos hr, if_pos hr]

/-- **A tick of the list**: every button has its own, and the last press or
release decides the key. -/
theorem ticksFrom_spec (pins : UInt8 → PinLevel) (bs : List Button)
    (hsound : ∀ b ∈ bs, b.Sound) (key : UInt8) :
    (ticksFrom pins bs key).buttons = bs.map (fun b => (buttonHandler b (pins b.buttonId)).1) ∧
      (ticksFrom pins bs key).actKey =
        match lastEvent pins bs with
        | none => key
        | some b => keyAfter b (pins b.buttonId) key := by
  induction bs generalizing key with
  | nil => exact ⟨rfl, rfl⟩
  | cons b bs ih =>
    obtain ⟨-, -, -, hkey⟩ := buttonHandler_spec (hsound b (List.mem_cons_self ..))
      (pins b.buttonId)
    obtain ⟨hbuttons, hact⟩ := ih (fun c hc => hsound c (List.mem_cons_of_mem _ hc))
      (keyAfter b (pins b.buttonId) key)
    unfold ticksFrom
    simp only [hkey]
    refine ⟨by rw [hbuttons, List.map_cons], ?_⟩
    rw [hact]
    unfold lastEvent
    by_cases hevent : HasEvent pins b
    · rw [List.filter_cons_of_pos (by simpa using hevent), List.getLast?_cons]
      cases hlast : (bs.filter (HasEvent pins)).getLast? with
      | none => rfl
      | some c =>
        have hmem := List.mem_of_getLast? hlast
        have hevent' : HasEvent pins c := by simpa using (List.mem_filter.1 hmem).2
        exact keyAfter_of_hasEvent hevent' _ _
    · rw [List.filter_cons_of_neg (by simpa using hevent), keyAfter_of_not_hasEvent hevent]

/-! ## The keypad -/

/-- The key follows the buttons: it is set exactly while one is active, to
one that is, and `keypad_read` reports a press exactly then. -/
structure Follows (k : Keypad) : Prop where
  set : k.actKey ≠ 0 ↔ ∃ b ∈ k.buttons, b.Active
  names : k.actKey ≠ 0 → ∃ b ∈ k.buttons, b.buttonId = k.actKey ∧ b.Active
  reported : ∀ lastKey, (keypadRead lastKey k.actKey).state = .pressed ↔
    ∃ b ∈ k.buttons, b.Active

/-- The samples are fair to the key. If the tick's last press or release
is a release, no button is active any more; if there is neither, the
button the key names does not lapse. -/
def Fair (k : Keypad) (pins : UInt8 → PinLevel) : Prop :=
  match lastEvent pins k.buttons with
  | some b => b.Releases (pins b.buttonId) → ∀ c ∈ k.buttons, ¬ c.ActiveAt (pins c.buttonId)
  | none => ∀ b ∈ k.buttons, b.buttonId = k.actKey → ¬ b.Lapses (pins b.buttonId)

/-- What holds of the keypad from its start: the buttons are numbered,
each differently, and in sound states; the key names an active one or is
clear, and then none is in a press. -/
structure KeypadInv (k : Keypad) : Prop where
  numbered : ∀ b ∈ k.buttons, b.buttonId ≠ 0
  distinct : (k.buttons.map buttonId).Nodup
  sound : ∀ b ∈ k.buttons, b.Sound
  named : k.actKey ≠ 0 → ∃ b ∈ k.buttons, b.buttonId = k.actKey ∧ b.Active
  clear : k.actKey = 0 → ∀ b ∈ k.buttons, ¬ (b.state = 1 ∨ b.state = 3 ∨ b.state = 5)

theorem keypadRead_pressed (lastKey actKey : UInt8) :
    (keypadRead lastKey actKey).state = .pressed ↔ actKey ≠ 0 := by
  unfold keypadRead
  by_cases h : actKey = 0
  · rw [if_neg (not_not_intro h)]
    exact iff_of_false (fun hpressed => by cases hpressed) (not_not_intro h)
  · rw [if_pos h]
    exact iff_of_true rfl h

theorem follows_iff {k : Keypad} : Follows k ↔
    (k.actKey ≠ 0 ↔ ∃ b ∈ k.buttons, b.Active) ∧
      (k.actKey ≠ 0 → ∃ b ∈ k.buttons, b.buttonId = k.actKey ∧ b.Active) :=
  ⟨fun h => ⟨h.set, h.names⟩, fun h => ⟨h.1, h.2, fun lastKey =>
    (keypadRead_pressed lastKey k.actKey).trans h.1⟩⟩

section Tick

variable {k : Keypad}

/-- The buttons after a tick, and the levels they are at. -/
theorem exists_buttonTicks (pins : UInt8 → PinLevel) (h : KeypadInv k) (P : UInt8 → Prop) :
    (∃ b ∈ (buttonTicks k pins).buttons, P b.buttonId ∧ b.Active) ↔
      ∃ b ∈ k.buttons, P b.buttonId ∧ b.ActiveAt (pins b.buttonId) := by
  unfold buttonTicks
  rw [(ticksFrom_spec pins k.buttons h.sound k.actKey).1]
  constructor
  · rintro ⟨b', hb', hP, hactive⟩
    obtain ⟨b, hb, rfl⟩ := List.mem_map.1 hb'
    obtain ⟨hat, hid, -, -⟩ := buttonHandler_spec (h.sound b hb) (pins b.buttonId)
    rw [hid] at hP
    exact ⟨b, hb, hP, hat.1 hactive⟩
  · rintro ⟨b, hb, hP, hat⟩
    obtain ⟨hat', hid, -, -⟩ := buttonHandler_spec (h.sound b hb) (pins b.buttonId)
    refine ⟨_, List.mem_map_of_mem hb, ?_, hat'.2 hat⟩
    rw [hid]
    exact hP

theorem exists_active_buttonTicks (pins : UInt8 → PinLevel) (h : KeypadInv k) :
    (∃ b ∈ (buttonTicks k pins).buttons, b.Active) ↔
      ∃ b ∈ k.buttons, b.ActiveAt (pins b.buttonId) := by
  simpa only [true_and] using exists_buttonTicks pins h fun _ => True

/-- The buttons keep their numbers. -/
theorem buttonTicks_ids (pins : UInt8 → PinLevel) (h : KeypadInv k) :
    (buttonTicks k pins).buttons.map buttonId = k.buttons.map buttonId := by
  unfold buttonTicks
  rw [(ticksFrom_spec pins k.buttons h.sound k.actKey).1, List.map_map]
  refine List.map_congr_left fun b hb => ?_
  exact (buttonHandler_spec (h.sound b hb) (pins b.buttonId)).2.1

/-- A tick keeps the keypad's buttons sound and numbered; what the key
says of them is kept when it follows them. -/
theorem keypadInv_tick (h : KeypadInv k) (hfollows : Follows (buttonTicks k pins)) :
    KeypadInv (buttonTicks k pins) := by
  have hids := buttonTicks_ids pins h
  have hsound : ∀ b ∈ (buttonTicks k pins).buttons, b.Sound := by
    intro b' hb'
    unfold buttonTicks at hb'
    rw [(ticksFrom_spec pins k.buttons h.sound k.actKey).1] at hb'
    obtain ⟨b, hb, rfl⟩ := List.mem_map.1 hb'
    exact (buttonHandler_spec (h.sound b hb) _).2.2.1
  refine ⟨?_, ?_, hsound, hfollows.names, ?_⟩
  · intro b' hb'
    have hmem : b'.buttonId ∈ k.buttons.map buttonId := by
      rw [← hids]
      exact List.mem_map_of_mem hb'
    obtain ⟨b, hb, hid⟩ := List.mem_map.1 hmem
    rw [← hid]
    exact h.numbered b hb
  · rw [hids]
    exact h.distinct
  · intro hclear b hb hheld
    exact hfollows.set.2 ⟨b, hb, (hsound b hb).held hheld⟩ hclear

/-- Where a button has no release, its active level lasts unless it
lapses. -/
theorem activeAt_of_not_lapses (h : b.Sound) (hactive : b.Active)
    (hquiet : ¬ b.Releases level) (hlasts : ¬ b.Lapses level) : b.ActiveAt level := by
  by_contra hnot
  rcases h.states with h0 | h1 | h2 | h3 | h5
  · exact hlasts ⟨h0, hactive, hnot⟩
  · exact hquiet ⟨Or.inl h1, hnot⟩
  · exact h.loose h2 hactive
  · exact hquiet ⟨Or.inr (Or.inl h3), hnot⟩
  · exact hquiet ⟨Or.inr (Or.inr h5), hnot⟩

/-- After a press or a release the key follows the buttons unless it was a
release that left one active. -/
theorem follows_of_event_iff (h : KeypadInv k) (hb : b ∈ k.buttons) (hevent : HasEvent pins b) :
    ((keyAfter b (pins b.buttonId) key ≠ 0 ↔
        ∃ c ∈ k.buttons, c.ActiveAt (pins c.buttonId)) ∧
      (keyAfter b (pins b.buttonId) key ≠ 0 → ∃ c ∈ k.buttons,
        c.buttonId = keyAfter b (pins b.buttonId) key ∧ c.ActiveAt (pins c.buttonId))) ↔
      (b.Releases (pins b.buttonId) → ∀ c ∈ k.buttons, ¬ c.ActiveAt (pins c.buttonId)) := by
  unfold keyAfter
  by_cases hp : b.Presses (pins b.buttonId)
  · rw [if_pos hp]
    have hset := h.numbered b hb
    refine iff_of_true ⟨iff_of_true hset ⟨b, hb, hp.2⟩, fun _ => ⟨b, hb, rfl, hp.2⟩⟩ ?_
    exact fun hr => absurd hp.2 hr.2
  · have hr := hevent.resolve_left hp
    rw [if_neg hp, if_pos hr]
    constructor
    · intro hfollows _ c hc hat
      exact hfollows.1.2 ⟨c, hc, hat⟩ rfl
    · intro hfair
      refine ⟨iff_of_false (not_not_intro rfl) ?_, fun hset => absurd rfl hset⟩
      rintro ⟨c, hc, hat⟩
      exact hfair hr c hc hat

/-- With neither the key stays, and follows the buttons unless the one it
names lapses. -/
theorem follows_of_quiet_iff (h : KeypadInv k) (hquiet : ∀ b ∈ k.buttons, ¬ HasEvent pins b) :
    ((k.actKey ≠ 0 ↔ ∃ b ∈ k.buttons, b.ActiveAt (pins b.buttonId)) ∧
      (k.actKey ≠ 0 →
        ∃ b ∈ k.buttons, b.buttonId = k.actKey ∧ b.ActiveAt (pins b.buttonId))) ↔
      ∀ b ∈ k.buttons, b.buttonId = k.actKey → ¬ b.Lapses (pins b.buttonId) := by
  constructor
  · rintro ⟨-, hnamed⟩ b hb hkey ⟨-, -, hgone⟩
    have hset : k.actKey ≠ 0 := by
      rw [← hkey]
      exact h.numbered b hb
    obtain ⟨c, hc, hckey, hat⟩ := hnamed hset
    have heq : c = b := List.inj_on_of_nodup_map h.distinct hc hb (hckey.trans hkey.symm)
    rw [heq] at hat
    exact hgone hat
  · intro hfair
    have hlasts : k.actKey ≠ 0 →
        ∃ b ∈ k.buttons, b.buttonId = k.actKey ∧ b.ActiveAt (pins b.buttonId) := by
      intro hset
      obtain ⟨b, hb, hkey, hactive⟩ := h.named hset
      have hrelease : ¬ b.Releases (pins b.buttonId) := fun hr => hquiet b hb (Or.inr hr)
      exact ⟨b, hb, hkey,
        activeAt_of_not_lapses (h.sound b hb) hactive hrelease (hfair b hb hkey)⟩
    refine ⟨⟨?_, ?_⟩, hlasts⟩
    · intro hset
      obtain ⟨b, hb, -, hat⟩ := hlasts hset
      exact ⟨b, hb, hat⟩
    · -- an active button in no press would raise one
      rintro ⟨b, hb, hat⟩ hclear
      have hloose := h.clear hclear b hb
      have hstates := (h.sound b hb).states
      exact hquiet b hb (Or.inl ⟨by omega, hat⟩)

/-- **The key follows the buttons after a tick exactly where its samples
are fair.** -/
theorem follows_buttonTicks_iff (h : KeypadInv k) :
    Follows (buttonTicks k pins) ↔ Fair k pins := by
  have hany := exists_active_buttonTicks pins h
  have hnames := fun key => exists_buttonTicks pins h fun id => id = key
  have hkey := (ticksFrom_spec pins k.buttons h.sound k.actKey).2
  rw [← buttonTicks] at hkey
  rw [follows_iff, hany, hnames, hkey, Fair]
  cases hlast : lastEvent pins k.buttons with
  | some b =>
    have hmem := List.mem_filter.1 (List.mem_of_getLast? hlast)
    have hevent : HasEvent pins b := by simpa using hmem.2
    exact follows_of_event_iff h hmem.1 hevent
  | none =>
    refine follows_of_quiet_iff h fun b hb => ?_
    have hnil := List.getLast?_eq_none_iff.1 hlast
    simpa using List.filter_eq_nil_iff.1 hnil b hb

end Tick

/-! ## A run -/

theorem keypadInv_btnInit (pins : UInt8 → PinLevel) : KeypadInv (btnInit pins) := by
  have hinit : ∀ b ∈ (btnInit pins).buttons, b.state = 0 ∧ b.buttonId ≠ 0 := by
    intro b hb
    simp only [btnInit, List.foldl_cons, List.foldl_nil, List.mem_cons, List.not_mem_nil,
      or_false] at hb
    have hids : btnRightId ≠ 0 ∧ btnLeftId ≠ 0 ∧ btnDownId ≠ 0 ∧ btnUpId ≠ 0 := by decide
    rcases hb with rfl | rfl | rfl | rfl
    · exact ⟨rfl, hids.1⟩
    · exact ⟨rfl, hids.2.1⟩
    · exact ⟨rfl, hids.2.2.1⟩
    · exact ⟨rfl, hids.2.2.2⟩
  have hdistinct : [btnRightId, btnLeftId, btnDownId, btnUpId].Nodup := by decide
  refine ⟨fun b hb => (hinit b hb).2, hdistinct, fun b hb => ?_, fun hset => absurd rfl hset,
    fun _ b hb => ?_⟩
  · exact sound_of Iff.rfl (Or.inl (hinit b hb).1)
  · have := (hinit b hb).1
    omega

/-- **The keypad state follows the buttons in every tick of a run exactly
where every tick's samples are fair**, over any samples. -/
theorem keypad_follows_iff (pins : UInt8 → PinLevel) (samples : List (UInt8 → PinLevel)) :
    Run.AlongRun buttonTicks (fun _ _ k' => Follows k') (btnInit pins) samples ↔
      Run.AlongRun buttonTicks (fun k pins _ => Fair k pins) (btnInit pins) samples :=
  Run.alongRun_iff (Q := fun _ _ _ => True) (fun _ _ h _ => follows_buttonTicks_iff h)
    (fun _ _ h hfollows => keypadInv_tick h hfollows) (keypadInv_btnInit pins)
    (Run.alongRun_of_forall fun _ _ => trivial)

/-- Samples with just the given buttons pressed. -/
def pressed (ids : List UInt8) : UInt8 → PinLevel := fun id => if id ∈ ids then .low else .high

/-- Up and down are pressed together, then up is released: the key is clear
while down is held. -/
theorem keypad_forgets_held_button :
    ¬ Run.AlongRun buttonTicks (fun _ _ k' => Follows k') (btnInit (pressed []))
      (List.replicate 3 (pressed [btnUpId, btnDownId]) ++
        List.replicate 3 (pressed [btnDownId])) := by
  intro h
  have hlast := Run.alongRun_iff_forall.1 h
    (List.replicate 3 (pressed [btnUpId, btnDownId]) ++ List.replicate 2 (pressed [btnDownId]))
    (pressed [btnDownId]) [] rfl
  have hclear := mt hlast.set.2
  revert hclear
  decide +kernel

end Button

end RtSpark
