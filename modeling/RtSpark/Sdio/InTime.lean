import RtSpark.Sdio.Model.DrvSdio
import Mathlib.Data.Nat.Basic
/-!
# Interrupts in time

What the interrupts of a command must keep to for its wait to take no flags
but its own: the thread has not been woken yet, and everything in the status
register was raised for the command. `Attended` is the invariant of the runs
on which they do.
-/

namespace RtSpark

namespace Sdio

variable {sdio : Sdio} {set status : Status}

/-! ## Sets of flags -/

theorem Flag.mem_all (f : Flag) : f ∈ Flag.all := by
  cases f <;> decide

namespace Status

theorem any_iff : status.any = true ↔ ∃ f, status.has f = true := by
  unfold any
  rw [List.any_eq_true]
  exact exists_congr fun f => and_iff_right f.mem_all

theorem has_iff {f : Flag} : status.has f = true ↔ ∃ k, status f = some k :=
  Option.isSome_iff_exists

theorem hasErrors_iff :
    status.hasErrors = true ↔ ∃ f, f.isError = true ∧ status.has f = true := by
  unfold hasErrors
  rw [List.any_eq_true]
  simp only [Flag.mem_all, true_and, Bool.and_eq_true]

theorem eq_empty_of_any (h : status.any = false) : status = .empty := by
  funext f
  have hf : ¬ status.has f = true := fun hf => by
    rw [any_iff.2 ⟨f, hf⟩] at h
    cases h
  rw [has_iff, not_exists] at hf
  exact Option.eq_none_iff_forall_ne_some.2 hf

theorem or_eq_some {f : Flag} {k : ℕ} (h : set.or status f = some k) :
    set f = some k ∨ status f = some k := by
  rcases Option.or_eq_some_iff.1 h with h | ⟨-, h⟩
  · exact Or.inl h
  · exact Or.inr h

theorem any_of_eq_some {f : Flag} {k : ℕ} (h : status f = some k) : status.any = true :=
  any_iff.2 ⟨f, has_iff.2 ⟨k, h⟩⟩

end Status

/-! ## What a wait may consume -/

/-- `HW_SDIO_IT_DCRCFAIL` and `HW_SDIO_IT_DTIMEOUT`, the flags a wait
writes `data->err` for. -/
def Flag.isDataError : Flag → Bool
  | .dcrcfail | .dtimeout => true
  | _ => false

/-- Flags of the command in hand, with data errors only where it has
data. -/
def Own (sdio : Sdio) (set : Status) : Prop :=
  ∀ f k, set f = some k → k = sdio.cmdNo ∧ (f.isDataError = true → sdio.data.isSome = true)

/-- Nothing has gone wrong yet: a wait that was woken has flags of its own
command, and no null pointer was followed. -/
structure Attributed (sdio : Sdio) : Prop where
  status : sdio.pc = .woken → ∀ f k, sdio.status f = some k → k = sdio.cmdNo
  pkg : sdio.nullPkg = false
  data : sdio.nullData = false

/-- **The interrupt is in time.** If it completes, the thread has yet to be
woken and all it has is of the command in hand; without a command it does
not have `HW_SDIO_IT_CMDSENT`. -/
structure InTime (sdio : Sdio) : Prop where
  pc : sdio.complete = true → sdio.pc = .sent ∨ sdio.pc = .waiting
  own : sdio.complete = true → sdio.Own sdio.sta
  pkg : sdio.pkg = none → sdio.sta.has .cmdsent = false

/-- **The invariant.** The event set holds something only between the write
of the command and the wait, and that is of the command. -/
structure Attended (sdio : Sdio) : Prop where
  sent : ∀ f k, sdio.event f = some k → sdio.pc = .sent
  event : sdio.Own sdio.event
  status : sdio.pc = .woken → sdio.Own sdio.status
  pkg : sdio.nullPkg = false
  data : sdio.nullData = false

theorem Attended.attributed (h : Attended sdio) : Attributed sdio where
  status := fun hpc f k hf => (h.status hpc f k hf).1
  pkg := h.pkg
  data := h.data

theorem Attended.event_empty (h : Attended sdio) (hpc : sdio.pc ≠ .sent) :
    sdio.event = .empty := by
  funext f
  exact Option.eq_none_iff_forall_ne_some.2 fun k hf => hpc (h.sent f k hf)

theorem own_empty : sdio.Own .empty := by
  intro f k hf
  cases hf

theorem Own.or (hset : sdio.Own set) (hstatus : sdio.Own status) :
    sdio.Own (set.or status) := by
  intro f k hf
  rcases Status.or_eq_some hf with hf | hf
  · exact hset f k hf
  · exact hstatus f k hf

instance (sdio : Sdio) (set : Status) : Decidable (sdio.Own set) :=
  decidable_of_iff
    (∀ f ∈ Flag.all, set f = none ∨
      set f = some sdio.cmdNo ∧ (f.isDataError = true → sdio.data.isSome = true)) <| by
    refine ⟨fun h f k hf => ?_, fun h f _ => ?_⟩
    · rcases h f f.mem_all with hnone | ⟨hsome, hdata⟩
      · rw [hnone] at hf
        cases hf
      · rw [hsome] at hf
        exact ⟨(Option.some.inj hf).symm, hdata⟩
    · rcases hf : set f with _ | k
      · exact Or.inl rfl
      · obtain ⟨hk, hdata⟩ := h f k hf
        exact Or.inr ⟨by rw [hk], hdata⟩

instance (sdio : Sdio) : Decidable (InTime sdio) :=
  decidable_of_iff
    ((sdio.complete = true → sdio.pc = .sent ∨ sdio.pc = .waiting) ∧
      (sdio.complete = true → sdio.Own sdio.sta) ∧
      (sdio.pkg = none → sdio.sta.has .cmdsent = false))
    ⟨fun h => ⟨h.1, h.2.1, h.2.2⟩, fun h => ⟨h.pc, h.own, h.pkg⟩⟩

/-- With no event left and no status to look at, only the two pointers are
in question. -/
theorem attended_of_empty (hevent : sdio.event = .empty) (hpc : sdio.pc ≠ .woken)
    (hpkg : sdio.nullPkg = false) (hdata : sdio.nullData = false) : Attended sdio where
  sent := fun f k hf => by
    rw [hevent] at hf
    cases hf
  event := hevent ▸ own_empty
  status := fun h => absurd h hpc
  pkg := hpkg
  data := hdata

theorem attended_hostCreate : Attended hostCreate :=
  attended_of_empty rfl (by decide) rfl rfl

/-! ## The thread -/

theorem attended_eventRecv (h : Attended sdio) : Attended sdio.eventRecv := by
  unfold eventRecv
  split
  · exact
      { sent := fun f k hf => by cases hf
        event := own_empty
        status := fun _ => h.event
        pkg := h.pkg
        data := h.data }
  · rename_i hany
    have hempty := Status.eq_empty_of_any (Bool.eq_false_iff.2 hany)
    exact attended_of_empty hempty (fun h => by cases h) h.pkg h.data

/-- `data->err` is written only for a command that has data. -/
theorem attended_waitCompleted (h : Attended sdio) (hpc : sdio.pc = .woken) :
    Attended sdio.waitCompleted := by
  have hempty : sdio.event = .empty := h.event_empty (by simp [hpc])
  have hown := h.status hpc
  unfold waitCompleted
  split
  · exact attended_of_empty hempty (by simp) h.pkg h.data
  · rename_i pkg hpkg
    have hdata : sdio.data = pkg.cmd.data := by rw [data, hpkg]; rfl
    have hsome : ∀ f : Flag, f.isDataError = true → sdio.status.has f = true →
        pkg.cmd.data.isSome = true := by
      intro f hf hhas
      obtain ⟨k, hk⟩ := Status.has_iff.1 hhas
      rw [← hdata]
      exact (hown f k hk).2 hf
    -- either the command has data, or neither of the two flags is there
    refine attended_of_empty hempty (by simp) h.pkg ?_
    have h1 := hsome .dcrcfail rfl
    have h2 := hsome .dtimeout rfl
    simp only [h.data, Bool.false_or, Bool.and_eq_false_iff, Bool.or_eq_false_iff]
    by_cases hd : pkg.cmd.data.isSome = true
    · exact Or.inl (by rw [Option.isNone_eq_false_iff]; exact hd)
    · exact Or.inr ⟨Bool.eq_false_iff.2 fun hh => hd (h1 hh),
        Bool.eq_false_iff.2 fun hh => hd (h2 hh)⟩

theorem attended_thread (h : Attended sdio) (busy : Bool) : Attended (sdio.thread busy) := by
  unfold thread
  split
  case h_1 hpc =>
    have hempty := h.event_empty (by simp [hpc])
    split
    · exact h
    · exact attended_of_empty hempty (by simp [savePkg]) h.pkg h.data
  -- the three steps of the wait; the others have nothing in the event set
  case h_5 => exact attended_eventRecv h
  case h_6 => exact h
  case h_7 hpc => exact attended_waitCompleted h hpc
  all_goals
    rename_i hpc
    have hempty := h.event_empty (by simp [hpc])
    exact attended_of_empty hempty (fun h => by cases h) h.pkg h.data

/-! ## The interrupt -/

theorem followsNull_iff : sdio.followsNull = true ↔
    sdio.sta.hasErrors = false ∧ sdio.sta.has .cmdsent = true ∧ sdio.pkg = none := by
  simp only [followsNull, Bool.and_eq_true, Bool.not_eq_true', Option.isNone_iff_eq_none, and_assoc]

theorem InTime.followsNull (h : InTime sdio) : sdio.followsNull = false := by
  refine Bool.eq_false_iff.2 fun hnull => ?_
  obtain ⟨-, hsent, hpkg⟩ := followsNull_iff.1 hnull
  rw [h.pkg hpkg] at hsent
  cases hsent

theorem attended_irqFlags (h : Attended sdio) (hpkg : sdio.followsNull = false) :
    Attended sdio.irqFlags where
  sent := h.sent
  event := h.event
  status := h.status
  pkg := by
    show (sdio.nullPkg || sdio.followsNull) = false
    rw [h.pkg, hpkg]
    rfl
  data := h.data

theorem attended_irqSdioit (h : Attended sdio) : Attended sdio.irqSdioit := by
  unfold irqSdioit
  split
  · exact ⟨h.sent, h.event, h.status, h.pkg, h.data⟩
  · exact h

@[simp] theorem irqSdioit_pc (sdio : Sdio) : sdio.irqSdioit.pc = sdio.pc := by
  unfold irqSdioit
  split <;> rfl

@[simp] theorem irqSdioit_nullPkg (sdio : Sdio) : sdio.irqSdioit.nullPkg = sdio.nullPkg := by
  unfold irqSdioit
  split <;> rfl

theorem Own.irqSdioit (h : sdio.Own set) : sdio.irqSdioit.Own set := by
  unfold Sdio.irqSdioit
  split
  · exact h
  · exact h

/-- **Flags that are sent in time belong.** A waiting thread takes them at
once, one that is yet to wait finds them. -/
theorem attended_eventSend (h : Attended sdio) (hpc : sdio.pc = .sent ∨ sdio.pc = .waiting)
    (hset : sdio.Own set) : Attended (sdio.eventSend set) := by
  have hor := Own.or hset h.event
  unfold eventSend
  split
  · exact h
  · split
    · exact
        { sent := fun f k hf => by cases hf
          event := own_empty
          status := fun _ => hor
          pkg := h.pkg
          data := h.data }
    · -- the thread has sent the command and not asked yet
      rename_i hwait
      have hsent : sdio.pc = .sent := hpc.resolve_right hwait
      exact
        { sent := fun f k hf => hsent
          event := hor
          status := fun hw => by
            rw [hsent] at hw
            cases hw
          pkg := h.pkg
          data := h.data }

theorem attended_irqProcess (h : Attended sdio) (hin : InTime sdio) :
    Attended sdio.irqProcess := by
  have hflags := attended_irqSdioit (attended_irqFlags h hin.followsNull)
  unfold irqProcess
  split
  · rename_i hcomplete
    have hmask : Attended sdio.irqFlags.irqSdioit.closeErrors :=
      ⟨hflags.sent, hflags.event, hflags.status, hflags.pkg, hflags.data⟩
    have hpc : sdio.irqFlags.irqSdioit.pc = .sent ∨ sdio.irqFlags.irqSdioit.pc = .waiting := by
      rw [irqSdioit_pc]
      exact hin.pc hcomplete
    have hown : sdio.irqFlags.Own sdio.sta := hin.own hcomplete
    exact attended_eventSend hmask hpc hown.irqSdioit
  · exact hflags

/-! ## One step -/

/-- The interrupts of a step are in time. -/
def Prompt (sdio : Sdio) (a : Act) : Prop :=
  a = .irq → sdio.irqPending = true → InTime sdio

instance (sdio : Sdio) (a : Act) : Decidable (Prompt sdio a) :=
  inferInstanceAs (Decidable (_ → _ → _))

/-- **One step keeps the invariant.** -/
theorem attended_sdioStep (h : Attended sdio) {a : Act} (hin : Prompt sdio a) :
    Attended (sdio.sdioStep a) := by
  cases a with
  | request cmd stop =>
    simp only [sdioStep]
    split
    · exact ⟨h.sent, h.event, h.status, h.pkg, h.data⟩
    · exact h
  | thread busy => exact attended_thread h busy
  | timeout =>
    simp only [sdioStep]
    split
    · rename_i hpc
      have hempty := h.event_empty (by simp [hpc])
      exact attended_of_empty hempty (fun h => by cases h) h.pkg h.data
    · exact h
  | raise f =>
    simp only [sdioStep]
    split
    · exact ⟨h.sent, h.event, h.status, h.pkg, h.data⟩
    · exact h
  | card => exact ⟨h.sent, h.event, h.status, h.pkg, h.data⟩
  | irqUpdate enable => exact ⟨h.sent, h.event, h.status, h.pkg, h.data⟩
  | irq =>
    simp only [sdioStep]
    split
    · rename_i hpending
      exact attended_irqProcess h (hin rfl hpending)
    · exact h

end Sdio

end RtSpark
