import RtSpark.Sdio.Package
import RtSpark.Common.Run
/-!
# Which command a completion belongs to

The event set is never emptied before a command is sent, and the interrupt
stays open until the thread closes it. A completing interrupt that comes
after the wait is over leaves its flags behind, and they complete the next
command. `attributed_alongRun` says that nothing else goes wrong, and
`prompt_iff` that this always does: an interrupt that is not in time can be
followed, without another, up to a wait that takes what is not its own.
-/

namespace RtSpark

namespace Sdio

open Run

variable {sdio : Sdio}

/-! ## Late interrupts -/

/-- Without another interrupt the run can go wrong from here. -/
def Fails (sdio : Sdio) : Prop :=
  ∃ as, .irq ∉ as ∧ ¬ AlongRun sdioStep (fun _ _ s' => Attributed s') sdio as

theorem fails_of_step {a : Act} (ha : a ≠ .irq) (h : Fails (sdio.sdioStep a)) : Fails sdio := by
  obtain ⟨as, hirq, hrun⟩ := h
  refine ⟨a :: as, fun hmem => ?_, fun hall => hrun hall.2⟩
  rcases List.mem_cons.1 hmem with heq | hmem
  · exact ha heq.symm
  · exact hirq hmem

theorem fails_of_not_attributed {a : Act} (ha : a ≠ .irq)
    (h : ¬ Attributed (sdio.sdioStep a)) : Fails sdio := by
  refine ⟨[a], fun hmem => ha (List.mem_singleton.1 hmem).symm, fun hall => h hall.1⟩

theorem fails_of_thread (h : Fails (sdio.thread false)) : Fails sdio :=
  fails_of_step (a := .thread false) (by decide) h

section Left

variable {f : Flag} {k : ℕ}

/-- The wait takes the event set whole. -/
theorem eventRecv_of_some (hf : sdio.event f = some k) :
    sdio.eventRecv = { sdio with pc := .woken, status := sdio.event, event := .empty } := by
  unfold eventRecv
  rw [if_pos (Status.any_of_eq_some hf)]

theorem fails_of_sent (hpc : sdio.pc = .sent) (hf : sdio.event f = some k) (hk : k ≠ sdio.cmdNo) :
    Fails sdio := by
  refine fails_of_not_attributed (a := .thread false) (by decide) fun h => ?_
  simp only [sdioStep, thread, hpc, eventRecv_of_some hf] at h
  exact hk (h.status rfl f k hf)

/-- A flag in the event set that the next wait to come is not to have: of a
command before the one in hand, or of the one that is over. -/
structure Left (sdio : Sdio) (f : Flag) (k : ℕ) : Prop where
  event : sdio.event f = some k
  pc : sdio.pc ≠ .waiting
  le : k ≤ sdio.cmdNo
  lt : sdio.pc.unsent = true ∨ sdio.pc = .sent → k < sdio.cmdNo

/-- How many steps of the thread there are to the next wait. -/
def Pc.toWait : Pc → ℕ
  | .sent | .waiting => 0
  | .armed => 1
  | .opened => 2
  | .saved => 3
  | .idle => 4
  | .closed => 5
  | .drained => 6
  | .completed => 7
  | .woken | .timedOut => 8

theorem waitCompleted_event (sdio : Sdio) :
    sdio.waitCompleted.pc = .completed ∧ sdio.waitCompleted.event = sdio.event ∧
      sdio.waitCompleted.cmdNo = sdio.cmdNo := by
  unfold waitCompleted
  split
  · exact ⟨rfl, rfl, rfl⟩
  · exact ⟨rfl, rfl, rfl⟩

/-- **A step of the thread leaves the flag and comes nearer to the wait.** -/
theorem Left.thread (h : Left sdio f k) (hsent : sdio.pc ≠ .sent)
    (hreq : sdio.pc = .idle → sdio.req ≠ []) :
    Left (sdio.thread false) f k ∧ (sdio.thread false).pc.toWait < sdio.pc.toWait := by
  unfold Sdio.thread
  split
  case h_1 hpc =>
    split
    · rename_i hnil
      exact absurd hnil (hreq hpc)
    · -- the next command has a number the flag does not have
      refine ⟨⟨h.event, by simp [savePkg], Nat.le_succ_of_le h.le, fun _ => ?_⟩, ?_⟩
      · exact Nat.lt_succ_of_le h.le
      · simp [hpc, savePkg, Pc.toWait]
  case h_2 hpc | h_3 hpc | h_4 hpc =>
    have hlt := h.lt (Or.inl (by rw [hpc]; rfl))
    refine ⟨⟨h.event, (fun h => by cases h), h.le, fun _ => hlt⟩, ?_⟩
    simp [hpc, openIrq, openDataIrq, Pc.toWait]
  case h_5 hpc => exact absurd hpc hsent
  case h_6 hpc => exact absurd hpc h.pc
  case h_7 hpc =>
    obtain ⟨hpc', hevent, hno⟩ := waitCompleted_event sdio
    refine ⟨⟨hevent ▸ h.event, by simp [hpc'], hno ▸ h.le, by simp [hpc', Pc.unsent]⟩, ?_⟩
    rw [hpc', hpc]
    decide
  case h_8 hpc | h_9 hpc | h_10 hpc | h_11 hpc =>
    refine ⟨⟨h.event, (fun h => by cases h), h.le, ?_⟩, ?_⟩
    · simp [waitTimedOut, drain, closeIrq, clearPkg, Pc.unsent]
    · simp [hpc, waitTimedOut, drain, closeIrq, clearPkg, Pc.toWait]

/-- **What is left of one command is taken for another's.** -/
theorem fails_of_left (h : Left sdio f k) : Fails sdio := by
  induction hn : sdio.pc.toWait using Nat.strongRecOn generalizing sdio with
  | _ n ih =>
    by_cases hsent : sdio.pc = .sent
    · exact fails_of_sent hsent h.event (Nat.ne_of_lt (h.lt (Or.inr hsent)))
    by_cases hidle : sdio.pc = .idle ∧ sdio.req = []
    · -- an idle driver takes another request, and the thread starts on it
      refine fails_of_step (a := .request (some ⟨0, 0, none⟩) none) (by decide) ?_
      have hleft : Left (sdio.sdioStep (.request (some ⟨0, 0, none⟩) none)) f k := by
        simp only [sdioStep, if_pos hidle]
        exact ⟨h.event, h.pc, h.le, h.lt⟩
      have hstep : sdio.sdioStep (.request (some ⟨0, 0, none⟩) none) =
          { sdio with req := [.ofCmd ⟨0, 0, none⟩] } := if_pos hidle
      rw [hstep] at hleft ⊢
      obtain ⟨hnext, hlt⟩ := hleft.thread hsent fun _ => by simp
      exact fails_of_thread (ih _ (hn ▸ hlt) hnext rfl)
    · obtain ⟨hnext, hlt⟩ := h.thread hsent fun hpc hreq => hidle ⟨hpc, hreq⟩
      exact fails_of_thread (ih _ (hn ▸ hlt) hnext rfl)

/-! ## A status that is not its own -/

theorem fails_of_dataError (hpc : sdio.pc = .woken) (hf : sdio.status f = some k)
    (hfd : f.isDataError = true) (hpkg : sdio.pkg ≠ none) (hdata : sdio.data = none) :
    Fails sdio := by
  obtain ⟨pkg, hsome⟩ := Option.ne_none_iff_exists'.1 hpkg
  obtain ⟨pkg', heq⟩ := waitCompleted_eq hsome
  have hnone : pkg.cmd.data = none := by
    rw [← hdata, data, hsome]
    rfl
  have hhas : sdio.status.has f = true := Status.has_iff.2 ⟨k, hf⟩
  have hor : (sdio.status.has .dcrcfail || sdio.status.has .dtimeout) = true := by
    rw [Bool.or_eq_true]
    cases f
    case dcrcfail => exact Or.inl hhas
    case dtimeout => exact Or.inr hhas
    all_goals cases hfd
  refine fails_of_not_attributed (a := .thread false) (by decide) fun h => ?_
  have hnull := h.data
  simp only [sdioStep, thread, hpc, heq, hnone, hor, Option.isNone_none, Bool.and_true,
    Bool.or_true] at hnull
  cases hnull

/-- A flag in the status that is of another command, or for data the command
does not have. -/
theorem fails_of_status (hpc : sdio.pc = .woken) (hpkg : sdio.pkg ≠ none)
    (hf : sdio.status f = some k)
    (hown : ¬ (k = sdio.cmdNo ∧ (f.isDataError = true → sdio.data.isSome = true))) :
    ¬ Attributed sdio ∨ Fails sdio := by
  by_cases hk : k = sdio.cmdNo
  · have hdata : ¬ (f.isDataError = true → sdio.data.isSome = true) := fun hd => hown ⟨hk, hd⟩
    obtain ⟨hfd, hsome⟩ := Classical.not_imp.1 hdata
    exact Or.inr (fails_of_dataError hpc hf hfd hpkg (Option.not_isSome_iff_eq_none.1 hsome))
  · exact Or.inl fun h => hk (h.status hpc f k hf)

/-- The same of a flag the wait has yet to take. -/
theorem fails_of_event (hpc : sdio.pc = .sent) (hpkg : sdio.pkg ≠ none)
    (hf : sdio.event f = some k)
    (hown : ¬ (k = sdio.cmdNo ∧ (f.isDataError = true → sdio.data.isSome = true))) :
    Fails sdio := by
  have hthread : sdio.thread false =
      { sdio with pc := .woken, status := sdio.event, event := .empty } := by
    simp only [thread, hpc, eventRecv_of_some hf]
  have hstatus : ¬ Attributed (sdio.thread false) ∨ Fails (sdio.thread false) := by
    rw [hthread]
    exact fails_of_status rfl hpkg hf hown
  rcases hstatus with h | h
  · exact fails_of_not_attributed (a := .thread false) (by decide) h
  · exact fails_of_thread h

end Left

/-! ## What a completing interrupt leaves -/

theorem exists_of_complete (h : sdio.complete = true) : ∃ f k, sdio.sta f = some k := by
  suffices hhas : ∃ f, sdio.sta.has f = true by
    obtain ⟨f, hf⟩ := hhas
    exact ⟨f, Status.has_iff.1 hf⟩
  simp only [complete, Bool.or_eq_true, Bool.and_eq_true] at h
  rcases h with ((h | h) | h) | h
  · obtain ⟨f, -, hf⟩ := Status.hasErrors_iff.1 h
    exact ⟨f, hf⟩
  · exact ⟨.cmdrend, h.1⟩
  · exact ⟨.cmdsent, h.1⟩
  · exact ⟨.dataend, h⟩

/-- What the flags, the card and the mask leave as it was. -/
theorem closeErrors_eq (sdio : Sdio) :
    ∃ (mask : Flag → Bool) (maskSdioit staSdioit dpsm nullPkg : Bool) (sta : Status) (wakeups : ℕ),
      sdio.irqFlags.irqSdioit.closeErrors =
        { sdio with
          mask := mask, maskSdioit := maskSdioit, sta := sta, staSdioit := staSdioit,
          dpsm := dpsm, wakeups := wakeups, nullPkg := nullPkg } := by
  unfold irqSdioit
  split
  · exact ⟨_, _, _, _, _, _, _, rfl⟩
  · exact ⟨_, _, _, _, _, _, _, rfl⟩

/-- **The flags go to the thread, or stay in the event set.** -/
theorem irqProcess_complete (h : sdio.complete = true) :
    sdio.irqProcess.cmdNo = sdio.cmdNo ∧ sdio.irqProcess.pkg = sdio.pkg ∧
      (sdio.pc = .waiting → sdio.irqProcess.pc = .woken ∧
        sdio.irqProcess.status = sdio.sta.or sdio.event) ∧
      (sdio.pc ≠ .waiting → sdio.irqProcess.pc = sdio.pc ∧
        sdio.irqProcess.event = sdio.sta.or sdio.event) := by
  obtain ⟨f, k, hf⟩ := exists_of_complete h
  obtain ⟨mask, maskSdioit, staSdioit, dpsm, nullPkg, sta, wakeups, heq⟩ := closeErrors_eq sdio
  unfold irqProcess irqComplete
  rw [if_pos h, heq]
  unfold eventSend
  rw [Status.any_of_eq_some hf]
  by_cases hpc : sdio.pc = .waiting
  · simp [hpc]
  · simp [hpc]

/-- A handler that completes nothing is late only for the null it follows. -/
theorem not_attributed_of_incomplete (hc : ¬ sdio.complete = true) (hlate : ¬ InTime sdio) :
    ¬ Attributed sdio.irqProcess := by
  -- the other two conditions are about an interrupt that completes
  have hnull : sdio.followsNull = true := by
    by_contra hfollows
    refine hlate ⟨fun h => absurd h hc, fun h => absurd h hc, fun hpkg => ?_⟩
    refine Bool.eq_false_iff.2 fun hsent => hfollows (followsNull_iff.2 ⟨?_, hsent, hpkg⟩)
    refine Bool.eq_false_iff.2 fun herrors => hc ?_
    unfold complete
    rw [herrors, Bool.true_or, Bool.true_or, Bool.true_or]
  intro h
  have hpkg := h.pkg
  unfold irqProcess at hpkg
  rw [if_neg hc, irqSdioit_nullPkg] at hpkg
  simp only [irqFlags, hnull, Bool.or_true] at hpkg
  cases hpkg

/-- **An interrupt that is not in time needs no other to go wrong.** -/
theorem fails_of_late (hnum : Numbered sdio) (hlate : ¬ InTime sdio) :
    ¬ Attributed sdio.irqProcess ∨ Fails sdio.irqProcess := by
  by_cases hc : sdio.complete = true
  · obtain ⟨hno, hpkg, hwaiting, hother⟩ := irqProcess_complete hc
    have hdata : sdio.irqProcess.data = sdio.data := by rw [data, data, hpkg]
    by_cases hpc : sdio.pc = .sent ∨ sdio.pc = .waiting
    · -- the thread is there to take the flags, so some are not the command's
      have hsome : sdio.pkg ≠ none := hnum.pkg_ne_none fun hidle => by
        rcases hpc with hpc | hpc <;> rw [hpc] at hidle <;> cases hidle
      have hown : ¬ sdio.Own sdio.sta := fun hown =>
        hlate ⟨fun _ => hpc, fun _ => hown, fun hnone => absurd hnone hsome⟩
      simp only [Own, not_forall] at hown
      obtain ⟨f, k, hf, hown⟩ := hown
      rw [← hno, ← hdata] at hown
      rw [← hpkg] at hsome
      have hor : sdio.sta.or sdio.event f = some k := by
        unfold Status.or
        rw [hf]
        rfl
      by_cases hwait : sdio.pc = .waiting
      · obtain ⟨hpc', hstatus⟩ := hwaiting hwait
        exact fails_of_status hpc' hsome (by rw [hstatus, hor]) hown
      · obtain ⟨hpc', hevent⟩ := hother hwait
        refine Or.inr (fails_of_event ?_ hsome (by rw [hevent, hor]) hown)
        rw [hpc']
        exact hpc.resolve_right hwait
    · -- it is not, and they stay for the next command
      rw [not_or] at hpc
      obtain ⟨hpc', hevent⟩ := hother hpc.2
      obtain ⟨f, k, hf⟩ := exists_of_complete hc
      refine Or.inr (fails_of_left (f := f) (k := k) ⟨?_, ?_, ?_, ?_⟩)
      · rw [hevent, Status.or, hf]
        rfl
      · rw [hpc']
        exact hpc.2
      · rw [hno]
        exact hnum.le f k hf
      · rw [hpc', hno]
        exact fun hu => hnum.lt (hu.resolve_right hpc.1) f k hf
  · exact Or.inl (not_attributed_of_incomplete hc hlate)

/-! ## Every run -/

theorem numbered_stateAfter (as : List Act) : Numbered (stateAfter sdioStep hostCreate as) :=
  invariant numbered_hostCreate fun _ a _ h => numbered_sdioStep h a

theorem attributed_alongRun {as : List Act}
    (hprompt : AlongRun sdioStep (fun s a _ => Prompt s a) hostCreate as) :
    AlongRun sdioStep (fun _ _ s' => Attributed s') hostCreate as := by
  refine alongRun_of_alongRun (I := Attended) ?_ attended_hostCreate hprompt
  intro sdio a h hin
  have hstep := attended_sdioStep h hin
  exact ⟨hstep, hstep.attributed⟩

/-- Steps that are no interrupt are prompt. -/
theorem prompt_of_no_irq {as : List Act} (hirq : .irq ∉ as) :
    AlongRun sdioStep (fun s a _ => Prompt s a) sdio as := by
  induction as generalizing sdio with
  | nil => trivial
  | cons a as ih =>
    rw [List.mem_cons, not_or] at hirq
    exact ⟨fun ha => absurd ha.symm hirq.1, ih hirq.2⟩

/-- After any run, a step that is not prompt can be followed to where
something has gone wrong. -/
theorem exists_of_not_prompt (js : List Act) {a : Act}
    (hlate : ¬ Prompt (stateAfter sdioStep hostCreate js) a) :
    ∃ ks, .irq ∉ ks ∧
      ¬ AlongRun sdioStep (fun _ _ s' => Attributed s') hostCreate (js ++ [a] ++ ks) := by
  simp only [Prompt, Classical.not_imp] at hlate
  obtain ⟨rfl, hpending, hlate⟩ := hlate
  have hstep : (stateAfter sdioStep hostCreate js).sdioStep .irq =
      (stateAfter sdioStep hostCreate js).irqProcess := if_pos hpending
  rcases fails_of_late (numbered_stateAfter js) hlate with hnot | ⟨ks, hirq, hrun⟩
  · refine ⟨[], List.not_mem_nil, fun hall => hnot ?_⟩
    rw [List.append_nil, alongRun_append] at hall
    rw [← hstep]
    exact hall.2.1
  · refine ⟨ks, hirq, fun hall => hrun ?_⟩
    rw [alongRun_append, stateAfter_append, stateAfter_cons, stateAfter_nil, hstep] at hall
    exact hall.2

/-- **Exactly the prompt runs are safe to go on from.** -/
theorem prompt_iff (as : List Act) :
    AlongRun sdioStep (fun s a _ => Prompt s a) hostCreate as ↔
      ∀ js ks, js <+: as → .irq ∉ ks →
        AlongRun sdioStep (fun _ _ s' => Attributed s') hostCreate (js ++ ks) := by
  constructor
  · rintro hprompt js ks ⟨rest, rfl⟩ hirq
    exact attributed_alongRun (alongRun_append.2
      ⟨(alongRun_append.1 hprompt).1, prompt_of_no_irq hirq⟩)
  · intro hsafe
    refine alongRun_iff_forall.2 fun js a rest heq => ?_
    by_contra hlate
    obtain ⟨ks, hirq, hrun⟩ := exists_of_not_prompt js hlate
    exact hrun (hsafe (js ++ [a]) ks ⟨rest, by rw [heq, List.append_assoc]; rfl⟩ hirq)

/-- **A completion belongs to its command.** On a run whose interrupts are
in time every wait consumes flags that were raised for its own command, and
no null pointer is followed; and no other run is safe to go on from. Where
the card raises no interrupt of its own, the handler follows no null
`sdio->pkg` in any run. -/
theorem completions_belong (as : List Act) :
    (AlongRun sdioStep (fun s a _ => Prompt s a) hostCreate as →
      AlongRun sdioStep (fun _ _ s' => Attributed s') hostCreate as) ∧
    (AlongRun sdioStep (fun s a _ => Prompt s a) hostCreate as ↔
      ∀ js ks, js <+: as → .irq ∉ ks →
        AlongRun sdioStep (fun _ _ s' => Attributed s') hostCreate (js ++ ks)) ∧
    (.card ∉ as → (stateAfter sdioStep hostCreate as).nullPkg = false) := by
  refine ⟨attributed_alongRun, prompt_iff as, fun hcard => ?_⟩
  refine (invariant (I := fun sdio => Numbered sdio ∧ CardOff sdio)
    ⟨numbered_hostCreate, cardOff_hostCreate⟩ ?_).2.null
  intro sdio a ha h
  exact ⟨numbered_sdioStep h.1 a, cardOff_sdioStep h.2 h.1 fun heq => hcard (heq ▸ ha)⟩

/-- A run of two commands, the one without a response and the other with
data to read. -/
def twoCommands : List Act :=
  [.request (some ⟨0, 0, none⟩) (some ⟨1, 0, some ⟨false, true, true, 0⟩⟩),
    .thread false, .thread false, .thread false, .thread false, .thread false,
    .raise .cmdsent, .irq, .thread false, .thread false, .thread false, .thread false,
    .thread false, .thread false, .thread false, .thread false, .raise .cmdrend, .irq,
    .thread false, .raise .dataend, .irq, .thread false, .thread false, .thread false,
    .thread false]

theorem completions_belong_twoCommands :
    AlongRun sdioStep (fun _ _ s' => Attributed s') hostCreate twoCommands ∧
      (stateAfter sdioStep hostCreate twoCommands).nullPkg = false :=
  ⟨(completions_belong twoCommands).1 (by decide), (completions_belong twoCommands).2.2 (by decide)⟩

/-- **A late flag completes the next command.** A read runs into the time-out
of its command and, before the thread has closed the interrupt, ends its
data. The interrupt that comes of the second leaves its status in the event
set, where the wait for the next command finds it. -/
def lateDataend : List Act :=
  [.request (some ⟨1, 0, some ⟨false, true, true, 0⟩⟩) (some ⟨1, 0, none⟩),
    .thread false, .thread false, .thread false, .thread false, .thread false,
    .raise .ctimeout, .irq, .raise .dataend, .irq,
    .thread false, .thread false, .thread false, .thread false,
    .thread false, .thread false, .thread false, .thread false, .thread false]

theorem completions_do_not_belong :
    ¬ ∀ as, AlongRun sdioStep (fun _ _ s' => Attributed s') hostCreate as := by
  intro h
  have hlast := (alongRun_iff_forall.1 (h lateDataend)) lateDataend.dropLast (.thread false) []
    (by decide)
  have hstatus := hlast.status (by decide) .dataend 1 (by decide)
  revert hstatus
  decide

end Sdio

end RtSpark
