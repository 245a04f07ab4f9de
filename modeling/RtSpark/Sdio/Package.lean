import RtSpark.Sdio.InTime
/-!
# The package and the interrupts

What holds on every run, in time or not: there is a package from the first
statement of `rthw_sdio_send_command` to its last, and no flag is of a
command that is not on its way yet. Where the card raises no interrupt of
its own, the handler is entered only with a package.
-/

namespace RtSpark

namespace Sdio

variable {sdio : Sdio}

/-- The command is saved, and its register not written. -/
def Pc.unsent : Pc → Bool
  | .saved | .opened | .armed => true
  | _ => false

theorem Pc.not_unsent {pc : Pc} (h : pc.inProgress = true) : pc.unsent = false := by
  cases pc
  case saved | opened | armed => cases h
  all_goals rfl

/-- **The numbers of the flags.** -/
structure Numbered (sdio : Sdio) : Prop where
  pkg : sdio.pkg = none → sdio.pc = .idle
  le : ∀ f k, sdio.sta f = some k → k ≤ sdio.cmdNo
  lt : sdio.pc.unsent = true → ∀ f k, sdio.sta f = some k → k < sdio.cmdNo

theorem Numbered.pkg_ne_none (h : Numbered sdio) (hpc : sdio.pc ≠ .idle) : sdio.pkg ≠ none :=
  fun hpkg => hpc (h.pkg hpkg)

theorem numbered_hostCreate : Numbered hostCreate where
  pkg := fun _ => rfl
  le := fun f k hf => by cases hf
  lt := fun hpc => by cases hpc

/-! ## The thread -/

theorem numbered_eventRecv (h : Numbered sdio) (hpc : sdio.pc = .sent) :
    Numbered sdio.eventRecv := by
  have hpkg := h.pkg_ne_none (by simp [hpc])
  unfold eventRecv
  split
  · exact ⟨fun hp => absurd hp hpkg, h.le, (fun h => by cases h)⟩
  · exact ⟨fun hp => absurd hp hpkg, h.le, (fun h => by cases h)⟩

theorem waitCompleted_eq {pkg : SdioPkg} (hpkg : sdio.pkg = some pkg) :
    ∃ pkg', sdio.waitCompleted =
      { sdio with
        pc := .completed
        pkg := some pkg'
        nullData := sdio.nullData ||
          (pkg.cmd.data.isNone && (sdio.status.has .dcrcfail || sdio.status.has .dtimeout)) } := by
  unfold waitCompleted
  rw [hpkg]
  exact ⟨_, rfl⟩

theorem numbered_waitCompleted (h : Numbered sdio) (hpc : sdio.pc = .woken) :
    Numbered sdio.waitCompleted := by
  have hpkg := h.pkg_ne_none (by simp [hpc])
  obtain ⟨pkg, hsome⟩ := Option.ne_none_iff_exists'.1 hpkg
  obtain ⟨pkg', heq⟩ := waitCompleted_eq hsome
  rw [heq]
  exact ⟨(fun h => by cases h), h.le, (fun h => by cases h)⟩

/-- A new command gets a number no flag has. -/
theorem numbered_savePkg (h : Numbered sdio) (pkg : SdioPkg) (req : List SdioPkg) :
    Numbered (sdio.savePkg pkg req) where
  pkg := (fun h => by cases h)
  le := fun f k hf => Nat.le_succ_of_le (h.le f k hf)
  lt := fun _ f k hf => Nat.lt_succ_of_le (h.le f k hf)

theorem numbered_thread (h : Numbered sdio) (busy : Bool) : Numbered (sdio.thread busy) := by
  have hsome := h.pkg_ne_none
  unfold thread
  split
  case h_1 =>
    split
    · exact h
    · exact numbered_savePkg h _ _
  case h_2 hpc | h_3 hpc =>
    -- the register is still to be written, and what is set was set before
    have hpkg := hsome (by simp [hpc])
    exact ⟨fun hp => absurd hp hpkg, h.le, fun _ => h.lt (by rw [hpc]; rfl)⟩
  case h_4 hpc | h_10 hpc =>
    have hpkg := hsome (by simp [hpc])
    exact ⟨fun hp => absurd hp hpkg, h.le, (fun h => by cases h)⟩
  case h_5 hpc => exact numbered_eventRecv h hpc
  case h_6 => exact h
  case h_7 hpc => exact numbered_waitCompleted h hpc
  case h_8 hpc | h_9 hpc =>
    have hpkg := hsome (by simp [hpc])
    exact ⟨fun hp => absurd (Option.map_eq_none_iff.1 hp) hpkg, h.le, (fun h => by cases h)⟩
  case h_11 => exact ⟨fun _ => rfl, h.le, (fun h => by cases h)⟩

/-! ## The interrupt -/

theorem numbered_eventSend (h : Numbered sdio) (set : Status) : Numbered (sdio.eventSend set) := by
  unfold eventSend
  split
  · exact h
  · split
    · rename_i hpc
      have hpkg := h.pkg_ne_none (by simp [hpc])
      exact ⟨fun hp => absurd hp hpkg, h.le, (fun h => by cases h)⟩
    · exact ⟨h.pkg, h.le, h.lt⟩

theorem Status.of_clear {status : Status} {p : Flag → Bool} {f : Flag} {k : ℕ}
    (h : status.clear p f = some k) : status f = some k := by
  unfold Status.clear at h
  split at h
  · cases h
  · exact h

/-- The handler clears flags and sets none. -/
theorem of_irqFlags_sta {f : Flag} {k : ℕ} (h : sdio.irqFlags.sta f = some k) :
    sdio.sta f = some k := by
  dsimp only [irqFlags] at h
  exact Status.of_clear h

theorem numbered_irqProcess (h : Numbered sdio) : Numbered sdio.irqProcess := by
  have hflags : Numbered sdio.irqFlags :=
    { pkg := h.pkg
      le := fun f k hf => h.le f k (of_irqFlags_sta hf)
      lt := fun hpc f k hf => h.lt hpc f k (of_irqFlags_sta hf) }
  have hsdioit : Numbered sdio.irqFlags.irqSdioit := by
    unfold irqSdioit
    split
    · exact ⟨hflags.pkg, hflags.le, hflags.lt⟩
    · exact hflags
  unfold irqProcess
  split
  · have hmask : Numbered sdio.irqFlags.irqSdioit.closeErrors :=
      ⟨hsdioit.pkg, hsdioit.le, hsdioit.lt⟩
    exact numbered_eventSend hmask _
  · exact hsdioit

/-- **Every step keeps the numbers.** -/
theorem numbered_sdioStep (h : Numbered sdio) (a : Act) : Numbered (sdio.sdioStep a) := by
  cases a with
  | request cmd stop =>
    simp only [sdioStep]
    split
    · exact ⟨h.pkg, h.le, h.lt⟩
    · exact h
  | thread busy => exact numbered_thread h busy
  | timeout =>
    simp only [sdioStep]
    split
    · rename_i hpc
      have hpkg := h.pkg_ne_none (by simp [hpc])
      exact ⟨fun hp => absurd hp hpkg, h.le, (fun h => by cases h)⟩
    · exact h
  | raise f =>
    simp only [sdioStep]
    split
    · rename_i hraise
      obtain ⟨hpc, -⟩ := Bool.and_eq_true_iff.1 hraise
      refine ⟨h.pkg, fun g k hg => ?_, fun hu => ?_⟩
      · by_cases hgf : g = f
        · simp only [if_pos hgf, Option.some.injEq] at hg
          exact Nat.le_of_eq hg.symm
        · simp only [if_neg hgf] at hg
          exact h.le g k hg
      · -- the controller raises flags only for a command it has been sent
        have hsent : sdio.pc.unsent = false := Pc.not_unsent hpc
        rw [show sdio.pc.unsent = true from hu] at hsent
        cases hsent
    · exact h
  | card => exact ⟨h.pkg, h.le, h.lt⟩
  | irqUpdate enable => exact ⟨h.pkg, h.le, h.lt⟩
  | irq =>
    simp only [sdioStep]
    split
    · exact numbered_irqProcess h
    · exact h

/-! ## Without the card's interrupt -/

/-- **The invariant where the card raises no interrupt**, which the driver
leaves enabled. All the others are closed while there is no package. -/
structure CardOff (sdio : Sdio) : Prop where
  card : sdio.staSdioit = false
  mask : sdio.pc = .idle ∨ sdio.pc = .saved ∨ sdio.pc = .closed → ∀ f, sdio.mask f = false
  null : sdio.nullPkg = false

theorem CardOff.not_pending (h : CardOff sdio) (hpc : sdio.pc = .idle) :
    sdio.irqPending = false := by
  have hmask := h.mask (Or.inl hpc)
  unfold irqPending
  rw [h.card, Bool.and_false, Bool.or_false, List.any_eq_false]
  intro f _
  rw [hmask f, Bool.false_and]
  decide

/-- With the interrupts open nothing is asked of the mask. -/
theorem cardOff_of_open (hcard : sdio.staSdioit = false)
    (hpc : ¬ (sdio.pc = .idle ∨ sdio.pc = .saved ∨ sdio.pc = .closed))
    (hnull : sdio.nullPkg = false) : CardOff sdio where
  card := hcard
  mask := fun hp => absurd hp hpc
  null := hnull

theorem cardOff_hostCreate : CardOff hostCreate where
  card := rfl
  mask := fun _ _ => rfl
  null := rfl

theorem cardOff_eventRecv (h : CardOff sdio) : CardOff sdio.eventRecv := by
  unfold eventRecv
  split
  · exact cardOff_of_open h.card (by simp) h.null
  · exact cardOff_of_open h.card (by simp) h.null

theorem cardOff_waitCompleted (h : CardOff sdio) : CardOff sdio.waitCompleted := by
  unfold waitCompleted
  split
  · exact cardOff_of_open h.card (by simp) h.null
  · exact cardOff_of_open h.card (by simp) h.null

theorem cardOff_thread (h : CardOff sdio) (busy : Bool) : CardOff (sdio.thread busy) := by
  unfold thread
  split
  case h_1 hpc =>
    split
    · exact h
    · exact ⟨h.card, fun _ => h.mask (Or.inl hpc), h.null⟩
  case h_2 => exact cardOff_of_open h.card (by simp [openIrq]) h.null
  case h_3 => exact cardOff_of_open h.card (by simp [openDataIrq]) h.null
  case h_4 => exact cardOff_of_open h.card (by simp) h.null
  case h_5 => exact cardOff_eventRecv h
  case h_6 => exact h
  case h_7 => exact cardOff_waitCompleted h
  case h_8 => exact cardOff_of_open h.card (by simp [waitTimedOut]) h.null
  case h_9 => exact cardOff_of_open h.card (by simp [drain]) h.null
  case h_10 => exact ⟨h.card, fun _ _ => rfl, h.null⟩
  case h_11 hpc => exact ⟨h.card, fun _ => h.mask (Or.inr (Or.inr hpc)), h.null⟩

theorem cardOff_eventSend (h : CardOff sdio) (set : Status) : CardOff (sdio.eventSend set) := by
  unfold eventSend
  split
  · exact h
  · split
    · exact cardOff_of_open h.card (by simp) h.null
    · exact ⟨h.card, h.mask, h.null⟩

/-- The handler closes flags and opens none, and it is entered only with a
package. -/
theorem cardOff_irqProcess (h : CardOff sdio) (hnum : Numbered sdio)
    (hpending : sdio.irqPending = true) : CardOff sdio.irqProcess := by
  -- while the driver is idle everything is masked
  have hpc : sdio.pc ≠ .idle := fun hpc => by
    rw [h.not_pending hpc] at hpending
    cases hpending
  have hnull : sdio.followsNull = false :=
    Bool.eq_false_iff.2 fun hnull => hnum.pkg_ne_none hpc (followsNull_iff.1 hnull).2.2
  have hflags : CardOff sdio.irqFlags :=
    { card := h.card
      mask := h.mask
      null := by
        show (sdio.nullPkg || sdio.followsNull) = false
        rw [h.null, hnull]
        rfl }
  have hsdioit : CardOff sdio.irqFlags.irqSdioit := by
    unfold irqSdioit
    split
    · exact ⟨rfl, hflags.mask, hflags.null⟩
    · exact hflags
  unfold irqProcess
  split
  · have hmask : CardOff sdio.irqFlags.irqSdioit.closeErrors :=
      { card := hsdioit.card
        mask := fun hp f => by
          show (!f.isError && sdio.irqFlags.irqSdioit.mask f) = false
          rw [hsdioit.mask hp f, Bool.and_false]
        null := hsdioit.null }
    exact cardOff_eventSend hmask _
  · exact hsdioit

theorem cardOff_sdioStep (h : CardOff sdio) (hnum : Numbered sdio) {a : Act}
    (ha : a ≠ .card) : CardOff (sdio.sdioStep a) := by
  cases a with
  | request cmd stop =>
    simp only [sdioStep]
    split
    · exact ⟨h.card, h.mask, h.null⟩
    · exact h
  | thread busy => exact cardOff_thread h busy
  | timeout =>
    simp only [sdioStep]
    split
    · exact cardOff_of_open h.card (by simp) h.null
    · exact h
  | raise f =>
    simp only [sdioStep]
    split
    · exact ⟨h.card, h.mask, h.null⟩
    · exact h
  | card => exact absurd rfl ha
  | irqUpdate enable => exact ⟨h.card, h.mask, h.null⟩
  | irq =>
    simp only [sdioStep]
    split
    · rename_i hpending
      exact cardOff_irqProcess h hnum hpending
    · exact h

end Sdio

end RtSpark
