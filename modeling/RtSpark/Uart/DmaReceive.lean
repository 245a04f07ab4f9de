import RtSpark.Uart.Model.DrvUsart
import RtSpark.Common.Run
import RtSpark.Common.Ring
import Mathlib.Algebra.BigOperators.Group.List.Basic
import Mathlib.Tactic.NormNum
/-!
# What the handlers report against what the DMA stored

Both handlers take the distance from the index they last saw to the one they
see now. `uart_isr` takes the plain difference, `dma_isr` the difference
over the end of the buffer; which of the two is right depends on whether the
stream has gone round in between, and neither asks. `reception_accounts_iff`
says that the reports add up exactly on the runs in which it has for every
half-transfer and transfer-complete interrupt, and has not for every idle
one.
-/

namespace RtSpark

namespace Uart

variable {serial serial' : Uart} {bufsz : ℕ}

/-- The lengths reported so far. -/
def reported (serial : Uart) : List ℕ :=
  serial.events.filterMap fun
    | .rxDmadone recvLen => some recvLen
    | .rxInd => none

/-- The index the stream stands at. -/
def index (serial : Uart) : ℕ := serial.bufsz - serial.counter

/-- The stream has gone round since a handler last looked. -/
def Wrapped (serial : Uart) : Prop := serial.index < serial.lastIndex

instance (serial : Uart) : Decidable serial.Wrapped := inferInstanceAs (Decidable (_ < _))

/-- **The receiver's invariant.** The registers follow the number of bytes
stored, and the driver's index the number of bytes served. -/
structure Receiving (serial : Uart) : Prop where
  pos : 0 < serial.bufsz
  lt : serial.bufsz < 2 ^ 16
  dma : serial.uartDmaFlag = true
  sources : serial.itRxne = false ∧ serial.itIdle = true ∧ serial.itTc = true
  counter : serial.counter + serial.stored % serial.bufsz = serial.bufsz
  last : serial.lastIndex = serial.served % serial.bufsz
  le : serial.served ≤ serial.stored

/-- The reports add up to what was stored when a handler last looked, and
none is longer than the buffer. -/
structure Accounts (serial : Uart) : Prop where
  sum : serial.reported.sum = serial.served
  le : ∀ recvLen ∈ serial.reported, recvLen ≤ serial.bufsz

/-- Fewer bytes than the buffer holds have come since a handler last
looked. -/
def Timely (serial : Uart) : Prop := serial.stored - serial.served < serial.bufsz

instance (serial : Uart) : Decidable serial.Timely := inferInstanceAs (Decidable (_ < _))

/-! ## The two formulas -/

theorem sub32_of_le {a b : ℕ} (h : b ≤ a) (ha : a < 2 ^ 32) : sub32 a b = a - b := by
  unfold sub32
  omega

theorem Receiving.index_eq (h : Receiving serial) :
    serial.index = serial.stored % serial.bufsz := by
  have := h.counter
  unfold index
  omega

theorem Receiving.index_lt (h : Receiving serial) : serial.index < serial.bufsz := by
  rw [h.index_eq]
  exact Nat.mod_lt _ h.pos

theorem Receiving.last_lt (h : Receiving serial) : serial.lastIndex < serial.bufsz := by
  rw [h.last]
  exact Nat.mod_lt _ h.pos

theorem Receiving.recvTotalIndex (h : Receiving serial) :
    sub32 serial.bufsz serial.counter = serial.index := by
  have := h.counter
  have := h.lt
  exact sub32_of_le (by omega) (by omega)

/-- The bytes that have come are the distance between the two indices, round
the end of the buffer or not. -/
theorem Receiving.distance (h : Receiving serial) (ht : serial.Timely) :
    serial.served + serial.index + (if serial.Wrapped then serial.bufsz else 0) =
      serial.stored + serial.lastIndex := by
  unfold Timely at ht
  have hle := h.le
  have hring := Ring.add_mod_eq h.pos hle (by omega)
  rw [← h.index_eq, ← h.last] at hring
  exact hring

/-! ## Reports -/

theorem sum_report (serial : Uart) (recvLen : ℕ) :
    (serial.report recvLen).reported.sum = serial.reported.sum + recvLen % 2 ^ 24 := by
  unfold report
  split
  · simp [reported, rtHwSerialIsr]
  · rename_i h
    rw [not_not.1 h, Nat.zero_mod, Nat.add_zero]

theorem forall_report (serial : Uart) (recvLen b : ℕ) :
    (∀ r ∈ (serial.report recvLen).reported, r ≤ b) ↔
      (∀ r ∈ serial.reported, r ≤ b) ∧ recvLen % 2 ^ 24 ≤ b := by
  unfold report
  split
  · simp [reported, rtHwSerialIsr, or_imp, forall_and]
  · rename_i h
    simp [not_not.1 h]

/-- **One report is right exactly when it names the bytes that came.** -/
theorem accounts_report (h : Receiving serial) (hacc : Accounts serial) (ht : serial.Timely)
    {recvLen : ℕ} (hrep : serial'.reported = (serial.report recvLen).reported)
    (hserved : serial'.served = serial.stored) (hbuf : serial'.bufsz = serial.bufsz) :
    Accounts serial' ↔ recvLen % 2 ^ 24 = serial.stored - serial.served := by
  have hle := h.le
  have hsum := sum_report serial recvLen
  rw [hacc.sum] at hsum
  constructor
  · intro hacc'
    have hsum' := hacc'.sum
    rw [hrep, hsum, hserved] at hsum'
    omega
  · intro heq
    refine ⟨?_, ?_⟩
    · rw [hrep, hsum, hserved]
      omega
    · rw [hrep, hbuf, forall_report, heq]
      exact ⟨hacc.le, le_of_lt ht⟩

/-! ## The handlers -/

theorem dmaIsr_eq (h : Receiving serial) :
    serial.dmaIsr = { serial with lastIndex := serial.index }.report
      (serial.bufsz - serial.lastIndex + serial.index) := by
  have hlt := h.lt
  have hidx := h.index_lt
  have hlast := h.last_lt
  have hsub : sub32 serial.bufsz serial.lastIndex = serial.bufsz - serial.lastIndex :=
    sub32_of_le hlast.le (by omega)
  unfold dmaIsr
  rw [if_pos (Or.inl h.sources.2.2)]
  simp only [h.recvTotalIndex, hsub]
  congr 1
  split <;> omega

theorem uartIsr_eq (h : Receiving serial) (hidle : serial.flagIdle = true) :
    serial.uartIsr =
      { { serial with lastIndex := serial.index }.report (sub32 serial.index serial.lastIndex) with
        flagIdle := false } := by
  unfold uartIsr
  rw [if_neg (by simp [h.sources.1]), if_pos ⟨h.dma, hidle, h.sources.2.1⟩]
  simp only [h.recvTotalIndex]

/-- The difference over the end is right where the stream has gone round. -/
theorem dmaLen_iff (h : Receiving serial) (ht : serial.Timely) :
    (serial.bufsz - serial.lastIndex + serial.index) % 2 ^ 24 = serial.stored - serial.served ↔
      serial.Wrapped := by
  have hlt := h.lt
  have hidx := h.index_lt
  have hlast := h.last_lt
  have hdist := h.distance ht
  have hle := h.le
  rw [Nat.mod_eq_of_lt (by omega)]
  by_cases hw : serial.Wrapped
  · rw [if_pos hw] at hdist
    exact ⟨fun _ => hw, fun _ => by omega⟩
  · rw [if_neg hw] at hdist
    exact ⟨fun heq => by omega, fun h' => absurd h' hw⟩

/-- The plain difference is right where it has not. -/
theorem idleLen_iff (h : Receiving serial) (ht : serial.Timely) :
    sub32 serial.index serial.lastIndex % 2 ^ 24 = serial.stored - serial.served ↔
      ¬ serial.Wrapped := by
  have hlt := h.lt
  have hidx := h.index_lt
  have hlast := h.last_lt
  have hdist := h.distance ht
  have hle := h.le
  by_cases hw : serial.Wrapped
  · rw [if_pos hw] at hdist
    have hw' : serial.index < serial.lastIndex := hw
    unfold sub32
    exact ⟨fun heq => by omega, fun h' => absurd hw h'⟩
  · rw [if_neg hw] at hdist
    have hw' : serial.lastIndex ≤ serial.index := not_lt.1 hw
    rw [sub32_of_le hw' (by omega)]
    exact ⟨fun _ => hw, fun _ => by omega⟩

/-! ## One event -/

/-- The formula the handler taken at this event uses is the one that
applies. -/
def RightHandler (serial : Uart) : RxEvent → Prop
  | .byte => True
  | .lineIdle => True
  | .idleIrq => serial.flagIdle = true → ¬ serial.Wrapped
  | .halfIrq => serial.flagHt = true → serial.Wrapped
  | .completeIrq => serial.flagTc = true → serial.Wrapped

instance (serial : Uart) (e : RxEvent) : Decidable (serial.RightHandler e) := by
  cases e <;> unfold RightHandler <;> infer_instance

/-- A service leaves the receiver as it should be. -/
theorem Receiving.serve (h : Receiving serial) (hbuf : serial'.bufsz = serial.bufsz)
    (hcfg : serial'.uartDmaFlag = serial.uartDmaFlag ∧ serial'.itRxne = serial.itRxne ∧
      serial'.itIdle = serial.itIdle ∧ serial'.itTc = serial.itTc)
    (hcounter : serial'.counter = serial.counter) (hstored : serial'.stored = serial.stored)
    (hlast : serial'.lastIndex = serial.index) : Receiving serial'.serve where
  pos := hbuf ▸ h.pos
  lt := hbuf ▸ h.lt
  dma := hcfg.1.trans h.dma
  sources := ⟨hcfg.2.1.trans h.sources.1, hcfg.2.2.1.trans h.sources.2.1,
    hcfg.2.2.2.trans h.sources.2.2⟩
  counter := by
    change serial'.counter + serial'.stored % serial'.bufsz = serial'.bufsz
    rw [hbuf, hcounter, hstored]
    exact h.counter
  last := by
    change serial'.lastIndex = serial'.stored % serial'.bufsz
    rw [hlast, hstored, hbuf, h.index_eq]
  le := le_refl _

theorem report_lastIndex (serial : Uart) (i recvLen : ℕ) :
    { serial with lastIndex := i }.report recvLen =
      { serial.report recvLen with lastIndex := i } := by
  unfold report
  split
  · rfl
  · rfl

theorem report_fields (serial : Uart) (recvLen : ℕ) :
    serial.report recvLen = { serial with events := (serial.report recvLen).events } := by
  unfold report
  split
  · rfl
  · rfl

theorem Receiving.dmaIsr (h : Receiving serial) : Receiving serial.dmaIsr.serve := by
  rw [dmaIsr_eq h, report_fields]
  exact h.serve rfl ⟨rfl, rfl, rfl, rfl⟩ rfl rfl rfl

theorem Receiving.uartIsr (h : Receiving serial) (hidle : serial.flagIdle = true) :
    Receiving serial.uartIsr.serve := by
  rw [uartIsr_eq h hidle, report_fields]
  exact h.serve rfl ⟨rfl, rfl, rfl, rfl⟩ rfl rfl rfl

/-- The stream counts the byte and is reloaded at the end of the buffer. -/
theorem Receiving.store (h : Receiving serial) : Receiving serial.store := by
  have hcounter := h.counter
  have hlt := Nat.mod_lt serial.stored h.pos
  have hsucc := Ring.succ_mod h.pos serial.stored
  have hle := h.le
  unfold Uart.store
  split
  · -- the last byte of the buffer
    rename_i hone
    refine ⟨h.pos, h.lt, h.dma, h.sources, ?_, h.last, Nat.le_succ_of_le hle⟩
    simp only
    rw [hsucc, if_pos (by omega)]
    rfl
  · rename_i hmore
    refine ⟨h.pos, h.lt, h.dma, h.sources, ?_, h.last, Nat.le_succ_of_le hle⟩
    simp only
    rw [hsucc, if_neg (by omega)]
    omega

/-- **Every event keeps the receiver's invariant.** -/
theorem Receiving.step (h : Receiving serial) (e : RxEvent) : Receiving (serial.rxStep e) := by
  cases e with
  | byte => exact h.store
  | lineIdle => exact ⟨h.pos, h.lt, h.dma, h.sources, h.counter, h.last, h.le⟩
  | idleIrq =>
    simp only [rxStep]
    split
    · rename_i hidle
      exact h.uartIsr hidle
    · exact h
  | halfIrq =>
    simp only [rxStep]
    split
    · exact Receiving.dmaIsr ⟨h.pos, h.lt, h.dma, h.sources, h.counter, h.last, h.le⟩
    · exact h
  | completeIrq =>
    simp only [rxStep]
    split
    · exact Receiving.dmaIsr ⟨h.pos, h.lt, h.dma, h.sources, h.counter, h.last, h.le⟩
    · exact h

/-- A service that reports one length is right where that is what came. -/
theorem accounts_service (h : Receiving serial) (hacc : Accounts serial) (ht : serial.Timely)
    (recvLen : ℕ) (idle : Bool) :
    Accounts (serve
        { { serial with lastIndex := serial.index }.report recvLen with flagIdle := idle }) ↔
      recvLen % 2 ^ 24 = serial.stored - serial.served := by
  rw [report_lastIndex]
  refine accounts_report h hacc ht rfl ?_ ?_
  · rw [report_fields]
    rfl
  · rw [report_fields]
    rfl

/-- A service by `dma_isr` is right where the stream has gone round. -/
theorem accounts_dmaIsr (h : Receiving serial) (hacc : Accounts serial) (ht : serial.Timely) :
    Accounts serial.dmaIsr.serve ↔ serial.Wrapped := by
  rw [dmaIsr_eq h]
  exact (accounts_service h hacc ht _ _).trans (dmaLen_iff h ht)

/-- A service by `uart_isr` is right where it has not. -/
theorem accounts_uartIsr (h : Receiving serial) (hidle : serial.flagIdle = true)
    (hacc : Accounts serial) (ht : serial.Timely) :
    Accounts serial.uartIsr.serve ↔ ¬ serial.Wrapped := by
  rw [uartIsr_eq h hidle]
  exact (accounts_service h hacc ht _ _).trans (idleLen_iff h ht)

/-- **An event keeps the account exactly when the right handler takes it.** -/
theorem accounts_step_iff (h : Receiving serial) (hacc : Accounts serial) (ht : serial.Timely)
    (e : RxEvent) : Accounts (serial.rxStep e) ↔ serial.RightHandler e := by
  have hclear : ∀ ht' : Bool, ∀ tc : Bool,
      Receiving { serial with flagHt := ht', flagTc := tc } :=
    fun _ _ => ⟨h.pos, h.lt, h.dma, h.sources, h.counter, h.last, h.le⟩
  have hsame : ∀ ht' : Bool, ∀ tc : Bool,
      Accounts { serial with flagHt := ht', flagTc := tc } := fun _ _ => ⟨hacc.sum, hacc.le⟩
  cases e with
  | byte =>
    refine ⟨fun _ => trivial, fun _ => ?_⟩
    simp only [rxStep]
    unfold store
    split
    · exact ⟨hacc.sum, hacc.le⟩
    · exact ⟨hacc.sum, hacc.le⟩
  | lineIdle => exact ⟨fun _ => trivial, fun _ => ⟨hacc.sum, hacc.le⟩⟩
  | idleIrq =>
    simp only [rxStep, RightHandler]
    split
    · rename_i hidle
      rw [accounts_uartIsr h hidle hacc ht]
      exact ⟨fun hw _ => hw, fun hw => hw hidle⟩
    · rename_i hidle
      exact ⟨fun _ hup => absurd hup hidle, fun _ => hacc⟩
  | halfIrq =>
    -- half the buffer is full and the stream need not have gone round
    simp only [rxStep, RightHandler, halUartRxHalfCpltCallback]
    split
    · rename_i hup
      rw [accounts_dmaIsr (hclear false serial.flagTc) (hsame false serial.flagTc) ht]
      exact ⟨fun hw _ => hw, fun hw => hw hup⟩
    · rename_i hdown
      exact ⟨fun _ hup => absurd hup hdown, fun _ => hacc⟩
  | completeIrq =>
    -- it has gone round when the flag goes up, but an idle interrupt may come first
    simp only [rxStep, RightHandler, halUartRxCpltCallback]
    split
    · rename_i hup
      rw [accounts_dmaIsr (hclear serial.flagHt false) (hsame serial.flagHt false) ht]
      exact ⟨fun hw _ => hw, fun hw => hw hup⟩
    · rename_i hdown
      exact ⟨fun _ hup => absurd hup hdown, fun _ => hacc⟩

/-! ## Runs -/

theorem receiving_dmaConfig (hpos : 0 < bufsz) (hlt : bufsz < 2 ^ 16) :
    Receiving (dmaConfig bufsz) where
  pos := hpos
  lt := hlt
  dma := rfl
  sources := ⟨rfl, rfl, rfl⟩
  counter := by
    change bufsz + 0 % bufsz = bufsz
    rw [Nat.zero_mod, Nat.add_zero]
  last := (Nat.zero_mod bufsz).symm
  le := le_refl _

/-- **The reports account for the bytes exactly as long as the right handler
takes every interrupt.** In every run from the configured receiver in which
fewer bytes than the buffer holds come between two services, the lengths
reported add up at every step to the bytes stored by the last service, none
of them above the buffer, if and only if the stream has gone round before
each interrupt of the DMA that is taken, and before no idle interrupt. -/
theorem reception_accounts_iff (hpos : 0 < bufsz) (hlt : bufsz < 2 ^ 16) (es : List RxEvent)
    (ht : Run.AlongRun rxStep (fun s _ _ => s.Timely) (dmaConfig bufsz) es) :
    Run.AlongRun rxStep (fun _ _ s' => Accounts s') (dmaConfig bufsz) es ↔
      Run.AlongRun rxStep (fun s e _ => RightHandler s e) (dmaConfig bufsz) es := by
  refine Run.alongRun_iff (I := fun s => Receiving s ∧ Accounts s) ?_ ?_
    ⟨receiving_dmaConfig hpos hlt, ⟨rfl, by simp [reported, dmaConfig]⟩⟩ ht
  · rintro s e ⟨hr, hacc⟩ ht
    exact accounts_step_iff hr hacc ht e
  · rintro s e ⟨hr, -⟩ hacc
    exact ⟨hr.step e, hacc⟩

/-- Three bytes and a pause, and two more over the end of a buffer of four,
taken by the interrupt of the complete transfer. -/
theorem reception_accounts_pause :
    let es := [.byte, .byte, .byte, .lineIdle, .idleIrq, .byte, .byte, .completeIrq]
    Run.AlongRun rxStep (fun _ _ s' => Accounts s') (dmaConfig 4) es ∧
      (Run.stateAfter rxStep (dmaConfig 4) es).reported = [3, 2] := by
  intro es
  have ht : Run.AlongRun rxStep (fun s _ _ => s.Timely) (dmaConfig 4) es := by decide
  have hright : Run.AlongRun rxStep (fun s e _ => RightHandler s e) (dmaConfig 4) es := by decide
  exact ⟨(reception_accounts_iff (by omega) (by omega) es ht).2 hright, by decide⟩

/-- **Half a buffer is reported as one and a half.** -/
theorem reception_not_accounts :
    ¬ ∀ (bufsz : ℕ) (es : List RxEvent), 0 < bufsz → bufsz < 2 ^ 16 →
      Run.AlongRun rxStep (fun s _ _ => s.Timely) (dmaConfig bufsz) es →
      Run.AlongRun rxStep (fun _ _ s' => Accounts s') (dmaConfig bufsz) es := by
  intro h
  have hrun := h 4 [.byte, .byte, .halfIrq] (by omega) (by omega)
    ⟨by decide, by decide, by decide, trivial⟩
  exact absurd hrun.2.2.1.sum (by decide)

end Uart

end RtSpark
