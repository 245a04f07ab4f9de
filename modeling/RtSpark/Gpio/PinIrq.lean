import RtSpark.Gpio.Model.DrvGpio
import RtSpark.Common.Run
import Mathlib.Tactic.ByContra
import Mathlib.Data.Fintype.Basic
import Mathlib.Data.Fin.Basic
/-!
# Registrations of different pins

The rows of the table are keyed by bit number, so two pins of different
ports can ask for one row. `pinStep_spec` says of each operation which row,
which bit and which line it can touch. Attaching asks whose row it is;
detaching and disabling do not, and what follows from that is
`registrations_isolated_iff`.
-/

namespace RtSpark

namespace Gpio

variable {H A : Type*} [DecidableEq H] [DecidableEq A] {s : PinIrq H A} {pin : ℤ} {i j : Fin 16}

/-! ## Rows and bits -/

/-- The row of a pin. -/
def pinRow (pin : ℤ) : Fin 16 := ⟨pinNo pin, by unfold pinNo; omega⟩

/-- `bit2bitno` undoes `PIN_STPIN`, so its two bounds never fail. -/
theorem irqIndex_eq (pin : ℤ) : irqIndex pin = some (pinRow pin) := by
  have hbit : ∀ k : Fin 16, bit2bitno (1#32 <<< k.val) = some k.val := by decide
  have hno : bit2bitno (pinStpin pin) = some (pinNo pin) := hbit (pinRow pin)
  have hlt : pinNo pin < 16 := (pinRow pin).isLt
  rw [irqIndex, hno]
  simp only [hlt, dif_pos]
  rfl

theorem pinbit_getLsbD (i j : Fin 16) :
    (pinIrqMap i).pinbit.getLsbD j.val = decide (i = j) := by
  revert i j
  decide

/-- The bit of a row is set in the mask. -/
def Enabled (s : PinIrq H A) (i : Fin 16) : Prop := s.pinIrqEnableMask.getLsbD i.val = true

instance (s : PinIrq H A) (i : Fin 16) : Decidable (Enabled s i) :=
  inferInstanceAs (Decidable (_ = _))

theorem set_getLsbD (mask : BitVec 32) (i j : Fin 16) :
    (mask ||| (pinIrqMap i).pinbit).getLsbD j.val = true ↔
      mask.getLsbD j.val = true ∨ i = j := by
  rw [BitVec.getLsbD_or, pinbit_getLsbD, Bool.or_eq_true, decide_eq_true_iff]

theorem clear_getLsbD (mask : BitVec 32) (i j : Fin 16) :
    (mask &&& ~~~(pinIrqMap i).pinbit).getLsbD j.val = true ↔
      mask.getLsbD j.val = true ∧ i ≠ j := by
  have hlt : j.val < 32 := by omega
  rw [BitVec.getLsbD_and, BitVec.getLsbD_not, pinbit_getLsbD]
  simp [hlt]

/-- A mask is clear on a window of bits when each of them is. -/
theorem and_eq_zero_iff {window : BitVec 32} {g : Fin 16 → Prop}
    (hg : ∀ k : Fin 32, window.getLsbD k.val = true ↔ ∃ j : Fin 16, j.val = k.val ∧ g j)
    (mask : BitVec 32) :
    mask &&& window = 0 ↔ ∀ j, g j → mask.getLsbD j.val = false := by
  constructor
  · intro h j hj
    have hw : window.getLsbD j.val = true := (hg ⟨j.val, by omega⟩).2 ⟨j, rfl, hj⟩
    have hbit := congrArg (fun m => m.getLsbD j.val) h
    simpa [hw] using hbit
  · intro h
    refine BitVec.eq_of_getLsbD_eq fun k hk => ?_
    rw [BitVec.getLsbD_and]
    cases hw : window.getLsbD k with
    | false => simp
    | true =>
      obtain ⟨j, hjk, hj⟩ := (hg ⟨k, hk⟩).1 hw
      have hjk' : j.val = k := hjk
      rw [← hjk', h j hj]
      simp

/-! ## What an operation does -/

/-- **The line goes off with the last bit of its group.** The three branches
of the source say the same of every line, shared or not. -/
theorem nvicDisable_apply {mask : BitVec 32} (hbit : mask.getLsbD i.val = false)
    (nvic : IRQn → Bool) (l : IRQn) :
    nvicDisable (pinIrqMap i) mask nvic l = true ↔ nvic l = true ∧
      ¬ ((pinIrqMap i).irqno = l ∧
        ∀ j, (pinIrqMap j).irqno = l → mask.getLsbD j.val = false) := by
  have h9 : mask &&& 0x03E0#32 = 0 ↔
      ∀ j, (pinIrqMap j).irqno = .exti9_5 → mask.getLsbD j.val = false :=
    and_eq_zero_iff (by decide) mask
  have h15 : mask &&& 0xFC00#32 = 0 ↔
      ∀ j, (pinIrqMap j).irqno = .exti15_10 → mask.getLsbD j.val = false :=
    and_eq_zero_iff (by decide) mask
  have hline : ∀ k : Fin 16,
      (0x0020#32 ≤ (pinIrqMap k).pinbit ∧ (pinIrqMap k).pinbit ≤ 0x0200#32 ∧
        (pinIrqMap k).irqno = .exti9_5) ∨
      (¬ (0x0020#32 ≤ (pinIrqMap k).pinbit ∧ (pinIrqMap k).pinbit ≤ 0x0200#32) ∧
        0x0400#32 ≤ (pinIrqMap k).pinbit ∧ (pinIrqMap k).pinbit ≤ 0x8000#32 ∧
        (pinIrqMap k).irqno = .exti15_10) ∨
      (¬ (0x0020#32 ≤ (pinIrqMap k).pinbit ∧ (pinIrqMap k).pinbit ≤ 0x0200#32) ∧
        ¬ (0x0400#32 ≤ (pinIrqMap k).pinbit ∧ (pinIrqMap k).pinbit ≤ 0x8000#32) ∧
        ∀ j, (pinIrqMap j).irqno = (pinIrqMap k).irqno → j = k) := by decide
  -- each branch turns its line off under a condition of its own
  have hset : ∀ b : Prop, [Decidable b] →
      ((if b then Function.update nvic (pinIrqMap i).irqno false else nvic) l = true ↔
        nvic l = true ∧ ¬ ((pinIrqMap i).irqno = l ∧ b)) := by
    intro b _
    by_cases hb : b
    · rw [if_pos hb, Function.update_apply]
      by_cases hl : l = (pinIrqMap i).irqno
      · simp [hl, hb]
      · simp [hl, Ne.symm hl, hb]
    · simp [hb]
  unfold nvicDisable
  rcases hline i with ⟨ha, hb, hirq⟩ | ⟨hn, ha, hb, hirq⟩ | ⟨hn, hn', honly⟩
  · rw [if_pos ⟨ha, hb⟩, hset, h9]
    refine and_congr_right fun _ => not_congr (and_congr_right fun hl => ?_)
    rw [← hl, hirq]
  · rw [if_neg hn, if_pos ⟨ha, hb⟩, hset, h15]
    refine and_congr_right fun _ => not_congr (and_congr_right fun hl => ?_)
    rw [← hl, hirq]
  · rw [if_neg hn, if_neg hn']
    -- a line of its own goes off with its one bit
    have hall : ∀ j, (pinIrqMap j).irqno = (pinIrqMap i).irqno → mask.getLsbD j.val = false :=
      fun j hj => honly j hj ▸ hbit
    have htrue := hset True
    rw [if_pos trivial] at htrue
    rw [htrue]
    refine and_congr_right fun _ => not_congr (and_congr_right fun hl => ?_)
    rw [← hl]
    exact ⟨fun _ => hall, fun _ => trivial⟩

/-- A pin other than `pin` holds the row. -/
def HeldFrom (s : PinIrq H A) (pin : ℤ) (i : Fin 16) : Prop :=
  (s.pinIrqHdrTab i).pin ≠ -1 ∧ (s.pinIrqHdrTab i).pin ≠ pin

instance (s : PinIrq H A) (pin : ℤ) (i : Fin 16) : Decidable (HeldFrom s pin i) :=
  inferInstanceAs (Decidable (_ ∧ _))

/-- Only the pin a row was taken for gives it up, and none but it turns off
the bit while another pin holds the row. -/
def Rightful (s : PinIrq H A) : PinOp H A → Prop
  | .attach .. => True
  | .dettach pin => pinPort pin < pinStportMax → ¬ HeldFrom s pin (pinRow pin)
  | .irqEnable pin enabled => pinPort pin < pinStportMax → enabled = 0 →
      HeldFrom s pin (pinRow pin) → ¬ Enabled s (pinRow pin)

/-- What one operation changes: nothing, where its pin may ask for it; the
row of its pin; or the bit of that row and the line with it. -/
inductive PinStep (s : PinIrq H A) : PinOp H A → PinIrq H A → Prop
  | keep {op s'} (hright : Rightful s op) (htab : s'.pinIrqHdrTab = s.pinIrqHdrTab)
      (hmask : s'.pinIrqEnableMask = s.pinIrqEnableMask) (hnvic : s'.nvic = s.nvic) :
      PinStep s op s'
  | take {pin mode hdr args s'} (hfree : (s.pinIrqHdrTab (pinRow pin)).pin = -1)
      (htab : ∀ j, j ≠ pinRow pin → s'.pinIrqHdrTab j = s.pinIrqHdrTab j)
      (hmask : s'.pinIrqEnableMask = s.pinIrqEnableMask) (hnvic : s'.nvic = s.nvic) :
      PinStep s (.attach pin mode hdr args) s'
  | release {pin s'} (hport : pinPort pin < pinStportMax)
      (hrow : (s'.pinIrqHdrTab (pinRow pin)).pin = -1)
      (htab : ∀ j, j ≠ pinRow pin → s'.pinIrqHdrTab j = s.pinIrqHdrTab j)
      (hmask : s'.pinIrqEnableMask = s.pinIrqEnableMask) (hnvic : s'.nvic = s.nvic) :
      PinStep s (.dettach pin) s'
  | enable {pin s'} (htab : s'.pinIrqHdrTab = s.pinIrqHdrTab)
      (hmask : ∀ j, Enabled s' j ↔ Enabled s j ∨ pinRow pin = j)
      (hnvic : ∀ l, s'.nvic l = true ↔
        s.nvic l = true ∨ (pinIrqMap (pinRow pin)).irqno = l) :
      PinStep s (.irqEnable pin 1) s'
  | disable {pin s'} (hport : pinPort pin < pinStportMax) (htab : s'.pinIrqHdrTab = s.pinIrqHdrTab)
      (hmask : ∀ j, Enabled s' j ↔ Enabled s j ∧ pinRow pin ≠ j)
      (hnvic : ∀ l, s'.nvic l = true ↔ s.nvic l = true ∧
        ¬ ((pinIrqMap (pinRow pin)).irqno = l ∧
          ∀ j, (pinIrqMap j).irqno = l → ¬ Enabled s' j)) :
      PinStep s (.irqEnable pin 0) s'

theorem stm32PinAttachIrq_spec (s : PinIrq H A) (pin : ℤ) (mode : ℕ) (hdr : Option H)
    (args : Option A) :
    PinStep s (.attach pin mode hdr args) (stm32PinAttachIrq s pin mode hdr args).1 := by
  unfold stm32PinAttachIrq
  rw [irqIndex_eq]
  split
  · exact .keep trivial rfl rfl rfl
  · simp only
    split
    · exact .keep trivial rfl rfl rfl
    · split
      · exact .keep trivial rfl rfl rfl
      · rename_i hfree
        exact .take (not_not.1 hfree) (fun j hj => Function.update_of_ne hj _ _) rfl rfl

omit [DecidableEq H] [DecidableEq A] in
theorem stm32PinDettachIrq_spec (s : PinIrq H A) (pin : ℤ) :
    PinStep s (.dettach pin) (stm32PinDettachIrq s pin).1 := by
  unfold stm32PinDettachIrq
  rw [irqIndex_eq]
  split
  · rename_i hport
    exact .keep (fun hlt => absurd hport (not_le.2 hlt)) rfl rfl rfl
  · rename_i hport
    simp only
    split
    · rename_i hfree
      exact .keep (fun _ hheld => hheld.1 hfree) rfl rfl rfl
    · exact .release (not_le.1 hport)
        (congrArg PinIrqHdr.pin (Function.update_self (pinRow pin) .free s.pinIrqHdrTab))
        (fun j hj => Function.update_of_ne hj _ _) rfl rfl

omit [DecidableEq H] [DecidableEq A] in
theorem stm32PinIrqEnable_spec (s : PinIrq H A) (pin : ℤ) (enabled : ℕ) :
    PinStep s (.irqEnable pin enabled) (stm32PinIrqEnable s pin enabled).1 := by
  unfold stm32PinIrqEnable
  rw [irqIndex_eq]
  split
  · rename_i hport
    exact .keep (fun hlt => absurd hport (not_le.2 hlt)) rfl rfl rfl
  · rename_i hport
    split
    · rename_i hen
      subst hen
      simp only
      split
      · exact .keep (fun _ h10 => absurd h10 Nat.one_ne_zero) rfl rfl rfl
      · refine .enable rfl (fun j => set_getLsbD _ _ _) fun l => ?_
        change Function.update s.nvic _ true l = true ↔ _
        rw [Function.update_apply]
        by_cases hl : l = (pinIrqMap (pinRow pin)).irqno
        · simp [hl]
        · simp [hl, Ne.symm hl]
    · split
      · rename_i _ hen
        subst hen
        refine .disable (not_le.1 hport) rfl (fun j => clear_getLsbD _ _ _) fun l => ?_
        have hbit : (s.pinIrqEnableMask &&& ~~~(pinIrqMap (pinRow pin)).pinbit).getLsbD
            (pinRow pin).val = false := by
          rw [← Bool.not_eq_true, clear_getLsbD]
          exact fun h => h.2 rfl
        refine (nvicDisable_apply hbit s.nvic l).trans ?_
        simp only [Enabled, Bool.not_eq_true]
        rfl
      · rename_i hne
        exact .keep (fun _ h0 => absurd h0 hne) rfl rfl rfl

/-- **What an operation can touch.** -/
theorem pinStep_spec (s : PinIrq H A) (op : PinOp H A) : PinStep s op (pinStep s op) := by
  cases op with
  | attach pin mode hdr args => exact stm32PinAttachIrq_spec s pin mode hdr args
  | dettach pin => exact stm32PinDettachIrq_spec s pin
  | irqEnable pin enabled => exact stm32PinIrqEnable_spec s pin enabled

/-! ## The lines -/

/-- A line is enabled exactly when a bit of its group is. -/
def LinesFollow (s : PinIrq H A) : Prop :=
  ∀ l, s.nvic l = true ↔ ∃ j, (pinIrqMap j).irqno = l ∧ Enabled s j

omit [DecidableEq H] [DecidableEq A] in
theorem LinesFollow.congr {s' : PinIrq H A} (h : LinesFollow s) (hnvic : s'.nvic = s.nvic)
    (hmask : s'.pinIrqEnableMask = s.pinIrqEnableMask) : LinesFollow s' := by
  intro l
  simp only [Enabled, hnvic, hmask]
  exact h l

omit [DecidableEq H] [DecidableEq A] in
/-- **Every operation keeps the lines with the mask**, whoever calls it. -/
theorem LinesFollow.step {s' : PinIrq H A} {op : PinOp H A} (h : LinesFollow s)
    (hstep : PinStep s op s') : LinesFollow s' := by
  cases hstep with
  | keep _ _ hmask hnvic => exact h.congr hnvic hmask
  | take _ _ hmask hnvic => exact h.congr hnvic hmask
  | release _ _ _ hmask hnvic => exact h.congr hnvic hmask
  | enable _ hmask hnvic =>
    intro l
    rw [hnvic, h l]
    constructor
    · rintro (⟨j, hj, hen⟩ | hl)
      · exact ⟨j, hj, (hmask j).2 (Or.inl hen)⟩
      · exact ⟨_, hl, (hmask _).2 (Or.inr rfl)⟩
    · rintro ⟨j, hj, hen⟩
      rcases (hmask j).1 hen with hen | rfl
      · exact Or.inl ⟨j, hj, hen⟩
      · exact Or.inr hj
  | disable _ _ hmask hnvic =>
    intro l
    rw [hnvic, h l]
    constructor
    · rintro ⟨⟨j, hj, hen⟩, hleft⟩
      by_contra hnone
      push Not at hnone
      -- with no other bit left in the group, the line would be off
      have hrow := not_not.1 fun hne => hnone j hj ((hmask j).2 ⟨hen, hne⟩)
      exact hleft ⟨by rw [hrow, hj], hnone⟩
    · rintro ⟨j, hj, hen⟩
      exact ⟨⟨j, hj, ((hmask j).1 hen).1⟩, fun hoff => hoff.2 j hj hen⟩

/-! ## Isolation -/

/-- The operation leaves the rows of other pins alone, and the bits and
lines they rely on, and every line follows its group. -/
structure Isolated (s : PinIrq H A) (op : PinOp H A) (s' : PinIrq H A) : Prop where
  row : ∀ i, HeldFrom s op.pin i → s'.pinIrqHdrTab i = s.pinIrqHdrTab i
  bit : ∀ i, HeldFrom s op.pin i → Enabled s i → Enabled s' i
  line : ∀ i, HeldFrom s op.pin i → Enabled s i →
    s.nvic (pinIrqMap i).irqno = true → s'.nvic (pinIrqMap i).irqno = true
  follow : LinesFollow s'

omit [DecidableEq H] [DecidableEq A] in
/-- A bit some pin relies on stays set if its own operations leave it. -/
theorem isolated_of {s' : PinIrq H A} {op : PinOp H A} (h : LinesFollow s)
    (hstep : PinStep s op s')
    (hrow : ∀ i, HeldFrom s op.pin i → s'.pinIrqHdrTab i = s.pinIrqHdrTab i)
    (hbit : ∀ i, HeldFrom s op.pin i → Enabled s i → Enabled s' i) : Isolated s op s' where
  row := hrow
  bit := hbit
  line := fun i hheld hen _ => (h.step hstep _).2 ⟨i, rfl, hbit i hheld hen⟩
  follow := h.step hstep

omit [DecidableEq H] [DecidableEq A] in
/-- **An operation is harmless exactly when its pin may ask for it.** -/
theorem isolated_iff {s' : PinIrq H A} {op : PinOp H A} (h : LinesFollow s)
    (hstep : PinStep s op s') : Isolated s op s' ↔ Rightful s op := by
  have hof := isolated_of h hstep
  cases hstep with
  | keep hright htab hmask _ =>
    refine ⟨fun _ => hright, fun _ => hof (fun i _ => by rw [htab]) fun i _ hen => ?_⟩
    rw [Enabled, hmask]
    exact hen
  | take hfree htab hmask _ =>
    refine ⟨fun _ => trivial, fun _ => hof (fun i hheld => htab i ?_) fun i _ hen => ?_⟩
    · rintro rfl
      exact hheld.1 hfree
    · rw [Enabled, hmask]
      exact hen
  | release hport hrow htab hmask _ =>
    constructor
    · intro hiso _ hheld
      have hkept := hiso.row _ hheld
      exact hheld.1 (by rw [← hkept]; exact hrow)
    · intro hright
      refine hof (fun i hheld => htab i ?_) fun i _ hen => ?_
      · rintro rfl
        exact hright hport hheld
      · rw [Enabled, hmask]
        exact hen
  | enable htab hmask _ =>
    refine ⟨fun _ _ h10 => absurd h10 Nat.one_ne_zero, fun _ => hof (fun i _ => by rw [htab])
      fun i _ hen => (hmask i).2 (Or.inl hen)⟩
  | disable hport htab hmask _ =>
    constructor
    · intro hiso _ _ hheld hen
      exact ((hmask _).1 (hiso.bit _ hheld hen)).2 rfl
    · intro hright
      refine hof (fun i _ => by rw [htab]) fun i hheld hen => (hmask i).2 ⟨hen, ?_⟩
      rintro rfl
      exact hright hport rfl hheld hen

omit [DecidableEq H] [DecidableEq A] in
theorem linesFollow_init : LinesFollow (PinIrq.init : PinIrq H A) := by
  intro l
  simp [PinIrq.init, Enabled]

/-- **Registrations stay apart exactly as long as every pin that detaches or
disables is the one its row was taken for.** Along every history from the
state the driver starts in, no operation takes the row, the bit or the line
from another pin, and every line is enabled with its group, if and only if
each operation of it is rightful. -/
theorem registrations_isolated_iff (ops : List (PinOp H A)) :
    Run.AlongRun pinStep Isolated PinIrq.init ops ↔
      Run.AlongRun pinStep (fun s op _ => Rightful s op) PinIrq.init ops := by
  refine Run.alongRun_iff (fun s op hfollow _ => isolated_iff hfollow (pinStep_spec s op))
    (fun s op hfollow _ => hfollow.step (pinStep_spec s op)) linesFollow_init
    (Q := fun _ _ _ => True) ?_
  exact Run.alongRun_of_forall fun _ _ => trivial

/-- **Detaching `PB0` takes the row of `PA0`.** -/
theorem registrations_not_isolated :
    ¬ ∀ ops : List (PinOp Unit Unit), Run.AlongRun pinStep Isolated PinIrq.init ops := by
  intro h
  have hrun := h [.attach 0 0 (some ()) none, .irqEnable 0 1, .dettach 16]
  have hrow := hrun.2.2.1.row 0 (by decide)
  exact absurd (congrArg PinIrqHdr.pin hrow) (by decide)

end Gpio

end RtSpark
