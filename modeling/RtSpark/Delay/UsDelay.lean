import RtSpark.Delay.Model.DrvCommon
import RtSpark.Common.Ring
import Mathlib.Order.Monotone.Basic
import Mathlib.Tactic.Linarith
/-!
# The delay against the counter

`SysTick` counts down from `LOAD` to zero and starts over, so a value read
is a position on a ring of `LOAD + 1`. Between two reads the loop counts
what the values are apart, and one tick too few where the counter started
over: what it counts has always elapsed (`counted_le`). Whether that is
enough is then a question of the target alone, which is a product in
thirty-two bits.
-/

namespace RtSpark

namespace Delay

open Word

variable {load us : ℕ}

/-! ## The counter -/

/-- `SysTick->VAL` when `c` ticks have gone by. -/
def tickVal (load c : ℕ) : ℕ := load - c % (load + 1)

/-- When the counter is read: never later than a period after the last
time. -/
structure Sampling (load : ℕ) where
  time : ℕ → ℕ
  forward : ∀ i, time i ≤ time (i + 1)
  often : ∀ i, time (i + 1) ≤ time i + (load + 1)

/-- The values read. -/
def Sampling.sample (S : Sampling load) (i : ℕ) : ℕ := tickVal load (S.time i)

/-- The ticks that have gone by at the last of `reads` reads, since the
first. -/
def Sampling.elapsed (S : Sampling load) (reads : ℕ) : ℕ := S.time (reads - 1) - S.time 0

theorem Sampling.first_le (S : Sampling load) (i : ℕ) : S.time 0 ≤ S.time i :=
  monotone_nat_of_le_succ S.forward (Nat.zero_le i)

theorem tickVal_le (c : ℕ) : tickVal load c ≤ load := Nat.sub_le _ _

theorem tickVal_add_mod (load c : ℕ) : tickVal load c + c % (load + 1) = load := by
  have := Nat.mod_lt c (show 0 < load + 1 from Nat.succ_pos load)
  unfold tickVal
  omega

theorem Sampling.sample_le (S : Sampling load) (i : ℕ) : S.sample i ≤ load := tickVal_le _

/-! ## What a pass counts -/

/-- What the loop adds for two values read one after the other. -/
def counted (load told tnow : ℕ) : ℕ :=
  if tnow < told then told - tnow else load - tnow + told

/-- **What is counted has elapsed.** -/
theorem counted_le {m n : ℕ} (hle : m ≤ n) (hne : tickVal load n ≠ tickVal load m) :
    counted load (tickVal load m) (tickVal load n) ≤ n - m := by
  have hm := tickVal_add_mod load m
  have hn := tickVal_add_mod load n
  unfold counted
  rcases Nat.lt_or_ge n (m + (load + 1)) with hlt | hge
  · have hring := Ring.add_mod_eq (show 0 < load + 1 from Nat.succ_pos load) hle hlt
    split_ifs with hdown <;> split_ifs at hring <;> omega
  · -- a whole period is more than a pass ever counts
    split_ifs <;> omega

/-- The increment in thirty-two bits is the plain one. -/
theorem increment_eq {told tnow tcnt : ℕ} (hload : load < 2 ^ 24) (htold : told ≤ load)
    (htnow : tnow ≤ load) (htcnt : tcnt < 2 ^ 31) :
    (if tnow < told then u32 (tcnt + sub32 told tnow)
      else u32 (tcnt + u32 (sub32 load tnow + told))) = tcnt + counted load told tnow := by
  unfold counted sub32 u32
  split_ifs <;> omega

theorem delayTicks_le (load us : ℕ) : delayTicks load us ≤ 4294967 := by
  have h := Nat.mod_lt (us * load) (show 0 < 2 ^ 32 by decide)
  have hunit : 1000000 / rtTickPerSecond = 1000 := rfl
  rw [delayTicks, u32, hunit]
  omega

/-! ## The loop -/

variable {S : Sampling load} {s s' : DelayState}

/-- The head of the loop: the last value read, a count that has elapsed,
and no `break` but at the target. -/
structure DelayInv (S : Sampling load) (us : ℕ) (s : DelayState) : Prop where
  begun : 0 < s.reads
  told : s.told = S.sample (s.reads - 1)
  elapsed : s.tcnt ≤ S.elapsed s.reads
  staying : s.left = false → s.tcnt ≤ delayTicks load us
  leaving : s.left = true → delayTicks load us ≤ s.tcnt

theorem delayInv_init : DelayInv S us (usDelayInit S.sample) where
  begun := Nat.one_pos
  told := rfl
  elapsed := Nat.zero_le _
  staying := fun _ => Nat.zero_le _
  leaving := fun h => Bool.noConfusion h

/-- What a pass does, in plain numbers. -/
theorem usDelayPass_eq (hload : load < 2 ^ 24) (h : DelayInv S us s) (hleft : s.left = false) :
    usDelayPass S.sample load (delayTicks load us) s = some
      (if S.sample s.reads = s.told then { s with reads := s.reads + 1 }
        else
          ⟨s.reads + 1, S.sample s.reads, s.tcnt + counted load s.told (S.sample s.reads),
            decide (delayTicks load us ≤ s.tcnt + counted load s.told (S.sample s.reads))⟩) := by
  have hstay : ¬ s.left = true := by rw [hleft]; decide
  rw [usDelayPass, if_neg hstay]
  simp only
  rcases Decidable.em (S.sample s.reads = s.told) with heq | hne
  · rw [if_neg (not_not.2 heq), if_pos heq]
  · have htcnt : s.tcnt < 2 ^ 31 := by
      have hlow := h.staying hleft
      have hticks := delayTicks_le load us
      omega
    have htold : s.told ≤ load := h.told ▸ S.sample_le _
    rw [if_pos hne, if_neg hne, increment_eq hload htold (S.sample_le _) htcnt]

/-- **A pass keeps the count below what has elapsed.** -/
theorem delayInv_step (hload : load < 2 ^ 24) (h : DelayInv S us s)
    (hpass : rtHwUsDelay S.sample load us s = some s') : DelayInv S us s' := by
  have hleft : s.left = false := by
    cases hl : s.left with
    | false => rfl
    | true =>
      rw [rtHwUsDelay, usDelayPass, if_pos hl] at hpass
      cases hpass
  obtain ⟨k, hk⟩ := Nat.exists_eq_succ_of_ne_zero h.begun.ne'
  have htold : s.told = S.sample k := by rw [h.told, hk]; rfl
  have helapsed : s.tcnt ≤ S.time k - S.time 0 := by
    have h' := h.elapsed
    rwa [hk] at h'
  have hfirst := S.first_le k
  have hforward := S.forward k
  rw [rtHwUsDelay, usDelayPass_eq hload h hleft] at hpass
  have heq := Option.some.inj hpass
  rw [hk, Nat.succ_eq_add_one] at heq
  split_ifs at heq with hsame
  · rw [← heq]
    refine ⟨Nat.succ_pos _, ?_, ?_, h.staying, h.leaving⟩
    · exact hsame.symm
    · show s.tcnt ≤ S.time (k + 1) - S.time 0
      omega
  · rw [htold] at hsame
    have hcounted := counted_le hforward hsame
    rw [← heq]
    refine ⟨Nat.succ_pos _, rfl, ?_, ?_, ?_⟩
    · show s.tcnt + counted load s.told (S.sample (k + 1)) ≤ S.time (k + 1) - S.time 0
      rw [htold]
      change counted load (S.sample k) (S.sample (k + 1)) ≤ _ at hcounted
      omega
    · intro hstays
      exact (Nat.lt_of_not_le (of_decide_eq_false hstays)).le
    · exact of_decide_eq_true

/-- The loop is left only where the `break` was taken. -/
theorem left_of_exit (hstop : rtHwUsDelay S.sample load us s = none) : s.left = true := by
  cases hl : s.left with
  | true => rfl
  | false =>
    have hstay : ¬ s.left = true := by rw [hl]; decide
    rw [rtHwUsDelay, usDelayPass, if_neg hstay] at hstop
    simp only at hstop
    split at hstop <;> cases hstop

/-- **Every head of the loop.** -/
theorem delayInv_of_reaches (hload : load < 2 ^ 24)
    (h : Loop.Reaches (rtHwUsDelay S.sample load us) (usDelayInit S.sample) s) :
    DelayInv S us s :=
  h.invariant delayInv_init fun _ _ hinv hpass => delayInv_step hload hinv hpass

/-! ## Too early -/

/-- The counter read at every tick, from `LOAD` on. -/
def everyTick (load : ℕ) : Sampling load where
  time := id
  forward := fun i => Nat.le_succ i
  often := fun i => by simp only [id]; omega

/-- Read at every tick, the loop misses one in every period. -/
theorem counted_everyTick (hload : 0 < load) (i : ℕ) :
    tickVal load (i + 1) ≠ tickVal load i ∧
      i - i / (load + 1) + counted load (tickVal load i) (tickVal load (i + 1)) =
        (i + 1) - (i + 1) / (load + 1) := by
  have hpos : 0 < load + 1 := Nat.succ_pos load
  have hi := tickVal_add_mod load i
  have hi' := tickVal_add_mod load (i + 1)
  have hstep := Ring.succ_mod hpos i
  have hdiv : (i + 1) / (load + 1) = i / (load + 1) + if load + 1 ∣ i + 1 then 1 else 0 :=
    Nat.succ_div
  have hle := Nat.div_le_self i (load + 1)
  have hdvd : load + 1 ∣ i + 1 ↔ (i + 1) % (load + 1) = 0 := Nat.dvd_iff_mod_eq_zero
  unfold counted
  simp only [hdvd] at hdiv
  split_ifs at hstep with hwrap
  · rw [if_pos hstep] at hdiv
    split_ifs <;> omega
  · rw [if_neg (by omega)] at hdiv
    split_ifs <;> omega

/-- After `i` passes the loop is left, or it has missed the periods among
`i` ticks. -/
theorem everyTick_run (us : ℕ) (hload : 0 < load) (hload' : load < 2 ^ 24) (i : ℕ) :
    (∃ s, Loop.Exits (rtHwUsDelay (everyTick load).sample load us)
        (usDelayInit (everyTick load).sample) s ∧ s.reads ≤ i + 1) ∨
      Loop.Reaches (rtHwUsDelay (everyTick load).sample load us)
        (usDelayInit (everyTick load).sample)
        ⟨i + 1, tickVal load i, i - i / (load + 1), false⟩ := by
  induction i with
  | zero =>
    rw [Nat.zero_div]
    exact Or.inr Relation.ReflTransGen.refl
  | succ i ih =>
    rcases ih with ⟨s, hexit, hreads⟩ | hreach
    · exact Or.inl ⟨s, hexit, by omega⟩
    · obtain ⟨hne, hcount⟩ := counted_everyTick hload i
      have hne' : (everyTick load).sample (i + 1) ≠ tickVal load i := hne
      have hinv := delayInv_of_reaches hload' hreach
      have hpass := usDelayPass_eq hload' hinv rfl
      simp only at hpass
      rw [if_neg hne'] at hpass
      change _ = some (DelayState.mk (i + 1 + 1) (tickVal load (i + 1))
        (i - i / (load + 1) + counted load (tickVal load i) (tickVal load (i + 1)))
        (decide (_ ≤ i - i / (load + 1) + counted load (tickVal load i) (tickVal load (i + 1)))))
        at hpass
      rw [hcount] at hpass
      have hnext := hreach.tail hpass
      rcases Decidable.em (delayTicks load us ≤ i + 1 - (i + 1) / (load + 1)) with hdone | hmore
      · rw [decide_eq_true hdone] at hnext
        exact Or.inl ⟨_, ⟨hnext, rfl⟩, le_refl _⟩
      · rw [decide_eq_false hmore] at hnext
        exact Or.inr hnext

/-- Two thirds of the ticks are counted, so the loop is left after half as
many more as its target. -/
theorem everyTick_exits (us : ℕ) (hload : 2 ≤ load) (hload' : load < 2 ^ 24) :
    ∃ s, Loop.Exits (rtHwUsDelay (everyTick load).sample load us)
        (usDelayInit (everyTick load).sample) s ∧
      (everyTick load).elapsed s.reads ≤ delayTicks load us + delayTicks load us / 2 + 1 := by
  rcases everyTick_run us (by omega) hload'
    (delayTicks load us + delayTicks load us / 2 + 1) with ⟨s, hexit, hreads⟩ | hreach
  · refine ⟨s, hexit, ?_⟩
    show s.reads - 1 - 0 ≤ _
    omega
  · have hstays := (delayInv_of_reaches hload' hreach).staying rfl
    simp only at hstays
    have hthird : (delayTicks load us + delayTicks load us / 2 + 1) / (load + 1) ≤
        (delayTicks load us + delayTicks load us / 2 + 1) / 3 :=
      Nat.div_le_div_left (by omega) (by decide)
    omega

/-! ## The target -/

/-- The ticks that `us` microseconds take, in exact arithmetic. -/
def exactTicks (load us : ℕ) : ℕ := us * load * rtTickPerSecond / 1000000

theorem exactTicks_eq : exactTicks load us = us * load / 1000 := by
  have hunit : rtTickPerSecond = 1000 := rfl
  rw [exactTicks, hunit, show (1000000 : ℕ) = 1000 * 1000 from rfl,
    Nat.mul_div_mul_right _ _ (by decide)]

theorem delayTicks_eq (h : us * load < 2 ^ 32) : delayTicks load us = exactTicks load us := by
  rw [exactTicks_eq, delayTicks, u32, Nat.mod_eq_of_lt h]
  rfl

/-- What the product loses is far more than half of what it keeps. -/
theorem delayTicks_short (h : 2 ^ 32 ≤ us * load) :
    delayTicks load us + delayTicks load us / 2 + 1 < exactTicks load us := by
  have hunit : 1000000 / rtTickPerSecond = 1000 := rfl
  rw [exactTicks_eq, delayTicks, u32, hunit]
  omega

/-- The delay of `us` microseconds is never too short, and never counts
more than has elapsed, whenever the counter is read. -/
def NeverEarly (load us : ℕ) : Prop :=
  ∀ (S : Sampling load) (s : DelayState),
    Loop.Reaches (rtHwUsDelay S.sample load us) (usDelayInit S.sample) s →
      s.tcnt ≤ S.elapsed s.reads ∧
        (rtHwUsDelay S.sample load us s = none → exactTicks load us ≤ S.elapsed s.reads)

/-- **The delay is never too short, if and only if the product fits.** -/
theorem rtHwUsDelay_neverEarly_iff (hload : load < 2 ^ 24) (hus : us < 2 ^ 32) :
    NeverEarly load us ↔ us * load < 2 ^ 32 := by
  constructor
  · intro hnever
    by_contra hlarge
    have hlarge' : 2 ^ 32 ≤ us * load := Nat.le_of_not_lt hlarge
    have htwo : 2 ≤ load := by
      by_contra hsmall
      have : us * load ≤ us * 1 := Nat.mul_le_mul_left _ (by omega)
      omega
    obtain ⟨s, hexit, helapsed⟩ := everyTick_exits us htwo hload
    have htarget := (hnever (everyTick load) s hexit.1).2 hexit.2
    have hshort := delayTicks_short hlarge'
    omega
  · intro hfits S s hreach
    have hinv := delayInv_of_reaches hload hreach
    refine ⟨hinv.elapsed, fun hstop => ?_⟩
    have hleaving := hinv.leaving (left_of_exit hstop)
    have helapsed := hinv.elapsed
    rw [← delayTicks_eq hfits]
    omega

/-- A millisecond at 168 MHz. -/
theorem rtHwUsDelay_neverEarly_iff_millisecond :
    167999 < 2 ^ 24 ∧ 1000 < 2 ^ 32 ∧ (NeverEarly 167999 1000 ↔ 1000 * 167999 < 2 ^ 32) :=
  ⟨by decide, by decide, rtHwUsDelay_neverEarly_iff (by decide) (by decide)⟩

/-- **The board's clock, and a delay of 25566 microseconds**: the target is
95 ticks, half a microsecond. -/
theorem rtHwUsDelay_early : delayTicks 167999 25566 = 95 ∧ ¬ NeverEarly 167999 25566 := by
  refine ⟨by decide, fun hnever => ?_⟩
  obtain ⟨s, hexit, helapsed⟩ := everyTick_exits 25566 (show 2 ≤ 167999 by decide)
    (by decide)
  have htarget := (hnever (everyTick 167999) s hexit.1).2 hexit.2
  exact absurd (htarget.trans helapsed) (by decide)

end Delay

end RtSpark
