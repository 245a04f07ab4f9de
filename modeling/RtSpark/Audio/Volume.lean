import RtSpark.Audio.Model.DrvSound
/-!
# The volume, set and asked for

`es8388_volume_set` programs the attenuation of the DAC and
`es8388_volume_get` reads the gain of the output stage, a register that
`es8388_init` alone writes. No other call writes either
(`soundStep_volumeReg`), so what is programmed is the last volume, and what
is asked for is what `es8388_init` left: 90, whatever was set.
-/

namespace RtSpark

namespace Audio

variable {r : Regs} {sndDev : SoundDevice} {calls : List SoundCall} {addr v w : UInt8}

/-! ## What the driver writes -/

/-- The registers of the volume: the DAC's attenuation, left and right,
and the gain of the output. -/
def VolumeReg (addr : UInt8) : Prop :=
  addr = es8388DacControl4 ∨ addr = es8388DacControl5 ∨ addr = es8388DacControl24

instance (addr : UInt8) : Decidable (VolumeReg addr) := inferInstanceAs (Decidable (_ ∨ _))

/-- Writes to other registers leave it. -/
theorem apply_volumeReg (haddr : VolumeReg addr) {ws : List (UInt8 × UInt8)}
    (h : (ws.map Prod.fst).all (fun a => !decide (VolumeReg a)) = true) :
    Stores.apply r ws addr = r addr := by
  refine Stores.apply_of_notMem fun hmem => ?_
  have hother := List.all_eq_true.1 h addr hmem
  rw [decide_eq_true haddr] at hother
  cases hother

theorem regWrite_volumeReg (haddr : VolumeReg addr) {a val : UInt8} (h : ¬ VolumeReg a) :
    regWrite a val r addr = r addr := by
  refine Stores.apply_of_notMem fun hmem => h ?_
  obtain rfl : addr = a := List.mem_singleton.1 hmem
  exact haddr

theorem setVoiceMute_volumeReg (haddr : VolumeReg addr) (enable : ℤ) :
    es8388SetVoiceMute enable r addr = r addr :=
  regWrite_volumeReg haddr (by decide)

theorem start_volumeReg (haddr : VolumeReg addr) (mode : Es8388Mode) :
    es8388Start mode r addr = r addr := by
  unfold es8388Start
  simp (disch := decide) only [ite_apply, setVoiceMute_volumeReg haddr, regWrite_volumeReg haddr,
    apply_volumeReg haddr, ite_self]

theorem stop_volumeReg (haddr : VolumeReg addr) (mode : Es8388Mode) :
    es8388Stop mode r addr = r addr := by
  unfold es8388Stop
  simp (disch := decide) only [ite_apply, setVoiceMute_volumeReg haddr, regWrite_volumeReg haddr,
    apply_volumeReg haddr, ite_self]

theorem fmtSet_volumeReg (haddr : VolumeReg addr) (mode : Es8388Mode) (fmt : Es8388Format) :
    es8388FmtSet mode fmt r addr = r addr := by
  unfold es8388FmtSet
  simp (disch := decide) only [ite_apply, regWrite_volumeReg haddr, ite_self]

/-- `es8388_init` sets the gain of the output. -/
theorem init_dacControl24 (r : Regs) : es8388Init r es8388DacControl24 = 0x1E :=
  Stores.apply_of_nodup (by decide) (by decide)

/-- A volume is programmed left and right, and leaves the output's gain. -/
theorem volumeSet_regs (v : UInt8) (r : Regs) :
    es8388VolumeSet v r es8388DacControl4 = realVol v ∧
      es8388VolumeSet v r es8388DacControl5 = realVol v ∧
      es8388VolumeSet v r es8388DacControl24 = r es8388DacControl24 := by
  have hnd : (([(es8388DacControl4, realVol v), (es8388DacControl5, realVol v)] :
      List (UInt8 × UInt8)).map Prod.fst).Nodup := by
    show [es8388DacControl4, es8388DacControl5].Nodup
    decide
  refine ⟨?_, ?_, ?_⟩
  · exact Stores.apply_of_nodup hnd (List.mem_cons_self ..)
  · exact Stores.apply_of_nodup hnd (List.mem_cons_of_mem _ (List.mem_cons_self ..))
  · refine Stores.apply_of_notMem ?_
    show es8388DacControl24 ∉ [es8388DacControl4, es8388DacControl5]
    decide

/-! ## Over a run -/

/-- What is to be remembered of the calls: whether `sound_init` was called,
and the last volume after it. -/
def noteCall : Option (Option UInt8) → SoundCall → Option (Option UInt8)
  | _, .soundInit => some none
  | some _, .configureVolume v => some (some v)
  | note, _ => note

/-- The last volume set after the last `sound_init`. -/
def lastVolume (calls : List SoundCall) : Option UInt8 := (calls.foldl noteCall none).join

/-- **Only `sound_init` and a volume write the registers of the volume.** -/
theorem soundStep_cases (sndDev : SoundDevice) (call : SoundCall) :
    call = .soundInit ∨ (∃ v, call = .configureVolume v) ∨
      (∀ note, noteCall note call = note) ∧
        ∀ addr, VolumeReg addr → (soundStep sndDev call).regs addr = sndDev.regs addr := by
  cases call with
  | soundInit => exact Or.inl rfl
  | configureVolume v => exact Or.inr (Or.inl ⟨v, rfl⟩)
  | soundStart stream =>
    refine Or.inr (Or.inr ⟨fun note => by cases note <;> rfl, fun addr haddr => ?_⟩)
    show (soundStart stream sndDev).regs addr = _
    unfold soundStart
    split
    · exact start_volumeReg haddr .dac
    · rfl
  | soundStop stream =>
    refine Or.inr (Or.inr ⟨fun note => by cases note <;> rfl, fun addr haddr => ?_⟩)
    show (soundStop stream sndDev).regs addr = _
    unfold soundStop
    split
    · exact stop_volumeReg haddr .dac
    · rfl
  | setVoiceMute enable =>
    exact Or.inr (Or.inr ⟨fun note => by cases note <;> rfl,
      fun addr haddr => setVoiceMute_volumeReg haddr enable⟩)
  | fmtSet mode fmt =>
    exact Or.inr (Or.inr ⟨fun note => by cases note <;> rfl,
      fun addr haddr => fmtSet_volumeReg haddr mode fmt⟩)

/-- A volume goes to the codec as it is. -/
theorem soundStep_configureVolume (sndDev : SoundDevice) (v : UInt8) :
    (soundStep sndDev (.configureVolume v)).regs = es8388VolumeSet v sndDev.regs := by
  have hv : UInt8.ofInt (v.toNat : ℤ) = v := by
    refine UInt8.toNat_inj.1 ?_
    have hlt := v.toNat_lt
    have hmod : ((v.toNat : ℤ) % 2 ^ 8).toNat = v.toNat := by omega
    rw [UInt8.ofInt, hmod, UInt8.ofNat_toNat]
  show es8388VolumeSet (UInt8.ofInt v.toNat) sndDev.regs = _
  rw [hv]

/-- What the codec holds of the calls. -/
structure VolumeInv (note : Option (Option UInt8)) (sndDev : SoundDevice) : Prop where
  gain : note ≠ none → sndDev.regs es8388DacControl24 = 0x1E
  attenuation : ∀ v, note = some (some v) →
    sndDev.regs es8388DacControl4 = realVol v ∧ sndDev.regs es8388DacControl5 = realVol v

/-- **A call keeps it.** -/
theorem volumeInv_step {note : Option (Option UInt8)} (h : VolumeInv note sndDev)
    (call : SoundCall) : VolumeInv (noteCall note call) (soundStep sndDev call) := by
  rcases soundStep_cases sndDev call with rfl | ⟨v, rfl⟩ | ⟨hnote, hregs⟩
  · exact ⟨fun _ => init_dacControl24 sndDev.regs, fun v hv => by cases hv⟩
  · obtain ⟨hleft, hright, hgain⟩ := volumeSet_regs v sndDev.regs
    have hstep := soundStep_configureVolume sndDev v
    cases note with
    | none => exact ⟨fun hnone => absurd rfl hnone, fun w hw => by cases hw⟩
    | some last =>
      refine ⟨fun _ => ?_, fun w hw => ?_⟩
      · rw [hstep, hgain]
        exact h.gain (Option.some_ne_none last)
      · cases hw
        rw [hstep]
        exact ⟨hleft, hright⟩
  · rw [hnote]
    refine ⟨fun hnone => ?_, fun v hv => ?_⟩
    · rw [hregs _ (by decide)]
      exact h.gain hnone
    · rw [hregs _ (by decide), hregs _ (by decide)]
      exact h.attenuation v hv

/-- **What is programmed is the last volume**, and the output's gain is the
one of `es8388_init`, whatever calls come between. -/
theorem volumeInv_run (sndDev : SoundDevice) (calls : List SoundCall) :
    VolumeInv (calls.foldl noteCall none) (soundRun sndDev calls) := by
  have hrun : ∀ (note : Option (Option UInt8)) (sndDev : SoundDevice), VolumeInv note sndDev →
      VolumeInv (calls.foldl noteCall note) (soundRun sndDev calls) := by
    unfold soundRun
    induction calls with
    | nil => exact fun _ _ h => h
    | cons call calls ih =>
      intro note sndDev h
      exact ih _ _ (volumeInv_step h call)
  exact hrun none sndDev ⟨fun hnone => absurd rfl hnone, fun v hv => by cases hv⟩

/-! ## The volume asked for -/

/-- The volume as the scale of `sound_getcaps` has it. -/
def limited (v : UInt8) : ℕ := min v.toNat 100

/-- What is asked for after the calls is the last volume set since
`sound_init`, give or take the step that the attenuation is rounded to. -/
def ReadsBack (sndDev : SoundDevice) (calls : List SoundCall) : Prop :=
  ∀ v, lastVolume calls = some v →
    (soundGetcapsVolume (soundRun sndDev calls) - (limited v : ℤ)).natAbs ≤ 1

/-- After `sound_init` the answer is always the same. -/
theorem getcaps_of_lastVolume (sndDev : SoundDevice) (h : lastVolume calls = some v) :
    soundGetcapsVolume (soundRun sndDev calls) = 90 := by
  have hnote : calls.foldl noteCall none ≠ none := by
    intro hnone
    rw [lastVolume, hnone] at h
    cases h
  have hgain := (volumeInv_run sndDev calls).gain hnote
  have hget : es8388VolumeGet (soundRun sndDev calls).regs = 90 := by
    unfold es8388VolumeGet regRead
    rw [hgain]
    decide
  rw [soundGetcapsVolume, hget]
  rfl

theorem readsBack_iff (sndDev : SoundDevice) (calls : List SoundCall) :
    ReadsBack sndDev calls ↔
      ∀ v, lastVolume calls = some v → 89 ≤ limited v ∧ limited v ≤ 91 := by
  constructor
  · intro h v hv
    have hclose := h v hv
    rw [getcaps_of_lastVolume sndDev hv] at hclose
    omega
  · intro h v hv
    have hnear := h v hv
    rw [getcaps_of_lastVolume sndDev hv]
    omega

/-! ## The attenuation -/

/-- The attenuation of a volume: turned around up to 100, and full beyond. -/
theorem realVol_toNat (v : UInt8) :
    (realVol v).toNat = if v.toNat ≤ 100 then 192 * (100 - v.toNat) / 100 else 192 := by
  have hlt := v.toNat_lt
  have h100 : (100 : UInt8).toNat = 100 := rfl
  have hsub : (100 - v).toNat = (2 ^ 8 - v.toNat + 100) % 2 ^ 8 := UInt8.toNat_sub 100 v
  have hreal : ∀ u : UInt8, u.toNat ≤ 100 →
      (UInt8.ofNat (192 * u.toNat / 100)).toNat = 192 * u.toNat / 100 := fun u hu =>
    UInt8.toNat_ofNat_of_lt' (show 192 * u.toNat / 100 < 256 by omega)
  unfold realVol
  simp only [UInt8.lt_iff_toNat_lt, h100]
  split
  · -- the difference has wrapped
    rename_i hwrap
    rw [hreal 100 (Nat.le_refl 100), if_neg (by omega), h100]
  · rename_i hwrap
    have hdiff : (100 - v).toNat = 100 - v.toNat := by omega
    rw [hreal (100 - v) (by omega), if_pos (by omega), hdiff]

/-- **A louder volume is attenuated no more, up to 100.** -/
theorem realVol_le_iff (h : limited v ≤ limited w) :
    realVol w ≤ realVol v ↔ w ≤ 100 ∨ v = 0 ∨ 100 < v := by
  have h100 : (100 : UInt8).toNat = 100 := rfl
  have h0 : (0 : UInt8).toNat = 0 := rfl
  have hw := realVol_toNat w
  have hv := realVol_toNat v
  unfold limited at h
  rw [UInt8.le_iff_toNat_le, UInt8.le_iff_toNat_le, UInt8.lt_iff_toNat_lt, ← UInt8.toNat_inj,
    h100, h0, hw, hv]
  split <;> split <;> omega

/-- Setting `w` programs no more attenuation than setting `v`, left and
right. -/
def NoSofter (sndDev : SoundDevice) (v w : UInt8) : Prop :=
  ∀ addr ∈ [es8388DacControl4, es8388DacControl5],
    (soundStep sndDev (.configureVolume w)).regs addr ≤
      (soundStep sndDev (.configureVolume v)).regs addr

theorem noSofter_iff (sndDev : SoundDevice) (v w : UInt8) :
    NoSofter sndDev v w ↔ realVol w ≤ realVol v := by
  obtain ⟨hleft, hright, -⟩ := volumeSet_regs v sndDev.regs
  obtain ⟨hleft', hright', -⟩ := volumeSet_regs w sndDev.regs
  unfold NoSofter
  rw [soundStep_configureVolume, soundStep_configureVolume]
  constructor
  · intro h
    have hfirst := h _ (List.mem_cons_self ..)
    rwa [hleft, hleft'] at hfirst
  · intro h addr haddr
    rcases List.mem_pair.1 haddr with rfl | rfl
    · rw [hleft, hleft']
      exact h
    · rw [hright, hright']
      exact h

/-- **The volume is read back exactly where it is about 90, and a louder
one programs no more attenuation exactly where it is at most 100**, or the
softer one is fully attenuated; after any calls. -/
theorem sound_volume_iff (sndDev : SoundDevice) (calls : List SoundCall) :
    (ReadsBack sndDev calls ↔
      ∀ v, lastVolume calls = some v → 89 ≤ limited v ∧ limited v ≤ 91) ∧
    ∀ v w, limited v ≤ limited w →
      (NoSofter (soundRun sndDev calls) v w ↔ w ≤ 100 ∨ v = 0 ∨ 100 < v) := by
  refine ⟨readsBack_iff sndDev calls, fun v w h => ?_⟩
  rw [noSofter_iff]
  exact realVol_le_iff h

/-- A codec that holds zeros, and the volume of start-up. -/
def codecZeros : SoundDevice := ⟨55, fun _ => 0⟩

/-- A volume of 90, and one of 60 after one of 50. -/
theorem sound_volume_iff_ninety :
    (ReadsBack codecZeros [.soundInit, .configureVolume 90] ↔
      ∀ v, lastVolume [.soundInit, .configureVolume 90] = some v →
        89 ≤ limited v ∧ limited v ≤ 91) ∧
    (NoSofter (soundRun codecZeros [.soundInit, .configureVolume 90]) 50 60 ↔
      (60 : UInt8) ≤ 100 ∨ (50 : UInt8) = 0 ∨ 100 < (50 : UInt8)) :=
  ⟨(sound_volume_iff codecZeros [.soundInit, .configureVolume 90]).1,
    (sound_volume_iff codecZeros [.soundInit, .configureVolume 90]).2 50 60 (by decide)⟩

/-- A volume of 50 is read back as 90, and one of 101 is attenuated in full. -/
theorem sound_volume_not_readBack :
    soundGetcapsVolume (soundRun codecZeros [.soundInit, .configureVolume 50]) = 90 ∧
      ¬ ReadsBack codecZeros [.soundInit, .configureVolume 50] ∧
      realVol 101 = 192 ∧ ¬ NoSofter codecZeros 50 101 := by
  have hget : soundGetcapsVolume (soundRun codecZeros [.soundInit, .configureVolume 50]) = 90 :=
    getcaps_of_lastVolume (v := 50) codecZeros rfl
  refine ⟨hget, fun h => ?_, by decide, fun h => ?_⟩
  · have hclose := h 50 rfl
    rw [hget] at hclose
    revert hclose
    decide
  · rw [noSofter_iff] at h
    revert h
    decide

end Audio

end RtSpark
