import RtSpark.Flash.FontLib
import RtSpark.Flash.Partition
/-!
# The devices keep the contract

`norDev` says what the font update relies on. Both devices of the board keep
it where they write and where they erase between two of their borders: a
call that reports success has programmed or erased exactly its range. A read
keeps it as long as the chip delivers.
-/

namespace RtSpark

namespace Flash

open Nor

variable {ω : Type} {dev : FalFlashDev ω} {flash : SfudFlash} {o : ℕ → Outcome}
variable {cells : Cells} {addr size lo k : ℕ} {buf : Mem}

/-- A device whose writes and erases come to what the contract has. -/
structure FalFlashDev.Keeps (dev : FalFlashDev ω) (border : ℕ → Prop) : Prop where
  write : ∀ (cells : Cells) (o : ω) (offset : ℕ) (buf : Mem) (size : ℕ),
    offset + size ≤ dev.len → ∃ o' : NorOutcome,
      dev.write cells o offset buf size = (norDev dev.len).write cells o' offset buf size
  erase : ∀ (cells : Cells) (o : ω) (offset size : ℕ), border offset → border (offset + size) →
    offset + size ≤ dev.len → ∃ o' : NorOutcome,
      dev.erase cells o offset size = (norDev dev.len).erase cells o' offset size

/-! ## The W25Q64 -/

/-- A write that succeeds has programmed its range. -/
theorem sfudWriteLoop_success (hcap : addr + size ≤ w25q64Capacity)
    (h : (sfudWriteLoop o k cells addr size buf).1 = .success) :
    (sfudWriteLoop o k cells addr size buf).2 = program cells addr size buf := by
  fun_induction sfudWriteLoop o k cells addr size buf with
  | case1 => exact program_zero.symm
  | case2 k cells addr size data hsize dataSize cells' hfail => cases h
  | case3 k cells addr size data hsize dataSize cells' hok ih =>
    have hcap' : w25q64Capacity < 2 ^ 32 := by decide
    have hle : dataSize ≤ size := Nat.min_le_left _ _
    -- one page, and by induction what follows it
    have hcells : cells' = program cells addr dataSize data := by
      show (o k).cells cells (program cells (w25q64Cell addr) dataSize data) = _
      rw [hok, w25q64Cell_of_lt (by omega)]
      rfl
    rw [Nat.mod_eq_of_lt (by omega)] at ih h ⊢
    rw [ih (by omega) h, hcells, program_append, Nat.add_sub_cancel' hle]

/-- An erase that succeeds has cleared its range: each block reaches from
`addr` or before it to where the next begins. -/
theorem sfudEraseLoop_success (hcap : addr + size ≤ w25q64Capacity)
    (hcleared : Cleared lo addr cells)
    (h : (sfudEraseLoop flash o k cells addr size).1 = .success) :
    Cleared lo (addr + size) (sfudEraseLoop flash o k cells addr size).2 := by
  fun_induction sfudEraseLoop flash o k cells addr size with
  | case1 => exact hcleared
  | case2 k cells addr size hsize cur cells' hfail => cases h
  | case3 k cells addr size hsize cur cells' hok rest hrest ih =>
    have hcap' : w25q64Capacity < 2 ^ 32 := by decide
    have hblock : Cleared lo (addr + rest) cells' := by
      show Cleared lo (addr + rest) ((o k).cells cells (eraseBlock cells cur (w25q64Cell addr)))
      rw [hok, w25q64Cell_of_lt (by omega)]
      exact hcleared.eraseBlock (curEraseSize_pos flash addr size)
    rw [Nat.mod_eq_of_lt (by omega)] at ih h ⊢
    have hall := ih (by omega) hblock h
    rw [show addr + rest + (size - rest) = addr + size by omega] at hall
    exact hall
  | case4 k cells addr size hsize cur cells' hok rest hrest =>
    have hblock : Cleared lo (addr + rest) cells' := by
      show Cleared lo (addr + rest) ((o k).cells cells (eraseBlock cells cur (w25q64Cell addr)))
      rw [hok, w25q64Cell_of_lt (by omega)]
      exact hcleared.eraseBlock (curEraseSize_pos flash addr size)
    exact hblock.mono (Nat.le_refl _) (by omega)

theorem sfudErase_success (hcap : addr + size ≤ w25q64Capacity)
    (h : (sfudErase flash o cells addr size).1 = .success) :
    Cleared addr (addr + size) (sfudErase flash o cells addr size).2 := by
  have hcap' : w25q64Capacity < 2 ^ 32 := by decide
  unfold sfudErase at h ⊢
  rw [if_neg (by rw [Nat.mod_eq_of_lt (by omega)]; omega)] at h ⊢
  split at h
  · -- the whole chip in one command
    rename_i hchip
    rw [if_pos hchip, hchip.1, hchip.2]
    unfold sfudChipErase at h ⊢
    cases ho : o 0 with
    | ok =>
      simp only [Outcome.cells]
      exact cleared_erase
    | failed carried =>
      rw [ho] at h
      cases h
  · rename_i hchip
    rw [if_neg hchip]
    exact sfudEraseLoop_success hcap (fun i h₁ h₂ => by omega) h

theorem w25q64_keeps (flash : SfudFlash) :
    (w25q64 flash).Keeps fun border => 64 * 1024 ∣ border where
  write := by
    intro cells o offset buf size hcap
    have hcap' : w25q64Capacity < 2 ^ 32 := by decide
    have hlen : offset + size ≤ w25q64Capacity := hcap
    have hwrite : sfudWrite o cells offset size buf = sfudWriteLoop o 0 cells offset size buf := by
      unfold sfudWrite
      rw [if_neg (by rw [Nat.mod_eq_of_lt (by omega)]; omega)]
    by_cases herr : (sfudWrite o cells offset size buf).1 = .success
    · refine ⟨.done, ?_⟩
      rw [hwrite] at herr
      simp only [w25q64, norDev, hwrite, herr, ne_eq, not_true_eq_false, if_false,
        sfudWriteLoop_success hlen herr]
    · refine ⟨.error (-1) (by decide) (sfudWrite o cells offset size buf).2 buf, ?_⟩
      simp only [w25q64, norDev, ne_eq, herr, not_false_eq_true, if_true]
  erase := by
    intro cells o offset size hlo hhi hcap
    by_cases herr : (sfudErase flash o cells offset size).1 = .success
    · have hframe := (w25q64_bounded flash).erase cells o offset size offset (offset + size) hlo
        hhi (Nat.le_refl _) (Nat.le_refl _) hcap
      have herase : (w25q64 flash).erase cells o offset size =
          (toInt size, (sfudErase flash o cells offset size).2) := by
        simp only [w25q64, ne_eq, herr, not_true_eq_false, if_false]
      rw [herase] at hframe ⊢
      exact ⟨.done, congrArg _ (eq_erase hframe (sfudErase_success hcap herr))⟩
    · refine ⟨.error (-1) (by decide) (sfudErase flash o cells offset size).2 Mem.zeros, ?_⟩
      simp only [w25q64, norDev, ne_eq, herr, not_false_eq_true, if_true]

/-! ## The on-chip flash -/

theorem stm32WriteLoop_success {offset written : ℕ} (hcap : offset + size ≤ stm32FlashSize)
    (hle : written ≤ size)
    (h : (stm32WriteLoop o k cells (stm32FlashStart + offset) buf size written).1 = true) :
    (stm32WriteLoop o k cells (stm32FlashStart + offset) buf size written).2 =
      program cells (offset + written) (size - written) fun i => buf (written + i) := by
  fun_induction stm32WriteLoop o k cells (stm32FlashStart + offset) buf size written with
  | case1 k cells written hlt width data cells' hfail => cases h
  | case2 k cells written hlt width data cells' hok hdiff => cases h
  | case3 k cells written hlt width data cells' hok hsame ih =>
    have hwidth := writeSize_bounds (stm32FlashStart + offset + written)
      (by omega : 0 < size - written)
    have hcells : cells' = program cells (offset + written) width data := by
      show (o k).cells cells
        (halFlashProgram cells (stm32FlashStart + offset + written) width data) = _
      rw [hok]
      unfold halFlashProgram
      rw [Nat.add_assoc, stm32Cell_of_lt (by omega), if_pos (by omega)]
      rfl
    -- the program that was read back, and what the rest of the loop adds
    have hsplit : size - written = width + (size - (written + width)) := by omega
    rw [ih (by omega) h, hcells, hsplit, ← program_append, Nat.add_assoc offset]
    congr 1
    funext i
    show buf (written + width + i) = buf (written + (i + width))
    congr 1
    omega
  | case4 k cells written hge =>
    rw [show size - written = 0 by omega, program_zero]

/-- The cells of a sector. -/
def SectorCleared (j : ℕ) (cells : Cells) : Prop :=
  ∀ h : j < 12, Cleared (addrFlashSector (⟨j, h⟩ : Fin 12).castSucc - stm32FlashStart)
    (addrFlashSector (⟨j, h⟩ : Fin 12).succ - stm32FlashStart) cells

theorem SectorCleared.flashEraseSector {j : ℕ} (h : SectorCleared j cells) (index : ℕ) :
    SectorCleared j (flashEraseSector cells index) := by
  intro hj
  unfold Flash.flashEraseSector
  split
  · exact (h hj).erase
  · exact h hj

theorem sectorCleared_flashEraseSector (cells : Cells) (j : ℕ) :
    SectorCleared j (flashEraseSector cells j) := by
  intro hj
  have hstart : addrFlashSector 0 = stm32FlashStart := rfl
  have hlow : addrFlashSector 0 ≤ addrFlashSector (⟨j, hj⟩ : Fin 12).castSucc :=
    addrFlashSector_mono (Fin.zero_le _)
  have hpos : addrFlashSector (⟨j, hj⟩ : Fin 12).castSucc ≤
      addrFlashSector (⟨j, hj⟩ : Fin 12).succ :=
    addrFlashSector_mono (Fin.le_def.2 (Nat.le_succ j))
  unfold flashEraseSector
  rw [dif_pos hj]
  exact cleared_erase.mono (Nat.le_refl _) (by omega)

/-- An erase that succeeds has cleared each of its sectors, and left none
that was. -/
theorem halFlashExErase_success {index last : ℕ}
    (h : (halFlashExErase o k cells index last).1 = true) :
    (∀ j, SectorCleared j cells → SectorCleared j (halFlashExErase o k cells index last).2) ∧
      ∀ j, index ≤ j → j < last → SectorCleared j (halFlashExErase o k cells index last).2 := by
  fun_induction halFlashExErase o k cells index last with
  | case1 k cells index hlt cells' hfail => cases h
  | case2 k cells index hlt cells' hok ih =>
    obtain ⟨hkeep, hnew⟩ := ih h
    have hcells : cells' = flashEraseSector cells index := by
      show (o k).cells cells (flashEraseSector cells index) = _
      rw [hok]
      rfl
    rw [hcells] at hkeep hnew ⊢
    refine ⟨fun j hj => hkeep j (hj.flashEraseSector index), fun j h₁ h₂ => ?_⟩
    -- the sector just erased is kept by the ones after it
    rcases Nat.eq_or_lt_of_le h₁ with rfl | hlt'
    · exact hkeep index (sectorCleared_flashEraseSector cells index)
    · exact hnew j hlt' h₂
  | case3 k cells index hge =>
    exact ⟨fun j hj => hj, fun j h₁ h₂ => absurd h₂ (by omega)⟩

/-- **The sectors of an erase cover its range.** -/
theorem halFlashExErase_cleared {offset : ℕ} {f l : Fin 12} (hcap : offset + size ≤ stm32FlashSize)
    (hf : addrFlashSector f.castSucc ≤ stm32FlashStart + offset)
    (hl : stm32FlashStart + (offset + size - 1) < addrFlashSector l.succ)
    (h : (halFlashExErase o k cells f (l + 1)).1 = true) :
    Cleared offset (offset + size) (halFlashExErase o k cells f (l + 1)).2 := by
  intro i hi₁ hi₂
  -- the sector of each byte lies between the first and the last
  obtain ⟨m, -, hm₁, hm₂⟩ := getSector_spec (by omega : i < stm32FlashSize)
  have hfm : f.castSucc < m.succ := addrFlashSector_lt (by omega)
  have hml : m.castSucc < l.succ := addrFlashSector_lt (by omega)
  rw [Fin.lt_def, Fin.val_castSucc, Fin.val_succ] at hfm hml
  have hsector := (halFlashExErase_success h).2 m (by omega) (by omega) m.isLt
  rw [Fin.eta] at hsector
  exact hsector i (by omega) (by omega)

theorem stm32OnchipFlash128k_keeps : stm32OnchipFlash128k.Keeps SectorBorder where
  write := by
    intro cells o offset buf size hcap
    have hstart : stm32FlashStart = 0x08000000 := rfl
    have hsize : stm32FlashSize = 0x100000 := rfl
    have hcap' : offset + size ≤ stm32FlashSize := hcap
    show ∃ o', stm32FlashWrite o cells ((stm32FlashStart + offset) % 2 ^ 32) buf size = _
    rw [Nat.mod_eq_of_lt (by omega : stm32FlashStart + offset < 2 ^ 32)]
    unfold stm32FlashWrite
    split
    · exact ⟨.error (-10) (by decide) cells buf, rfl⟩
    split
    · exact ⟨.error (-10) (by decide) cells buf, rfl⟩
    cases hok : (stm32WriteLoop o 0 cells (stm32FlashStart + offset) buf size 0).1 with
    | true =>
      have hcells := stm32WriteLoop_success hcap' (Nat.zero_le size) hok
      simp only [Nat.zero_add, Nat.add_zero, Nat.sub_zero] at hcells
      simp only [hok, if_true, hcells]
      exact ⟨.done, rfl⟩
    | false =>
      simp only [hok, Bool.false_eq_true, if_false]
      exact ⟨.error (-1) (by decide) _ buf, rfl⟩
  erase := by
    intro cells o offset size hlo hhi hcap
    have hstart : stm32FlashStart = 0x08000000 := rfl
    have hsize : stm32FlashSize = 0x100000 := rfl
    have hcap' : offset + size ≤ stm32FlashSize := hcap
    show ∃ o', stm32FlashErase o cells ((stm32FlashStart + offset) % 2 ^ 32) size = _
    rw [Nat.mod_eq_of_lt (by omega : stm32FlashStart + offset < 2 ^ 32)]
    rcases Nat.eq_zero_or_pos size with rfl | hpos
    · refine ⟨.error (-10) (by decide) cells Mem.zeros, ?_⟩
      unfold stm32FlashErase
      split
      · rfl
      · rfl
    have hframe : Frame offset (offset + size) cells
        (stm32FlashErase o cells (stm32FlashStart + offset) size).2 :=
      stm32FlashErase_frame hcap' hlo hhi (Nat.le_refl _) (Nat.le_refl _)
    obtain ⟨f, l, ⟨hf, -⟩, ⟨-, hl⟩, heq⟩ :=
      stm32FlashErase_eq hcap' hpos
    rw [heq] at hframe ⊢
    cases hok : (halFlashExErase o 0 cells f (l + 1)).1 with
    | true =>
      rw [hok] at hframe
      simp only [if_true] at hframe ⊢
      have hcleared := halFlashExErase_cleared hcap' hf hl hok
      exact ⟨.done, congrArg _ (eq_erase hframe hcleared)⟩
    | false =>
      simp only [Bool.false_eq_true, if_false]
      exact ⟨.error (-1) (by decide) _ Mem.zeros, rfl⟩

/-! ## The partitions -/

section

variable {part : FalPartition}

theorem falPartTable_keeps (flash : SfudFlash) (hpart : part ∈ falPartTable) :
    ∃ dev border, falFlashDeviceFind (falFlashDevTable flash) part.flashName = some dev ∧
      falFlashDeviceFind norDevTable part.flashName = some (norDev dev.len) ∧
      dev.Keeps border ∧ border part.offset ∧ border (part.offset + part.len) ∧
      part.offset + part.len ≤ dev.len ∧ part.offset + part.len < 2 ^ 31 := by
  rcases falPartTable_place hpart with ⟨hname, hlo, hhi, hlen⟩ | ⟨hname, hlo, hhi, hlen⟩
  · rw [hname]
    exact ⟨_, _, falFlashDeviceFind_w25q64 flash, by simp [falFlashDeviceFind, norDevTable, w25q64],
      w25q64_keeps flash, hlo, hhi, hlen, Nat.lt_of_le_of_lt hlen (by decide)⟩
  · rw [hname]
    exact ⟨_, _, falFlashDeviceFind_onchip flash,
      by simp [falFlashDeviceFind, norDevTable, stm32OnchipFlash128k],
      stm32OnchipFlash128k_keeps, hlo, hhi, hlen, Nat.lt_of_le_of_lt hlen (by decide)⟩

theorem falPartitionWrite_keeps (flash : SfudFlash) (hpart : part ∈ falPartTable)
    (cells : Cells) (o : ℕ → Outcome) (buf : Mem) (h : addr + size < 2 ^ 32) :
    ∃ o', falPartitionWrite (falFlashDevTable flash) part cells o addr buf size =
      falPartitionWrite norDevTable part cells o' addr buf size := by
  obtain ⟨dev, border, hdev, hnor, hkeeps, -, -, hlen, hlt⟩ := falPartTable_keeps flash hpart
  unfold falPartitionWrite
  rw [hdev, hnor]
  by_cases hroom : addr + size ≤ part.len
  · -- within the partition the sum is exact, and the call one of the device
    obtain ⟨o', heq⟩ := hkeeps.write cells o ((part.offset + addr) % 2 ^ 32) buf size
      (by rw [Nat.mod_eq_of_lt (by omega)]; omega)
    refine ⟨o', ?_⟩
    rw [if_neg (by omega), if_neg (by omega)]
    exact heq
  · refine ⟨.done, ?_⟩
    rw [Nat.mod_eq_of_lt h, if_pos (by omega), if_pos (by omega)]

theorem falPartitionEraseAll_keeps (flash : SfudFlash) (hpart : part ∈ falPartTable)
    (cells : Cells) (o : ℕ → Outcome) :
    ∃ o', falPartitionEraseAll (falFlashDevTable flash) part cells o =
      falPartitionEraseAll norDevTable part cells o' := by
  obtain ⟨dev, border, hdev, hnor, hkeeps, hlo, hhi, hlen, hlt⟩ := falPartTable_keeps flash hpart
  obtain ⟨o', heq⟩ := hkeeps.erase cells o part.offset part.len hlo hhi hlen
  refine ⟨o', ?_⟩
  unfold falPartitionEraseAll falPartitionErase
  rw [hdev, hnor, if_neg (by omega), if_neg (by omega)]
  simp only [Nat.add_zero]
  rw [Nat.mod_eq_of_lt (by omega)]
  exact heq

/-- A read the chip carries out. -/
theorem falPartitionRead_keeps (flash : SfudFlash) (hpart : part ∈ falPartTable)
    (h : addr + size ≤ part.len) (hok : o 0 = .ok) :
    falPartitionRead (falFlashDevTable flash) part cells o addr buf size =
      falPartitionRead norDevTable part cells .done addr buf size := by
  have haccepts : Accepts part addr size := Nat.le_trans (Nat.mod_le _ _) h
  rw [falPartitionRead_nor _ _ _ hpart h]
  rcases falPartTable_device hpart with ⟨hname, hlen⟩ | ⟨hname, hlen⟩
  · rw [falPartitionRead_w25q64 hname hlen haccepts, hok]
    refine Prod.ext rfl (funext fun i => ?_)
    by_cases hi : i < size
    · simp only [if_pos hi, w25q64Cell_of_lt (by omega : part.offset + addr + i < w25q64Capacity)]
    · simp only [if_neg hi]
  · rw [falPartitionRead_onchip hname hlen haccepts]
    refine Prod.ext rfl (funext fun i => ?_)
    by_cases hi : i < size
    · simp only [if_pos hi, stm32Cell_of_lt (by omega : part.offset + addr + i < stm32FlashSize)]
    · simp only [if_neg hi]

/-! ## The font update -/

theorem readsThrough_of_some {file : List UInt8} {len : ℕ} {copies : List (Option ℕ × NorOutcome)}
    (h : none ∉ copies.map Prod.fst) (total : ℕ) : ReadsThrough file len copies total := by
  induction copies generalizing total with
  | nil => trivial
  | cons c copies ih =>
    obtain ⟨got, o⟩ := c
    rw [List.map_cons, List.mem_cons, not_or] at h
    cases got with
    | none => exact absurd rfl h.1
    | some count => exact fun _ _ _ => ih h.2 _

theorem eraseCheck_keeps (flash : SfudFlash) (hpart : part ∈ falPartTable) (cells : Cells)
    {verify : ℕ → ℕ → Outcome} (hok : ∀ i, verify i 0 = .ok) (i : ℕ) (ret : ℤ) :
    eraseCheck (falFlashDevTable flash) part cells verify i ret =
      eraseCheck norDevTable part cells (fun _ => .done) i ret := by
  induction hn : part.len - i using Nat.strongRecOn generalizing i ret with
  | _ n ih =>
    rw [eraseCheck, eraseCheck]
    by_cases hlt : i < part.len
    · have hchunk := chunkLen_bounds hlt
      simp only [if_pos hlt, falPartitionRead_keeps flash hpart hchunk.2.2 (hok i)]
      rw [ih (part.len - (i + chunkLen part i)) (by omega) _ _ rfl]
    · rw [if_neg hlt, if_neg hlt]

/-- The copy loop, with the same reads of the file. -/
theorem copyLoop_keeps (flash : SfudFlash) (hpart : part ∈ falPartTable) (file : List UInt8)
    (copies : List (Option ℕ × (ℕ → Outcome))) (s : CopyState) :
    ∃ copies' : List (Option ℕ × NorOutcome), copies'.map Prod.fst = copies.map Prod.fst ∧
      copyLoop (falFlashDevTable flash) part file copies s =
        copyLoop norDevTable part file copies' s := by
  have hlen : part.len < 2 ^ 31 := by
    obtain ⟨_, -, h⟩ := falPartTable_norDev hpart
    omega
  induction copies generalizing s with
  | nil => exact ⟨[], rfl, by rw [copyLoop, copyLoop]⟩
  | cons c copies ih =>
    obtain ⟨got, o⟩ := c
    -- where the loop ends here, what would have followed does not matter
    have hrest : (copies.map fun c => (c.1, NorOutcome.done)).map Prod.fst =
        copies.map Prod.fst := by
      rw [List.map_map]
      rfl
    by_cases hguard : s.total < file.length % 2 ^ 32 ∧ s.total < part.len
    · cases got with
      | none =>
        refine ⟨(none, .done) :: copies.map fun c => (c.1, .done), congrArg _ hrest, ?_⟩
        rw [copyLoop, if_pos hguard, copyLoop, if_pos hguard]
      | some count =>
        obtain ⟨data, hdata⟩ : ∃ data, (file.drop s.pos).take (min count bufSize) = data :=
          ⟨_, rfl⟩
        obtain ⟨buf, hbuf⟩ :
            ∃ buf : Mem, (fun i => if i < data.length then data.getD i 0 else s.buf i) = buf :=
          ⟨_, rfl⟩
        have hle : data.length ≤ 512 := by
          have hsize : bufSize = 512 := rfl
          rw [← hdata, length_delivered]
          omega
        obtain ⟨o', heq⟩ := falPartitionWrite_keeps flash hpart s.cells o buf
          (by omega : s.total + data.length < 2 ^ 32)
        obtain ⟨copies', hmap, hloop⟩ := ih
          { total := (s.total + data.length) % 2 ^ 32
            pos := s.pos + data.length
            ret := (falPartitionWrite norDevTable part s.cells o' s.total buf data.length).1
            buf := buf
            cells := (falPartitionWrite norDevTable part s.cells o' s.total buf data.length).2 }
        refine ⟨(some count, o') :: copies', congrArg _ hmap, ?_⟩
        rw [copyLoop, if_pos hguard, copyLoop, if_pos hguard]
        simp only [hdata, hbuf, heq, hloop]
    · refine ⟨(got, .done) :: copies.map fun c => (c.1, .done), congrArg _ hrest, ?_⟩
      cases got <;> rw [copyLoop, if_neg hguard, copyLoop, if_neg hguard]

/-- **An update on the board's devices is one on devices that keep the
contract**, as long as the chip delivers what it is read. -/
theorem updatePartition_keeps (flash : SfudFlash) (hpart : part ∈ falPartTable) (cells : Cells)
    (c : UpdateCalls (ℕ → Outcome)) (hok : ∀ i, c.verify i 0 = .ok) :
    ∃ c' : UpdateCalls NorOutcome, c'.file = c.file ∧
      c'.copies.map Prod.fst = c.copies.map Prod.fst ∧
      updatePartition (falFlashDevTable flash) part cells c =
        updatePartition norDevTable part cells c' := by
  obtain ⟨dev, border, hdev, hnor, -⟩ := falPartTable_keeps flash hpart
  obtain ⟨erase', herase⟩ := falPartitionEraseAll_keeps flash hpart cells c.erase
  obtain ⟨r, hr⟩ : ∃ r, falPartitionEraseAll norDevTable part cells erase' = r := ⟨_, rfl⟩
  have hcheck := eraseCheck_keeps flash hpart r.2 hok 0 r.1
  have hcopies : ∃ copies' : List (Option ℕ × NorOutcome),
      copies'.map Prod.fst = c.copies.map Prod.fst ∧
      ∀ ret, eraseCheck norDevTable part r.2 (fun _ => .done) 0 r.1 = .ok ret →
        copyLoop (falFlashDevTable flash) part c.file c.copies ⟨0, 0, ret, Mem.zeros, r.2⟩ =
          copyLoop norDevTable part c.file copies' ⟨0, 0, ret, Mem.zeros, r.2⟩ := by
    cases eraseCheck norDevTable part r.2 (fun _ => .done) 0 r.1 with
    | error e =>
      refine ⟨c.copies.map fun c => (c.1, .done), ?_, fun ret h => by cases h⟩
      rw [List.map_map]
      rfl
    | ok ret =>
      obtain ⟨copies', hmap, hloop⟩ :=
        copyLoop_keeps flash hpart c.file c.copies ⟨0, 0, ret, Mem.zeros, r.2⟩
      refine ⟨copies', hmap, fun ret' h => ?_⟩
      cases h
      exact hloop
  obtain ⟨copies', hmap, hloop⟩ := hcopies
  refine ⟨⟨c.file, c.fits, c.opens, erase', fun _ => .done, copies'⟩, rfl, hmap, ?_⟩
  unfold updatePartition
  simp only [hdev, hnor, herase, hr, hcheck]
  split
  · rfl
  · cases heq : eraseCheck norDevTable part r.2 (fun _ => .done) 0 r.1 with
    | error e => rfl
    | ok ret => exact hloop ret heq

/-- **What the board's font update promises.** Where neither the chip nor
the file fails to be read, a result that is not negative is the font
library in its partition. -/
theorem updatePartition_sound (flash : SfudFlash) (hpart : part ∈ falPartTable) (cells : Cells)
    (c : UpdateCalls (ℕ → Outcome)) (hok : ∀ i, c.verify i 0 = .ok)
    (hfile : none ∉ c.copies.map Prod.fst) :
    Sound part c.file (updatePartition (falFlashDevTable flash) part cells c) := by
  obtain ⟨c', hfile', hcopies, heq⟩ := updatePartition_keeps flash hpart cells c hok
  rw [heq, ← hfile', updatePartition_sound_iff hpart]
  intro _
  rw [← hcopies] at hfile
  exact readsThrough_of_some hfile 0

end

end Flash

end RtSpark
