import RtSpark.Flash.Model.SpiFlash
import RtSpark.Common.Run
/-!
# Partitions are isolated

A device is `Bounded` by the borders of its blocks: what it writes or
erases between two of them stays there, whatever its commands come to.
Both devices of the board are, and every partition begins and ends at a
border of its device. What is left is the check of `fal_partition.c`,
whose sum is 32 bits wide: an access that runs past `2 ^ 32` and comes
round into the partition passes it.
-/

namespace RtSpark

namespace Flash

open Nor

variable {ω : Type} {dev : FalFlashDev ω} {flash : SfudFlash} {o : ℕ → Outcome}
variable {cells cells' : Cells} {addr size lo hi k : ℕ} {buf : Mem}

/-- A device that keeps to the borders of its blocks. -/
structure FalFlashDev.Bounded (dev : FalFlashDev ω) (border : ℕ → Prop) : Prop where
  len : dev.len < 2 ^ 32
  write : ∀ (cells : Cells) (o : ω) (offset : ℕ) (buf : Mem) (size lo hi : ℕ), lo ≤ offset →
    offset + size ≤ hi → hi ≤ dev.len → Frame lo hi cells (dev.write cells o offset buf size).2
  erase : ∀ (cells : Cells) (o : ω) (offset size lo hi : ℕ), border lo → border hi →
    lo ≤ offset → offset + size ≤ hi → hi ≤ dev.len →
    Frame lo hi cells (dev.erase cells o offset size).2

/-- A command changes nothing that carrying it out would not. -/
theorem Outcome.frame (o : Outcome) (h : Frame lo hi cells cells') :
    Frame lo hi cells (o.cells cells cells') := by
  cases o with
  | ok => exact h
  | failed carried =>
    intro i hi'
    simp only [Outcome.cells, h i hi', ite_self]

/-! ## The W25Q64 -/

theorem w25q64Cell_of_lt (h : addr < w25q64Capacity) : w25q64Cell addr = addr :=
  Nat.mod_eq_of_lt h

/-- A page write stays between the addresses it is given. -/
theorem sfudWriteLoop_frame (hcap : hi ≤ w25q64Capacity) (hlo : lo ≤ addr)
    (hhi : addr + size ≤ hi) : Frame lo hi cells (sfudWriteLoop o k cells addr size buf).2 := by
  fun_induction sfudWriteLoop o k cells addr size buf with
  | case1 => exact Frame.refl lo hi _
  | case2 k cells addr size data hsize dataSize cells' hfail =>
    refine (o k).frame (frame_program ?_ ?_)
    · rw [w25q64Cell_of_lt (by omega)]
      exact hlo
    · rw [w25q64Cell_of_lt (by omega)]
      omega
  | case3 k cells addr size data hsize dataSize cells' hok ih =>
    -- below the capacity no address comes round
    have hcap' : w25q64Capacity < 2 ^ 32 := by decide
    rw [Nat.mod_eq_of_lt (by omega)] at ih ⊢
    refine Frame.trans ((o k).frame (frame_program ?_ ?_)) (ih (by omega) (by omega))
    · rw [w25q64Cell_of_lt (by omega)]
      exact hlo
    · rw [w25q64Cell_of_lt (by omega)]
      omega

/-- **An erase stays between borders its blocks do not cross.** -/
theorem sfudEraseLoop_frame (hcap : hi ≤ w25q64Capacity) (hlo64 : 64 * 1024 ∣ lo)
    (hhi64 : 64 * 1024 ∣ hi) (hlo : lo ≤ addr) (hhi : addr + size ≤ hi) :
    Frame lo hi cells (sfudEraseLoop flash o k cells addr size).2 := by
  have hblock : ∀ {cells : Cells} {addr size : ℕ}, lo ≤ addr → addr < hi →
      Frame lo hi cells (eraseBlock cells (curEraseSize flash addr size) (w25q64Cell addr)) := by
    intro cells addr size hlo hhi
    have hdvd := curEraseSize_dvd flash addr size
    rw [w25q64Cell_of_lt (by omega)]
    exact frame_eraseBlock (Nat.dvd_trans hdvd hlo64) (Nat.dvd_trans hdvd hhi64) hlo hhi
  fun_induction sfudEraseLoop flash o k cells addr size with
  | case1 => exact Frame.refl lo hi _
  | case2 k cells addr size hsize cur cells' hfail =>
    exact (o k).frame (hblock hlo (by omega))
  | case3 k cells addr size hsize cur cells' hok rest hrest ih =>
    have hcap' : w25q64Capacity < 2 ^ 32 := by decide
    rw [Nat.mod_eq_of_lt (by omega)] at ih ⊢
    exact Frame.trans ((o k).frame (hblock hlo (by omega))) (ih (by omega) (by omega))
  | case4 k cells addr size hsize cur cells' hok rest hrest =>
    exact (o k).frame (hblock hlo (by omega))

theorem w25q64_bounded (flash : SfudFlash) :
    (w25q64 flash).Bounded fun border => 64 * 1024 ∣ border where
  len := show w25q64Capacity < 2 ^ 32 by decide
  write := by
    intro cells o offset buf size lo hi hlo hhi hcap
    have hframe : Frame lo hi cells (sfudWrite o cells offset size buf).2 := by
      unfold sfudWrite
      split
      · exact Frame.refl lo hi cells
      · exact sfudWriteLoop_frame hcap hlo hhi
    simp only [w25q64]
    split <;> exact hframe
  erase := by
    intro cells o offset size lo hi hlo64 hhi64 hlo hhi hcap
    have hframe : Frame lo hi cells (sfudErase flash o cells offset size).2 := by
      unfold sfudErase
      split
      · exact Frame.refl lo hi cells
      · split
        · rename_i hchip
          exact (o 0).frame (frame_erase (by omega) (by omega))
        · exact sfudEraseLoop_frame hcap hlo64 hhi64 hlo hhi
    simp only [w25q64]
    split <;> exact hframe

/-! ## The on-chip flash -/

theorem stm32Cell_of_lt {i : ℕ} (h : i < stm32FlashSize) :
    stm32Cell (stm32FlashStart + i) = i := by
  unfold stm32Cell stm32FlashStart stm32FlashSize at *
  omega

theorem writeSize_bounds {left : ℕ} (addr : ℕ) (h : 0 < left) :
    0 < writeSize addr left ∧ writeSize addr left ≤ left := by
  unfold writeSize
  split
  · omega
  · split <;> omega

/-- A write stays between the addresses it is given. -/
theorem stm32WriteLoop_frame {offset written : ℕ} (hcap : hi ≤ stm32FlashSize)
    (hlo : lo ≤ offset) (hhi : offset + size ≤ hi) :
    Frame lo hi cells
      (stm32WriteLoop o k cells (stm32FlashStart + offset) buf size written).2 := by
  have hprogram : ∀ {cells : Cells} {data : Mem} {written : ℕ}, written < size →
      Frame lo hi cells (halFlashProgram cells (stm32FlashStart + offset + written)
        (writeSize (stm32FlashStart + offset + written) (size - written)) data) := by
    intro cells data written hlt
    have hsize := writeSize_bounds (stm32FlashStart + offset + written)
      (by omega : 0 < size - written)
    unfold halFlashProgram
    rw [Nat.add_assoc] at hsize ⊢
    rw [stm32Cell_of_lt (by omega)]
    split
    · exact frame_program (by omega) (by omega)
    · exact Frame.refl lo hi cells
  fun_induction stm32WriteLoop o k cells (stm32FlashStart + offset) buf size written with
  | case1 k cells written hlt width data cells' hfail =>
    exact (o k).frame (hprogram hlt)
  | case2 k cells written hlt width data cells' hok hdiff =>
    exact (o k).frame (hprogram hlt)
  | case3 k cells written hlt width data cells' hok hsame ih =>
    exact Frame.trans ((o k).frame (hprogram hlt)) ih
  | case4 => exact Frame.refl lo hi _

/-- A border between two sectors, as a cell. -/
def SectorBorder (border : ℕ) : Prop :=
  ∃ k : Fin 13, addrFlashSector k = stm32FlashStart + border

theorem addrFlashSector_mono {j k : Fin 13} (h : j ≤ k) :
    addrFlashSector j ≤ addrFlashSector k := by
  revert j k
  decide

theorem addrFlashSector_lt {j k : Fin 13} (h : addrFlashSector j < addrFlashSector k) :
    j < k := by
  by_contra hle
  exact absurd (addrFlashSector_mono (Fin.not_lt.1 hle)) (Nat.not_le.2 h)

/-- **`GetSector` finds the sector of every address of the flash.** -/
theorem getSector_spec {i : ℕ} (h : i < stm32FlashSize) :
    ∃ k : Fin 12, getSector (stm32FlashStart + i) = k ∧
      addrFlashSector k.castSucc ≤ stm32FlashStart + i ∧
      stm32FlashStart + i < addrFlashSector k.succ := by
  unfold getSector
  cases hfind : (List.finRange 12).find? fun k =>
      decide (stm32FlashStart + i < addrFlashSector k.succ ∧
        addrFlashSector k.castSucc ≤ stm32FlashStart + i) with
  | some k =>
    have hk := List.find?_some hfind
    rw [decide_eq_true_eq] at hk
    exact ⟨k, rfl, hk.2, hk.1⟩
  | none =>
    exfalso
    -- the sectors follow each other from the start of the flash to its end
    have hstep : ∀ k : Fin 13, addrFlashSector k ≤ stm32FlashStart + i := by
      intro k
      induction k using Fin.induction with
      | zero => exact Nat.le_add_right _ i
      | succ k ih =>
        have hk := List.find?_eq_none.1 hfind k (List.mem_finRange k)
        rw [decide_eq_true_eq] at hk
        omega
    have hend := hstep (Fin.last 12)
    have heq : addrFlashSector (Fin.last 12) = stm32FlashStart + stm32FlashSize := rfl
    omega

/-- The sectors erased one by one. -/
theorem halFlashExErase_frame {index last : ℕ}
    (h : ∀ cells j, index ≤ j → j < last → Frame lo hi cells (flashEraseSector cells j)) :
    Frame lo hi cells (halFlashExErase o k cells index last).2 := by
  fun_induction halFlashExErase o k cells index last with
  | case1 k cells index hlt cells' hfail => exact (o k).frame (h cells index (Nat.le_refl _) hlt)
  | case2 k cells index hlt cells' hok ih =>
    exact Frame.trans ((o k).frame (h cells index (Nat.le_refl _) hlt))
      (ih fun cells j hj hlast => h cells j (by omega) hlast)
  | case3 => exact Frame.refl lo hi _

/-- **The sectors of an erase** are those from the one that holds its first
byte to the one that holds its last. -/
theorem stm32FlashErase_eq {offset : ℕ} (hcap : offset + size ≤ stm32FlashSize)
    (hsize : 0 < size) :
    ∃ f l : Fin 12,
      (addrFlashSector f.castSucc ≤ stm32FlashStart + offset ∧
        stm32FlashStart + offset < addrFlashSector f.succ) ∧
      (addrFlashSector l.castSucc ≤ stm32FlashStart + (offset + size - 1) ∧
        stm32FlashStart + (offset + size - 1) < addrFlashSector l.succ) ∧
      stm32FlashErase o cells (stm32FlashStart + offset) size =
        if (halFlashExErase o 0 cells f (l + 1)).1 then
          (toInt size, (halFlashExErase o 0 cells f (l + 1)).2)
        else (-1, (halFlashExErase o 0 cells f (l + 1)).2) := by
  obtain ⟨f, hf, hf₁, hf₂⟩ := getSector_spec (by omega : offset < stm32FlashSize)
  obtain ⟨l, hl, hl₁, hl₂⟩ := getSector_spec (by omega : offset + size - 1 < stm32FlashSize)
  refine ⟨f, l, ⟨hf₁, hf₂⟩, ⟨hl₁, hl₂⟩, ?_⟩
  have hstart : stm32FlashStart = 0x08000000 := rfl
  have hlen : stm32FlashSize = 0x100000 := rfl
  have hfl : f.castSucc < l.succ := addrFlashSector_lt (by omega)
  rw [Fin.lt_def, Fin.val_castSucc, Fin.val_succ] at hfl
  have hlast : (stm32FlashStart + offset + size - 1) % 2 ^ 32
      = stm32FlashStart + (offset + size - 1) := by omega
  have hnb : ((l.val + (2 ^ 32 - f.val) + 1) % 2 ^ 32 + f.val) % 2 ^ 32 = l.val + 1 := by omega
  have hend : ¬ stm32FlashEnd < (stm32FlashStart + offset + size) % 2 ^ 32 := by
    rw [Nat.mod_eq_of_lt (by omega), Nat.add_assoc, Nat.not_lt]
    exact Nat.add_le_add_left hcap _
  unfold stm32FlashErase
  rw [if_neg hend, if_neg (by omega)]
  simp only [hlast, hf, hl, hnb]

theorem stm32FlashErase_frame {offset : ℕ} (hcap : hi ≤ stm32FlashSize) (hlo : SectorBorder lo)
    (hhi : SectorBorder hi) (ha : lo ≤ offset) (hb : offset + size ≤ hi) :
    Frame lo hi cells (stm32FlashErase o cells (stm32FlashStart + offset) size).2 := by
  rcases Nat.eq_zero_or_pos size with rfl | hpos
  · unfold stm32FlashErase
    split
    · exact Frame.refl lo hi cells
    · exact Frame.refl lo hi cells
  obtain ⟨f, l, ⟨hf₁, hf₂⟩, ⟨hl₁, hl₂⟩, heq⟩ :=
    stm32FlashErase_eq (by omega : offset + size ≤ stm32FlashSize) hpos
  obtain ⟨a, hlo⟩ := hlo
  obtain ⟨b, hhi⟩ := hhi
  have hstart : stm32FlashStart = 0x08000000 := rfl
  have hsize : stm32FlashSize = 0x100000 := rfl
  have haf : a < f.succ := addrFlashSector_lt (by omega)
  have hlb : l.castSucc < b := addrFlashSector_lt (by omega)
  rw [Fin.lt_def, Fin.val_succ] at haf
  rw [Fin.lt_def, Fin.val_castSucc] at hlb
  have hsectors : Frame lo hi cells (halFlashExErase o 0 cells f (l + 1)).2 := by
    refine halFlashExErase_frame fun cells j hfj hjl => ?_
    have hj : j < 12 := by omega
    -- the sectors from the first to the last lie between the two borders
    have hlow : addrFlashSector a ≤ addrFlashSector (⟨j, hj⟩ : Fin 12).castSucc :=
      addrFlashSector_mono (Fin.le_def.2 (show a.val ≤ j by omega))
    have hhigh : addrFlashSector (⟨j, hj⟩ : Fin 12).succ ≤ addrFlashSector b :=
      addrFlashSector_mono (Fin.le_def.2 (show j + 1 ≤ b.val by omega))
    have hpos : addrFlashSector (⟨j, hj⟩ : Fin 12).castSucc ≤
        addrFlashSector (⟨j, hj⟩ : Fin 12).succ :=
      addrFlashSector_mono (Fin.le_def.2 (Nat.le_succ j))
    unfold flashEraseSector
    rw [dif_pos hj]
    exact frame_erase (by omega) (by omega)
  rw [heq]
  split <;> exact hsectors

theorem stm32OnchipFlash128k_bounded : stm32OnchipFlash128k.Bounded SectorBorder where
  len := show stm32FlashSize < 2 ^ 32 by decide
  write := by
    intro cells o offset buf size lo hi hlo hhi hcap
    have hcap' : hi ≤ stm32FlashSize := hcap
    have hstart : stm32FlashStart = 0x08000000 := rfl
    have hsize : stm32FlashSize = 0x100000 := rfl
    show Frame lo hi cells (stm32FlashWrite o cells ((stm32FlashStart + offset) % 2 ^ 32)
      buf size).2
    rw [Nat.mod_eq_of_lt (by omega : stm32FlashStart + offset < 2 ^ 32)]
    unfold stm32FlashWrite
    split
    · exact Frame.refl lo hi cells
    split
    · exact Frame.refl lo hi cells
    have hframe : Frame lo hi cells
        (stm32WriteLoop o 0 cells (stm32FlashStart + offset) buf size 0).2 :=
      stm32WriteLoop_frame hcap' hlo hhi
    simp only
    split <;> exact hframe
  erase := by
    intro cells o offset size lo hi hlo' hhi' hlo hhi hcap
    have hcap' : hi ≤ stm32FlashSize := hcap
    have hstart : stm32FlashStart = 0x08000000 := rfl
    have hsize : stm32FlashSize = 0x100000 := rfl
    show Frame lo hi cells (stm32FlashErase o cells ((stm32FlashStart + offset) % 2 ^ 32) size).2
    rw [Nat.mod_eq_of_lt (by omega : stm32FlashStart + offset < 2 ^ 32)]
    exact stm32FlashErase_frame hcap' hlo' hhi' hlo hhi

/-! ## The partitions -/

/-- **Every partition lies between two borders of its device.** -/
theorem falPartTable_place {part : FalPartition} (hpart : part ∈ falPartTable) :
    part.flashName = "W25Q64" ∧ 64 * 1024 ∣ part.offset ∧ 64 * 1024 ∣ part.offset + part.len ∧
        part.offset + part.len ≤ w25q64Capacity ∨
      part.flashName = "onchip_flash_128k" ∧ SectorBorder part.offset ∧
        SectorBorder (part.offset + part.len) ∧ part.offset + part.len ≤ stm32FlashSize := by
  simp only [falPartTable, List.mem_cons, List.not_mem_nil, or_false] at hpart
  rcases hpart with rfl | rfl | rfl | rfl | rfl | rfl | rfl
  · exact Or.inr ⟨rfl, ⟨0, rfl⟩, ⟨7, rfl⟩, by decide⟩
  · exact Or.inr ⟨rfl, ⟨7, rfl⟩, ⟨12, rfl⟩, by decide⟩
  all_goals exact Or.inl ⟨rfl, by decide, by decide, by decide⟩

theorem falFlashDeviceFind_w25q64 (flash : SfudFlash) :
    falFlashDeviceFind (falFlashDevTable flash) "W25Q64" = some (w25q64 flash) := by
  simp [falFlashDeviceFind, falFlashDevTable]

theorem falFlashDeviceFind_onchip (flash : SfudFlash) :
    falFlashDeviceFind (falFlashDevTable flash) "onchip_flash_128k"
      = some stm32OnchipFlash128k := by
  simp [falFlashDeviceFind, falFlashDevTable]

theorem falPartTable_borders (flash : SfudFlash) {part : FalPartition}
    (hpart : part ∈ falPartTable) :
    ∃ dev border, falFlashDeviceFind (falFlashDevTable flash) part.flashName = some dev ∧
      dev.Bounded border ∧ border part.offset ∧ border (part.offset + part.len) ∧
      part.offset + part.len ≤ dev.len := by
  rcases falPartTable_place hpart with ⟨hname, hlo, hhi, hlen⟩ | ⟨hname, hlo, hhi, hlen⟩
  · rw [hname]
    exact ⟨_, _, falFlashDeviceFind_w25q64 flash, w25q64_bounded flash, hlo, hhi, hlen⟩
  · rw [hname]
    exact ⟨_, _, falFlashDeviceFind_onchip flash, stm32OnchipFlash128k_bounded, hlo, hhi, hlen⟩

/-- The access lies within the partition. -/
def FalCall.Fits (part : FalPartition) (call : FalCall) : Prop :=
  call.addr + call.size part ≤ part.len

/-- The sum of address and size does not come round into the partition. -/
def FalCall.NoWrap (part : FalPartition) (call : FalCall) : Prop :=
  call.addr + call.size part < 2 ^ 32 ∨ part.len < (call.addr + call.size part) % 2 ^ 32

section

variable {devTable : List (String × FalFlashDev ω)} {part : FalPartition} {q : FalRequest ω}

variable (devTable) in
/-- What the check refuses changes nothing. -/
theorem falCall_refused (cells : Cells)
    (h : part.len < (q.call.addr + q.call.size part) % 2 ^ 32) :
    falCall devTable part cells q = (-1, cells) := by
  unfold falCall
  cases hcall : q.call with
  | write addr buf size => rw [hcall] at h; exact if_pos h
  | erase addr size => rw [hcall] at h; exact if_pos h
  | eraseAll => rw [hcall] at h; exact if_pos h

/-- **An access within the partition changes nothing outside it.** -/
theorem falCall_frame {border : ℕ → Prop} (cells : Cells)
    (hdev : falFlashDeviceFind devTable part.flashName = some dev) (hbounded : dev.Bounded border)
    (hlo : border part.offset) (hhi : border (part.offset + part.len))
    (hlen : part.offset + part.len ≤ dev.len) (hfits : q.call.Fits part) :
    Frame part.offset (part.offset + part.len) cells (falCall devTable part cells q).2 := by
  have hdevlen := hbounded.len
  unfold FalCall.Fits at hfits
  unfold falCall
  cases hcall : q.call with
  | write addr buf size =>
    rw [hcall] at hfits
    simp only [FalCall.addr, FalCall.size] at hfits
    simp only [falPartitionWrite, hdev]
    split
    · exact Frame.refl _ _ cells
    · rw [Nat.mod_eq_of_lt (by omega)]
      exact hbounded.write _ _ _ _ _ _ _ (by omega) (by omega) hlen
  | erase addr size =>
    rw [hcall] at hfits
    simp only [FalCall.addr, FalCall.size] at hfits
    simp only [falPartitionErase, hdev]
    split
    · exact Frame.refl _ _ cells
    · rw [Nat.mod_eq_of_lt (by omega)]
      exact hbounded.erase _ _ _ _ _ _ hlo hhi (by omega) (by omega) hlen
  | eraseAll =>
    simp only [falPartitionEraseAll, falPartitionErase, hdev]
    split
    · exact Frame.refl _ _ cells
    · rw [Nat.mod_eq_of_lt (by omega)]
      exact hbounded.erase _ _ _ _ _ _ hlo hhi (by omega) (by omega) hlen

end

/-- **Partitions are isolated in every run whose sums do not come round.**
Whatever the commands to the device come to, no cell outside the
partition ever differs, and an access that does not fit returns an error
and leaves the cells. -/
theorem partitions_isolated (flash : SfudFlash) {part : FalPartition}
    (hpart : part ∈ falPartTable) (cells : Cells) (requests : List (FalRequest (ℕ → Outcome)))
    (hwrap : ∀ q ∈ requests, q.call.NoWrap part) :
    Run.AlongRun (falStep (falFlashDevTable flash) part)
      (fun s q s' => Frame part.offset (part.offset + part.len) cells s' ∧
        (¬ q.call.Fits part →
          (falCall (falFlashDevTable flash) part s q).1 < 0 ∧ s' = s))
      cells requests := by
  obtain ⟨dev, border, hdev, hbounded, hlo, hhi, hlen⟩ := falPartTable_borders flash hpart
  refine Run.alongRun_of_invariant (I := Frame part.offset (part.offset + part.len) cells)
    (Frame.refl _ _ cells) fun s q hq hs => ?_
  have hdevlen := hbounded.len
  by_cases hfits : q.call.Fits part
  · have hs' := hs.trans (falCall_frame s hdev hbounded hlo hhi hlen hfits)
    exact ⟨hs', hs', fun h => absurd hfits h⟩
  · have hrefused : part.len < (q.call.addr + q.call.size part) % 2 ^ 32 := by
      unfold FalCall.Fits at hfits
      rcases hwrap q hq with hlt | h
      · rw [Nat.mod_eq_of_lt hlt]
        omega
      · exact h
    have heq := falCall_refused (falFlashDevTable flash) s hrefused
    have hsame : falStep (falFlashDevTable flash) part s q = s := congrArg Prod.snd heq
    rw [hsame, heq]
    exact ⟨hs, hs, fun _ => ⟨show (-1 : ℤ) < 0 by decide, rfl⟩⟩

/-- `font`, its first block erased, and then a byte past its end asked for. -/
theorem partitions_isolated_font :
    Run.AlongRun (falStep (falFlashDevTable ⟨none⟩) font)
      (fun s q s' => Frame font.offset (font.offset + font.len) (fun _ => 0) s' ∧
        (¬ q.call.Fits font →
          (falCall (falFlashDevTable ⟨none⟩) font s q).1 < 0 ∧ s' = s))
      (fun _ => 0)
      [⟨.erase 0 4096, fun _ => .ok⟩, ⟨.erase (3 * 1024 * 1024) 1, fun _ => .ok⟩] :=
  partitions_isolated ⟨none⟩ (by decide) (fun _ => 0)
    [⟨.erase 0 4096, fun _ => .ok⟩, ⟨.erase (3 * 1024 * 1024) 1, fun _ => .ok⟩] (by
      intro q hq
      simp only [List.mem_cons, List.not_mem_nil, or_false] at hq
      rcases hq with rfl | rfl
      · exact Or.inl (by decide)
      · exact Or.inl (by decide))

/-- **An erase of `filesystem` can erase the chip**: from 5 MiB before it,
where the sum of address and size comes round to its end. -/
theorem partitions_not_isolated :
    ¬ ∀ (flash : SfudFlash) (part : FalPartition) (_ : part ∈ falPartTable) (cells : Cells)
      (requests : List (FalRequest (ℕ → Outcome))),
      Run.AlongRun (falStep (falFlashDevTable flash) part)
        (fun s q s' => Frame part.offset (part.offset + part.len) cells s' ∧
          (¬ q.call.Fits part →
            (falCall (falFlashDevTable flash) part s q).1 < 0 ∧ s' = s))
        cells requests := by
  intro h
  have hrun := h ⟨none⟩ ⟨"filesystem", "W25Q64", (512 + 1024 + 512 + 3 * 1024) * 1024,
    3 * 1024 * 1024⟩ (by decide) (fun _ => 0)
    [⟨.erase (0 - 5 * 1024 * 1024) (8 * 1024 * 1024), fun _ => .ok⟩]
  have hcell := hrun.1.1 0 (Or.inl (by decide))
  exact absurd hcell (by decide +kernel)

end Flash

end RtSpark
