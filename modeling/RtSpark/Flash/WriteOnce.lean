import RtSpark.Flash.Model.FlashCalls
import RtSpark.Flash.Partition
import RtSpark.Common.Tiling
/-!
# On-chip writes program every byte once

Each pass programs the bytes from the last one on, as wide as the address
and the bytes left allow, so the programs tile what was written so far and
the cells are the old ones with so much of the buffer programmed in
(`WriteInv`). A pass that fails, or that does not read back what it
programmed, is the last.
-/

namespace RtSpark

namespace Flash

open Nor Tiling

variable {results : ℕ → Bool} {cells : Cells} {buf : Mem} {offset size : ℕ}
variable {s s' : WriteState}

/-! ## One program -/

/-- **Every width is natural at its address.** -/
theorem writeSize_aligned (addr left : ℕ) :
    (writeSize addr left = 1 ∨ writeSize addr left = 2 ∨ writeSize addr left = 4) ∧
      writeSize addr left ∣ addr := by
  unfold writeSize
  split_ifs with hword hhalf
  · exact ⟨Or.inr (Or.inr rfl), Nat.dvd_of_mod_eq_zero hword.1⟩
  · exact ⟨Or.inr (Or.inl rfl), Nat.dvd_of_mod_eq_zero hhalf.1⟩
  · exact ⟨Or.inl rfl, Nat.one_dvd addr⟩

/-- A program behind what was written adds to it. -/
theorem halFlashProgram_append (cells : Cells) (buf : Mem) {written width : ℕ}
    (hcap : offset + size ≤ stm32FlashSize)
    (hwidth : 0 < width) (hle : written + width ≤ size) :
    halFlashProgram (program cells offset written buf) (stm32FlashStart + offset + written) width
        (fun i => buf (written + i)) = program cells offset (written + width) buf := by
  have hdata : (fun i => buf (written + i)) = fun i => buf (i + written) := by
    funext i
    rw [Nat.add_comm]
  unfold halFlashProgram
  rw [Nat.add_assoc, stm32Cell_of_lt (by omega), if_pos (by omega), hdata, program_append]

/-- What is read back of it. -/
theorem readBack_program {written width i : ℕ} (hcap : offset + size ≤ stm32FlashSize)
    (hle : written + width ≤ size) (hi : i < width) :
    program cells offset (written + width) buf
        (stm32Cell (stm32FlashStart + offset + written + i)) =
      cells (offset + (written + i)) &&& buf (written + i) := by
  rw [Nat.add_assoc, Nat.add_assoc, stm32Cell_of_lt (by omega), program_of_lt (by omega)]

/-! ## The loop -/

/-- Programming so much of the buffer keeps what is in the buffer. -/
def OnlyClears (cells : Cells) (offset : ℕ) (buf : Mem) (n : ℕ) : Prop :=
  ∀ i, i < n → cells (offset + i) &&& buf i = buf i

/-- The head of the loop. Until it is left, the programs, the cells and
what was read back all go as far as `writtenSize`. -/
structure WriteInv (results : ℕ → Bool) (cells : Cells) (offset : ℕ) (buf : Mem) (size : ℕ)
    (s : WriteState) : Prop where
  written : s.writtenSize ≤ size
  tiled : ∃ issued, issued ≤ size ∧
    Tiles (stm32FlashStart + offset) (stm32FlashStart + offset + issued) s.programs ∧
      (s.failed = false → issued = s.writtenSize)
  aligned : ∀ p ∈ s.programs, (p.2 = 1 ∨ p.2 = 2 ∨ p.2 = 4) ∧ p.2 ∣ p.1
  programmed : ∃ n, n ≤ size ∧ s.cells = program cells offset n buf ∧
    (s.failed = false → n = s.writtenSize)
  same : s.failed = false → OnlyClears cells offset buf s.writtenSize
  clean : s.failed = true → (∃ k, results k = false) ∨ ¬ OnlyClears cells offset buf size

theorem writeInv_init : WriteInv results cells offset buf size (writeInit cells) where
  written := Nat.zero_le size
  tiled := ⟨0, Nat.zero_le size, Tiles.nil, fun _ => rfl⟩
  aligned := fun _ hp => absurd hp List.not_mem_nil
  programmed := ⟨0, Nat.zero_le size, program_zero.symm, fun _ => rfl⟩
  same := fun _ i hi => absurd hi (Nat.not_lt_zero i)
  clean := fun h => Bool.noConfusion h

/-- **A pass** either fails, or writes as many bytes as its width. -/
theorem writePass_cases (hcap : offset + size ≤ stm32FlashSize)
    (h : WriteInv results cells offset buf size s)
    (hpass : writePass results (stm32FlashStart + offset) buf size s = some s') :
    s.failed = false ∧ s.writtenSize < size ∧
      ∃ width, width = writeSize (stm32FlashStart + offset + s.writtenSize) (size - s.writtenSize) ∧
        s'.programs = s.programs ++ [(stm32FlashStart + offset + s.writtenSize, width)] ∧
        ((s'.failed = true ∧ s'.writtenSize = s.writtenSize ∧
            ((results s.programs.length = false ∧ s'.cells = s.cells) ∨
              (s'.cells = program cells offset (s.writtenSize + width) buf ∧
                ∃ i, i < width ∧ cells (offset + (s.writtenSize + i)) &&& buf (s.writtenSize + i) ≠
                  buf (s.writtenSize + i)))) ∨
          (s'.failed = false ∧ s'.writtenSize = s.writtenSize + width ∧
            s'.cells = program cells offset (s.writtenSize + width) buf ∧
            ∀ i, i < width → cells (offset + (s.writtenSize + i)) &&& buf (s.writtenSize + i) =
              buf (s.writtenSize + i))) := by
  obtain ⟨n, -, hcells, hn⟩ := h.programmed
  unfold writePass at hpass
  split_ifs at hpass with hleft hmore hok
  all_goals
    have hleft' : s.failed = false := Bool.eq_false_iff.2 hleft
    obtain rfl := hn hleft'
    have hwidth := writeSize_bounds (stm32FlashStart + offset + s.writtenSize)
      (by omega : 0 < size - s.writtenSize)
    have hle : s.writtenSize + writeSize (stm32FlashStart + offset + s.writtenSize)
      (size - s.writtenSize) ≤ size := by omega
    refine ⟨hleft', hmore, _, rfl, ?_⟩
  · have happend := halFlashProgram_append cells buf hcap hwidth.1 hle
    rw [← hcells] at happend
    simp only [happend] at hpass
    split_ifs at hpass with hdiff
    · -- the program went through, but reads back otherwise
      rw [← Option.some.inj hpass]
      obtain ⟨i, hi, hne⟩ := hdiff
      have hi' := List.mem_range.1 hi
      rw [readBack_program hcap hle hi'] at hne
      exact ⟨rfl, Or.inl ⟨rfl, rfl, Or.inr ⟨rfl, i, hi', hne⟩⟩⟩
    · rw [← Option.some.inj hpass]
      refine ⟨rfl, Or.inr ⟨rfl, rfl, rfl, ?_⟩⟩
      intro i hi
      by_contra hne
      refine hdiff ⟨i, List.mem_range.2 hi, ?_⟩
      rw [readBack_program hcap hle hi]
      exact hne
  · rw [← Option.some.inj hpass]
    exact ⟨rfl, Or.inl ⟨rfl, rfl, Or.inl ⟨Bool.eq_false_iff.2 hok, rfl⟩⟩⟩

theorem writeInv_step (hcap : offset + size ≤ stm32FlashSize)
    (h : WriteInv results cells offset buf size s)
    (hpass : writePass results (stm32FlashStart + offset) buf size s = some s') :
    WriteInv results cells offset buf size s' := by
  obtain ⟨hleft, hmore, width, rfl, hprograms, hcases⟩ := writePass_cases hcap h hpass
  have hwidth := writeSize_bounds (stm32FlashStart + offset + s.writtenSize)
    (by omega : 0 < size - s.writtenSize)
  have haligned := writeSize_aligned (stm32FlashStart + offset + s.writtenSize)
    (size - s.writtenSize)
  generalize writeSize (stm32FlashStart + offset + s.writtenSize) (size - s.writtenSize) = width
    at *
  obtain ⟨issued, -, htiles, hissued⟩ := h.tiled
  obtain rfl := hissued hleft
  obtain ⟨n, -, hcells, hn⟩ := h.programmed
  obtain rfl := hn hleft
  have htiled : Tiles (stm32FlashStart + offset)
      (stm32FlashStart + offset + (s.writtenSize + width)) s'.programs := by
    rw [hprograms, ← Nat.add_assoc]
    exact htiles.concat hwidth.1
  have haligned' : ∀ p ∈ s'.programs, (p.2 = 1 ∨ p.2 = 2 ∨ p.2 = 4) ∧ p.2 ∣ p.1 := by
    intro p hp
    rw [hprograms] at hp
    rcases List.mem_append.1 hp with hp | hp
    · exact h.aligned p hp
    · rw [List.mem_singleton.1 hp]
      exact haligned
  rcases hcases with ⟨hfailed, hwritten, hcells'⟩ | ⟨hgoes, hwritten, hcells', hsame⟩
  · have hgone : s'.failed = false → False := fun hf => by
      rw [hfailed] at hf
      cases hf
    refine ⟨hwritten ▸ h.written, ⟨_, by omega, htiled, fun hf => (hgone hf).elim⟩, haligned',
      ?_, fun hf => (hgone hf).elim, fun _ => ?_⟩
    · rcases hcells' with ⟨-, heq⟩ | ⟨heq, -⟩
      · exact ⟨s.writtenSize, h.written, heq.trans hcells, fun hf => (hgone hf).elim⟩
      · exact ⟨_, by omega, heq, fun hf => (hgone hf).elim⟩
    · rcases hcells' with ⟨hresult, -⟩ | ⟨-, i, hi, hne⟩
      · exact Or.inl ⟨_, hresult⟩
      · exact Or.inr fun hclears => hne (hclears _ (by omega))
  · refine ⟨by omega, ⟨_, by omega, htiled, fun _ => hwritten.symm⟩, haligned',
      ⟨_, by omega, hcells', fun _ => hwritten.symm⟩, fun _ => ?_, fun hf => ?_⟩
    · intro i hi
      rcases Nat.lt_or_ge i s.writtenSize with hlt | hge
      · exact h.same hleft i hlt
      · have := hsame (i - s.writtenSize) (by omega)
        rwa [Nat.add_sub_cancel' hge] at this
    · rw [hgoes] at hf
      cases hf

/-- **The loop ends.** -/
theorem writeLast_exits (results : ℕ → Bool) (cells : Cells) (buf : Mem)
    (hcap : offset + size ≤ stm32FlashSize) :
    Loop.Exits (writePass results (stm32FlashStart + offset) buf size) (writeInit cells)
      (writeLast results cells (stm32FlashStart + offset) buf size) := by
  refine Loop.run_exits (I := WriteInv results cells offset buf size)
    (μ := fun s => if s.failed then 0 else size - s.writtenSize + 1) ?_ writeInv_init ?_
  · intro s s' h hpass
    refine ⟨writeInv_step hcap h hpass, ?_⟩
    obtain ⟨hleft, hmore, width, hwidth, -, hcases⟩ := writePass_cases hcap h hpass
    have hbounds := writeSize_bounds (stm32FlashStart + offset + s.writtenSize)
      (by omega : 0 < size - s.writtenSize)
    simp only [hleft, Bool.false_eq_true, if_false]
    rcases hcases with ⟨hfailed, -⟩ | ⟨hgoes, hwritten, -⟩
    · rw [if_pos hfailed]
      omega
    · rw [if_neg (by rw [hgoes]; decide)]
      omega
  · show (if false = true then 0 else size - 0 + 1) < size + 2
    rw [if_neg (by decide)]
    omega

theorem writeLast_inv (results : ℕ → Bool) (cells : Cells) (buf : Mem)
    (hcap : offset + size ≤ stm32FlashSize) :
    WriteInv results cells offset buf size
      (writeLast results cells (stm32FlashStart + offset) buf size) :=
  (writeLast_exits results cells buf hcap).1.invariant writeInv_init fun _ _ h hpass =>
    writeInv_step hcap h hpass

/-- A loop that was not left by a failure wrote everything. -/
theorem writeLast_all (results : ℕ → Bool) (cells : Cells) (buf : Mem)
    (hcap : offset + size ≤ stm32FlashSize)
    (hgoes : (writeLast results cells (stm32FlashStart + offset) buf size).failed = false) :
    (writeLast results cells (stm32FlashStart + offset) buf size).writtenSize = size := by
  have hinv := writeLast_inv results cells buf hcap
  have hstop := (writeLast_exits results cells buf hcap).2
  have hwritten := hinv.written
  by_contra hne
  have hleft : ¬ (writeLast results cells (stm32FlashStart + offset) buf size).failed = true := by
    rw [hgoes]
    decide
  rw [writePass, if_neg hleft, if_pos (by omega)] at hstop
  simp only at hstop
  split_ifs at hstop

/-! ## The write without its calls -/

/-- What the HAL answers, a program that fails leaving the cells. -/
def halStatus (ok : Bool) : Outcome := if ok then .ok else .failed fun _ => false

theorem halStatus_false : halStatus false = .failed fun _ => false := rfl

/-- A pass of the loop, as one expression. -/
theorem writePass_of_lt (results : ℕ → Bool) (addr : ℕ) (buf : Mem)
    (hgoes : s.failed = false) (hmore : s.writtenSize < size) :
    writePass results addr buf size s = some
      (if results s.programs.length = true then
        if ∃ i ∈ List.range (writeSize (addr + s.writtenSize) (size - s.writtenSize)),
            halFlashProgram s.cells (addr + s.writtenSize)
                (writeSize (addr + s.writtenSize) (size - s.writtenSize))
                (fun i => buf (s.writtenSize + i)) (stm32Cell (addr + s.writtenSize + i)) ≠
              buf (s.writtenSize + i) then
          ⟨s.writtenSize, halFlashProgram s.cells (addr + s.writtenSize)
            (writeSize (addr + s.writtenSize) (size - s.writtenSize))
            (fun i => buf (s.writtenSize + i)), s.programs ++ [(addr + s.writtenSize,
              writeSize (addr + s.writtenSize) (size - s.writtenSize))], true⟩
        else
          ⟨s.writtenSize + writeSize (addr + s.writtenSize) (size - s.writtenSize),
            halFlashProgram s.cells (addr + s.writtenSize)
              (writeSize (addr + s.writtenSize) (size - s.writtenSize))
              (fun i => buf (s.writtenSize + i)), s.programs ++ [(addr + s.writtenSize,
                writeSize (addr + s.writtenSize) (size - s.writtenSize))], false⟩
      else
        ⟨s.writtenSize, s.cells, s.programs ++ [(addr + s.writtenSize,
          writeSize (addr + s.writtenSize) (size - s.writtenSize))], true⟩) := by
  have hleft : ¬ s.failed = true := by
    rw [hgoes]
    decide
  rw [writePass, if_neg hleft, if_pos hmore]
  simp only
  split_ifs <;> rfl

theorem stm32WriteLoop_eq (results : ℕ → Bool) (buf : Mem) (addr size n : ℕ)
    (s : WriteState) (hgoes : s.failed = false) (hn : size - s.writtenSize < n) :
    stm32WriteLoop (fun k => halStatus (results k)) s.programs.length s.cells addr buf size
        s.writtenSize =
      (!(Loop.run (writePass results addr buf size) n s).failed,
        (Loop.run (writePass results addr buf size) n s).cells) := by
  induction n generalizing s with
  | zero => omega
  | succ n ih =>
    have hleft : ¬ s.failed = true := by
      rw [hgoes]
      decide
    rw [stm32WriteLoop]
    rcases Nat.lt_or_ge s.writtenSize size with hmore | hdone
    · have hwidth := writeSize_bounds (addr + s.writtenSize) (by omega : 0 < size - s.writtenSize)
      have hpass := writePass_of_lt results addr buf hgoes hmore
      rw [if_pos hmore]
      generalize writeSize (addr + s.writtenSize) (size - s.writtenSize) = width at *
      cases hok : results s.programs.length with
      | false =>
        simp only [hok, Bool.false_eq_true, if_false] at hpass
        rw [Loop.run_succ_of_some hpass, Loop.run_of_none rfl]
        simp only [halStatus_false, Outcome.cells, Bool.false_eq_true, if_false, Bool.not_true]
      | true =>
        simp only [hok, if_true] at hpass
        change (if ∃ i ∈ List.range width, halFlashProgram s.cells (addr + s.writtenSize) width
              (fun i => buf (s.writtenSize + i)) (stm32Cell (addr + s.writtenSize + i)) ≠
                buf (s.writtenSize + i) then
            (false, halFlashProgram s.cells (addr + s.writtenSize) width
              fun i => buf (s.writtenSize + i))
          else stm32WriteLoop (fun k => halStatus (results k)) (s.programs.length + 1)
            (halFlashProgram s.cells (addr + s.writtenSize) width
              fun i => buf (s.writtenSize + i)) addr buf size (s.writtenSize + width)) = _
        split at hpass
        · rename_i hdiff
          rw [if_pos hdiff, Loop.run_succ_of_some hpass, Loop.run_of_none rfl]
          simp only [Bool.not_true]
        · rename_i hsame
          rw [if_neg hsame, Loop.run_succ_of_some hpass, ← ih _ rfl (by simp only; omega),
            List.length_append, List.length_singleton]
    · have hpass : writePass results addr buf size s = none := by
        rw [writePass, if_neg hleft, if_neg (by omega)]
      rw [if_neg (by omega), Loop.run_of_none hpass, hgoes]
      rfl

theorem writeEnd_failed (u : FlashUnit) (h : s.failed = true) :
    writeEnd size u s = ⟨-1, ⟨s.cells, true⟩, s.programs⟩ := by
  rw [writeEnd, if_pos h]
  rfl

theorem writeEnd_done (u : FlashUnit) (h : s.failed = false) :
    writeEnd size u s = ⟨toInt size, ⟨s.cells, true⟩, s.programs⟩ := by
  rw [writeEnd, if_neg (by rw [h]; decide)]
  rfl

/-- **Recording the calls changes nothing.** -/
theorem stm32FlashWriteCalls_eq (results : ℕ → Bool) (u : FlashUnit) (addr : ℕ) (buf : Mem)
    (size : ℕ) :
    stm32FlashWrite (fun k => halStatus (results k)) u.cells addr buf size =
      ((stm32FlashWriteCalls results u addr buf size).result,
        (stm32FlashWriteCalls results u addr buf size).unit.cells) := by
  unfold stm32FlashWrite stm32FlashWriteCalls
  split_ifs with hout hempty
  · rfl
  · rfl
  · have hloop := stm32WriteLoop_eq results buf addr size (size + 2)
      (writeInit u.cells) rfl (by simp only [writeInit]; omega)
    change stm32WriteLoop _ 0 u.cells addr buf size 0 = _ at hloop
    rw [hloop]
    change (if (!(writeLast results u.cells addr buf size).failed) = true then
        (toInt size, (writeLast results u.cells addr buf size).cells)
      else (-1, (writeLast results u.cells addr buf size).cells)) =
        ((writeEnd size u.unlock (writeLast results u.cells addr buf size)).result,
          (writeEnd size u.unlock (writeLast results u.cells addr buf size)).unit.cells)
    generalize writeLast results u.cells addr buf size = s
    cases hfailed : s.failed with
    | true => rw [writeEnd_failed _ hfailed]; rfl
    | false => rw [writeEnd_done _ hfailed]; rfl

/-! ## The write -/

/-- What a write is to do with the flash. -/
structure WritesOnce (results : ℕ → Bool) (cells : Cells) (addr : ℕ) (buf : Mem) (size : ℕ)
    (r : WriteRun) : Prop where
  locked : r.unit.locked = true
  aligned : ∀ p ∈ r.programs, (p.2 = 1 ∨ p.2 = 2 ∨ p.2 = 4) ∧ p.2 ∣ p.1
  tiled : ∃ issued, issued ≤ size ∧ Tiles addr (addr + issued) r.programs ∧
    (r.result = size → issued = size)
  programmed : ∃ n, n ≤ size ∧ r.unit.cells = program cells (stm32Cell addr) n buf
  stored : r.result = size → ∀ i, i < size → r.unit.cells (stm32Cell (addr + i)) = buf i
  result : r.result = size ∨ r.result < 0
  succeeds : (∀ k, results k = true) →
    (∀ i, i < size → cells (stm32Cell (addr + i)) &&& buf i = buf i) → r.result = size
  outside : Frame (stm32Cell addr) (stm32Cell addr + size) cells r.unit.cells

/-- **A write programs every byte once**: the loop ends, the programs are
aligned and tile the range from its start on, and the size is returned for
a range that holds the buffer. -/
theorem stm32FlashWriteCalls_once {addr : ℕ} (hstart : stm32FlashStart ≤ addr) (hpos : 1 ≤ size)
    (hend : addr + size ≤ stm32FlashEnd) (results : ℕ → Bool) (u : FlashUnit) (buf : Mem) :
    Loop.Exits (writePass results addr buf size) (writeInit u.cells)
        (writeLast results u.cells addr buf size) ∧
      WritesOnce results u.cells addr buf size (stm32FlashWriteCalls results u addr buf size) := by
  obtain ⟨offset, rfl⟩ := Nat.exists_eq_add_of_le hstart
  have hstart' : stm32FlashStart = 0x08000000 := rfl
  have hsize' : stm32FlashSize = 0x100000 := rfl
  have hend' : stm32FlashEnd = stm32FlashStart + stm32FlashSize := rfl
  have hcap : offset + size ≤ stm32FlashSize := by omega
  have hexit := writeLast_exits results u.cells buf hcap
  have hinv := writeLast_inv results u.cells buf hcap
  have hall := writeLast_all results u.cells buf hcap
  have hcell : ∀ i, i < size → stm32Cell (stm32FlashStart + offset + i) = offset + i := by
    intro i hi
    rw [Nat.add_assoc, stm32Cell_of_lt (by omega)]
  have hcell0 : stm32Cell (stm32FlashStart + offset) = offset := stm32Cell_of_lt (by omega)
  have hin : ¬ stm32FlashEnd < (stm32FlashStart + offset + size) % 2 ^ 32 := by omega
  have hint : toInt size = size := if_pos (by omega)
  refine ⟨hexit, ?_⟩
  unfold stm32FlashWriteCalls
  rw [if_neg hin, if_neg (by omega)]
  change WritesOnce _ _ _ _ _ (writeEnd size u.unlock
    (writeLast results u.cells (stm32FlashStart + offset) buf size))
  generalize writeLast results u.cells (stm32FlashStart + offset) buf size = s at hexit hinv hall ⊢
  obtain ⟨issued, hissued, htiles, hissued'⟩ := hinv.tiled
  obtain ⟨n, hn, hcells, hn'⟩ := hinv.programmed
  have hframe : Frame offset (offset + size) u.cells s.cells := by
    rw [hcells]
    exact frame_program (Nat.le_refl _) (by omega)
  cases hfailed : s.failed with
  | true =>
    have hnot : (-1 : ℤ) ≠ size := by omega
    rw [writeEnd_failed _ hfailed]
    refine ⟨rfl, hinv.aligned, ⟨issued, hissued, htiles, fun h => absurd h hnot⟩,
      ⟨n, hn, by rw [hcell0]; exact hcells⟩, fun h => absurd h hnot,
      Or.inr (show (-1 : ℤ) < 0 by decide), ?_, by rw [hcell0]; exact hframe⟩
    intro hok hclears
    rcases hinv.clean hfailed with ⟨k, hk⟩ | hdiffers
    · rw [hok k] at hk
      cases hk
    · refine absurd (fun i hi => ?_) hdiffers
      have := hclears i hi
      rwa [hcell i hi] at this
  | false =>
    have hwritten := hall hfailed
    have hsame := hinv.same hfailed
    rw [hwritten] at hsame
    rw [writeEnd_done _ hfailed, hint]
    refine ⟨rfl, hinv.aligned, ⟨issued, hissued, htiles, fun _ => ?_⟩,
      ⟨n, hn, by rw [hcell0]; exact hcells⟩, fun _ i hi => ?_, Or.inl rfl, fun _ _ => rfl,
      by rw [hcell0]; exact hframe⟩
    · rw [hissued' hfailed, hwritten]
    · rw [hcell i hi]
      show s.cells (offset + i) = buf i
      rw [hcells, hn' hfailed, hwritten, program_of_lt hi]
      exact hsame i hi

/-- Seven bytes from an odd address on, on an erased flash. -/
theorem stm32FlashWriteCalls_once_seven :
    stm32FlashStart ≤ 0x08000001 ∧ 1 ≤ 7 ∧ 0x08000001 + 7 ≤ stm32FlashEnd ∧
      Loop.Exits (writePass (fun _ => true) 0x08000001 (fun i => UInt8.ofNat i) 7)
          (writeInit fun _ => 0xFF)
          (writeLast (fun _ => true) (fun _ => 0xFF) 0x08000001 (fun i => UInt8.ofNat i) 7) ∧
        WritesOnce (fun _ => true) (fun _ => 0xFF) 0x08000001 (fun i => UInt8.ofNat i) 7
          (stm32FlashWriteCalls (fun _ => true) ⟨fun _ => 0xFF, true⟩ 0x08000001
            (fun i => UInt8.ofNat i) 7) :=
  ⟨by decide, by decide, by decide,
    stm32FlashWriteCalls_once (by decide) (by decide) (by decide) (fun _ => true)
      ⟨fun _ => 0xFF, true⟩ fun i => UInt8.ofNat i⟩

example : (stm32FlashWriteCalls (fun _ => true) ⟨fun _ => 0xFF, true⟩ 0x08000001
    (fun _ => 0) 9).programs =
      [(0x08000001, 1), (0x08000002, 2), (0x08000004, 4), (0x08000008, 2)] := by
  decide

end Flash

end RtSpark
