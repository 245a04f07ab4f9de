import Mathlib.Data.Nat.Notation
import Mathlib.Tactic.ByContra
/-!
# NOR flash cells

A flash memory is a byte at every address. Programming can only clear
bits, erasing sets every bit of a whole aligned block. `Frame` is what an
operation leaves alone and `Cleared` what it must have erased; both are
followed through a sequence of operations.
-/

namespace RtSpark

namespace Nor

/-- The bytes of a device, by address. -/
abbrev Cells := ℕ → UInt8

variable {cells s t u : Cells} {a b n lo hi size addr i : ℕ} {data : ℕ → UInt8}

/-- `n` bytes programmed from address `a` on. -/
def program (cells : Cells) (a n : ℕ) (data : ℕ → UInt8) : Cells := fun i =>
  if a ≤ i ∧ i < a + n then cells i &&& data (i - a) else cells i

/-- `n` bytes erased from address `a` on. -/
def erase (cells : Cells) (a n : ℕ) : Cells := fun i =>
  if a ≤ i ∧ i < a + n then 0xFF else cells i

/-- The aligned block of `size` bytes that holds `addr`, erased. -/
def eraseBlock (cells : Cells) (size addr : ℕ) : Cells :=
  erase cells (addr - addr % size) size

/-- Nothing but `[lo, hi)` differs. -/
def Frame (lo hi : ℕ) (s t : Cells) : Prop :=
  ∀ i, i < lo ∨ hi ≤ i → t i = s i

/-- `[lo, hi)` is erased. -/
def Cleared (lo hi : ℕ) (s : Cells) : Prop :=
  ∀ i, lo ≤ i → i < hi → s i = 0xFF

/-! ## One operation -/

theorem program_of_lt (h : i < n) : program cells a n data (a + i) = cells (a + i) &&& data i := by
  unfold program
  rw [if_pos ⟨Nat.le_add_right a i, Nat.add_lt_add_left h a⟩, Nat.add_sub_cancel_left]

/-- **Programming an erased cell stores the byte.** -/
theorem program_of_erased (h : cells (a + i) = 0xFF) (hi : i < n) :
    program cells a n data (a + i) = data i := by
  rw [program_of_lt hi, h]
  exact UInt8.toBitVec_inj.1 BitVec.allOnes_and

@[simp] theorem program_zero : program cells a 0 data = cells := by
  funext i
  unfold program
  rw [if_neg (by omega)]

theorem frame_program (hlo : lo ≤ a) (hhi : a + n ≤ hi) :
    Frame lo hi cells (program cells a n data) := by
  intro i hi'
  unfold program
  rw [if_neg (by omega)]

theorem frame_erase (hlo : lo ≤ a) (hhi : a + n ≤ hi) : Frame lo hi cells (erase cells a n) := by
  intro i hi'
  unfold erase
  rw [if_neg (by omega)]

/-- A block stays on its side of every border its size divides. -/
theorem block_bounds (hlo : size ∣ lo) (hhi : size ∣ hi) (ha : lo ≤ addr) (hb : addr < hi) :
    lo ≤ addr - addr % size ∧ addr - addr % size + size ≤ hi := by
  obtain ⟨k, rfl⟩ := hlo
  obtain ⟨m, rfl⟩ := hhi
  have hsize : 0 < size := by
    by_contra h
    obtain rfl : size = 0 := by omega
    omega
  have hdiv := Nat.div_add_mod addr size
  have hmod := Nat.mod_lt addr hsize
  have hk : k ≤ addr / size := by
    rw [Nat.le_div_iff_mul_le hsize, Nat.mul_comm]
    exact ha
  have hm : addr / size + 1 ≤ m := by
    rw [Nat.succ_le_iff, Nat.div_lt_iff_lt_mul hsize, Nat.mul_comm]
    exact hb
  have hk' := Nat.mul_le_mul_left size hk
  have hm' := Nat.mul_le_mul_left size hm
  rw [Nat.mul_add, Nat.mul_one] at hm'
  omega

/-- **Erasing a block** does not cross such a border. -/
theorem frame_eraseBlock (hlo : size ∣ lo) (hhi : size ∣ hi) (ha : lo ≤ addr) (hb : addr < hi) :
    Frame lo hi cells (eraseBlock cells size addr) := by
  obtain ⟨h₁, h₂⟩ := block_bounds hlo hhi ha hb
  exact frame_erase h₁ h₂

/-- What is erased stays so. -/
theorem Cleared.erase (h : Cleared lo hi s) : Cleared lo hi (erase s a n) := by
  intro i h₁ h₂
  unfold Nor.erase
  split
  · rfl
  · exact h i h₁ h₂

theorem cleared_erase : Cleared a (a + n) (erase cells a n) := by
  intro i h₁ h₂
  unfold erase
  rw [if_pos ⟨h₁, h₂⟩]

/-! ## Sequences -/

theorem Frame.refl (lo hi : ℕ) (s : Cells) : Frame lo hi s s := fun _ _ => rfl

theorem Frame.trans (h₁ : Frame lo hi s t) (h₂ : Frame lo hi t u) : Frame lo hi s u :=
  fun i hi => (h₂ i hi).trans (h₁ i hi)

theorem Frame.mono {lo' hi' : ℕ} (h : Frame lo hi s t) (hlo : lo' ≤ lo) (hhi : hi ≤ hi') :
    Frame lo' hi' s t :=
  fun i hi'' => h i (by omega)

theorem Cleared.mono {lo' hi' : ℕ} (h : Cleared lo hi s) (hlo : lo ≤ lo') (hhi : hi' ≤ hi) :
    Cleared lo' hi' s :=
  fun i h₁ h₂ => h i (by omega) (by omega)

/-- Two erased stretches that meet are one. -/
theorem Cleared.append {mid : ℕ} (h₁ : Cleared lo mid s) (h₂ : Cleared mid hi s) :
    Cleared lo hi s := by
  intro i hlo hhi
  by_cases h : i < mid
  · exact h₁ i hlo h
  · exact h₂ i (by omega) hhi

/-- A block erased from the end of an erased stretch on lengthens it to the
end of the block. -/
theorem Cleared.eraseBlock (h : Cleared lo addr s) (hsize : 0 < size) :
    Cleared lo (addr + (size - addr % size)) (eraseBlock s size addr) := by
  have hmod := Nat.mod_lt addr hsize
  have hle := Nat.mod_le addr size
  have hblock : Cleared (addr - addr % size) (addr - addr % size + size)
      (Nor.eraseBlock s size addr) := cleared_erase
  exact h.erase.append (hblock.mono (by omega) (by omega))

/-- What clears a stretch and leaves the rest has erased it. -/
theorem eq_erase (hframe : Frame a (a + n) s t) (hcleared : Cleared a (a + n) t) :
    t = erase s a n := by
  funext i
  unfold erase
  by_cases h : a ≤ i ∧ i < a + n
  · rw [if_pos h]
    exact hcleared i h.1 h.2
  · rw [if_neg h]
    exact hframe i (by omega)

/-- Programming two stretches that meet is programming one. -/
theorem program_append {m : ℕ} :
    program (program cells a n data) (a + n) m (fun i => data (i + n)) =
      program cells a (n + m) data := by
  funext i
  unfold program
  by_cases h₁ : a ≤ i ∧ i < a + n
  · rw [if_neg (by omega), if_pos h₁, if_pos (by omega)]
  · by_cases h₂ : a + n ≤ i ∧ i < a + n + m
    · rw [if_pos h₂, if_neg h₁, if_pos (by omega)]
      show cells i &&& data (i - (a + n) + n) = _
      rw [show i - (a + n) + n = i - a by omega]
    · rw [if_neg h₂, if_neg h₁, if_neg (by omega)]

end Nor

end RtSpark
