import Mathlib.Data.Nat.Notation
import Mathlib.Tactic.ByContra
/-!
# NUL-terminated strings in memory

Memory is read from a pointer on, one byte an offset: a program that
reads past its buffer reads bytes nothing is known of. The C string
functions are given at that level, and a `CString` is what a `char`
array of a fixed size can hold as a string.
-/

namespace RtSpark

/-- `'\r'`. -/
def cr : UInt8 := 0x0D

/-- `'\n'`. -/
def lf : UInt8 := 0x0A

/-- Memory from a pointer on. -/
abbrev Mem := ℕ → UInt8

namespace Mem

variable {dst src : Mem} {i k n : ℕ}

/-- A buffer of `size` bytes holding `bytes` and zeros after them, with
the memory that lies beyond it. -/
def buffer (size : ℕ) (bytes : List UInt8) (beyond : Mem) : Mem := fun i =>
  if i < size then bytes.getD i 0 else beyond i

/-- A cleared buffer, and cleared memory behind it. -/
def zeros : Mem := fun _ => 0

/-- The number of bytes before the first NUL, at most `n`. -/
def strnlen (s : Mem) : ℕ → ℕ
  | 0 => 0
  | n + 1 => if s 0 = 0 then 0 else strnlen (fun i => s (i + 1)) n + 1

/-- `strncpy(dst, src, n)`: the string's bytes, then NULs up to `n`. -/
def strncpy (dst src : Mem) (n : ℕ) : Mem := fun i =>
  if i < n then if i < strnlen src n then src i else 0 else dst i

/-- The string a buffer of `n` bytes holds. -/
def str (s : Mem) (n : ℕ) : List UInt8 := (List.range (strnlen s n)).map s

theorem strnlen_le (s : Mem) (n : ℕ) : strnlen s n ≤ n := by
  induction n generalizing s with
  | zero => exact Nat.le_refl 0
  | succ n ih =>
    have := ih fun i => s (i + 1)
    rw [strnlen]
    split <;> omega

/-- The bytes before the terminator are not NUL. -/
theorem ne_zero_of_lt_strnlen {s : Mem} (h : i < strnlen s n) : s i ≠ 0 := by
  induction n generalizing s i with
  | zero => cases h
  | succ n ih =>
    rw [strnlen] at h
    split at h
    · cases h
    · rename_i h0
      cases i with
      | zero => exact h0
      | succ i => exact ih (s := fun i => s (i + 1)) (by omega)

/-- Below the bound the count stops at a NUL. -/
theorem zero_of_strnlen_lt {s : Mem} (h : strnlen s n < n) : s (strnlen s n) = 0 := by
  induction n generalizing s with
  | zero => cases h
  | succ n ih =>
    rw [strnlen] at h ⊢
    split
    · assumption
    · rename_i h0
      rw [if_neg h0] at h
      exact ih (s := fun i => s (i + 1)) (by omega)

/-- Characters up to `k` are counted. -/
theorem le_strnlen {s : Mem} (hk : k ≤ n) (hne : ∀ i, i < k → s i ≠ 0) : k ≤ strnlen s n := by
  by_contra hcon
  have hlt : strnlen s n < n := by omega
  exact hne _ (by omega) (zero_of_strnlen_lt hlt)

/-- A string's length is where its first NUL is. -/
theorem strnlen_eq {s : Mem} (hk : k ≤ n) (hne : ∀ i, i < k → s i ≠ 0)
    (hend : k = n ∨ s k = 0) : strnlen s n = k := by
  refine Nat.le_antisymm ?_ (le_strnlen hk hne)
  rcases hend with rfl | hz
  · exact strnlen_le s k
  · by_contra hcon
    exact ne_zero_of_lt_strnlen (s := s) (n := n) (by omega) hz

/-! ## What a copy holds -/

/-- A byte of a copy that is not NUL is the source's. -/
theorem strncpy_zeros_eq (h : strncpy zeros src n i ≠ 0) :
    i < n ∧ strncpy zeros src n i = src i := by
  unfold strncpy zeros at h ⊢
  split at h
  · rename_i hi
    split at h
    · rename_i hlt
      exact ⟨hi, by rw [if_pos hi, if_pos hlt]⟩
    · exact absurd rfl h
  · exact absurd rfl h

/-- Up to the source's first NUL the copy is the source. -/
theorem strncpy_of_ne_zero (hi : i < n) (hne : ∀ j, j ≤ i → src j ≠ 0) :
    strncpy dst src n i = src i := by
  have hlt : i < strnlen src n := by
    have := le_strnlen (s := src) (k := i + 1) (n := n) hi fun j hj => hne j (by omega)
    omega
  rw [strncpy, if_pos hi, if_pos hlt]

/-- From the source's NUL on the copy is NUL. -/
theorem strncpy_zeros_of_nul (hk : src k = 0) (hi : k ≤ i) : strncpy zeros src n i = 0 := by
  by_contra hne
  rw [strncpy] at hne
  split at hne
  · rename_i hin
    split at hne
    · rename_i hlt
      exact ne_zero_of_lt_strnlen (Nat.lt_of_le_of_lt hi hlt) hk
    · exact hne rfl
  · exact hne rfl

theorem strncpy_zeros_of_ge (hi : n ≤ i) : strncpy zeros src n i = 0 := by
  rw [strncpy, if_neg (by omega)]
  rfl

@[simp] theorem str_length (s : Mem) (n : ℕ) : (str s n).length = strnlen s n := by
  rw [str, List.length_map, List.length_range]

theorem ne_zero_of_mem_str {s : Mem} {c : UInt8} (h : c ∈ str s n) : c ≠ 0 := by
  obtain ⟨i, hi, rfl⟩ := List.mem_map.1 h
  exact ne_zero_of_lt_strnlen (List.mem_range.1 hi)

end Mem

/-- A string a `char` array of `cap` bytes holds. -/
structure CString (cap : ℕ) where
  chars : List UInt8
  noNul : ∀ c ∈ chars, c ≠ 0
  fits : chars.length < cap
deriving DecidableEq

namespace CString

variable {cap : ℕ}

/-- `strcpy` into an array of `cap` bytes, from a buffer that holds a
string no longer than that. -/
def strcpy (h : 0 < cap) (s : Mem) : CString cap where
  chars := Mem.str s (cap - 1)
  noNul := fun _ hc => Mem.ne_zero_of_mem_str hc
  fits := by
    have := Mem.strnlen_le s (cap - 1)
    rw [Mem.str_length]
    omega

/-- `strlen`. -/
def strlen (s : CString cap) : ℕ := s.chars.length

end CString

end RtSpark
