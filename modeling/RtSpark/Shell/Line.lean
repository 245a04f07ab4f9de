import RtSpark.Shell.Model.Shell
/-!
# The line of the shell

A text and zeros behind it, to the end of its array: what the line holds as
long as it has not been full, and what every row of the history holds. What
the editing does to the array is what it does to the text.
-/

namespace RtSpark

namespace Shell

open FinshShell

/-- An array of `size` characters with the text `w`, and zeros behind it. -/
structure Padded (size : ℕ) (m : Mem) (w : List UInt8) : Prop where
  text : m.At 0 w
  zeros : ∀ i, w.length ≤ i → i < size → m i = 0
  noNul : ∀ c ∈ w, c ≠ 0
  short : w.length < finshCmdSize

variable {size n : ℕ} {m m' line : Mem} {w v u : List UInt8} {c : UInt8}

theorem Padded.get (h : Padded size m w) {i : ℕ} (hi : i < w.length) : m i = w[i] := by
  have := Mem.at_iff.1 h.text i hi
  rwa [Nat.zero_add] at this

theorem padded_zeros (size : ℕ) : Padded size Mem.zeros [] where
  text := trivial
  zeros _ _ _ := rfl
  noNul c hc := absurd hc (List.not_mem_nil)
  short := by decide

theorem Padded.stringAt (h : Padded size m w) (hsize : w.length < size) : m.StringAt 0 w :=
  ⟨h.text, by rw [Nat.zero_add]; exact h.zeros _ (le_refl _) hsize⟩

/-- `strlen` of such an array. -/
theorem Padded.strnlen (h : Padded size m w) (hsize : w.length < size) :
    m.strnlen size = w.length :=
  (h.stringAt hsize).strnlen h.noNul (Nat.le_of_lt hsize)

/-- What is behind `u`. -/
theorem Padded.tail (h : Padded size m (u ++ v)) (hsize : (u ++ v).length < size) :
    Mem.strnlen (fun j => m (u.length + j)) (size - u.length) = v.length ∧
      Mem.str (fun j => m (u.length + j)) (size - u.length) = v := by
  have hstring := (h.stringAt hsize).drop
  rw [Nat.zero_add] at hstring
  have hshift : Mem.StringAt (fun j => m (u.length + j)) 0 v :=
    ⟨Mem.at_shift.2 hstring.1, by rw [Nat.zero_add]; exact hstring.2⟩
  rw [List.length_append] at hsize
  have hlen := hshift.strnlen (fun c hc => h.noNul c (List.mem_append_right _ hc))
    (show v.length ≤ size - u.length by omega)
  refine ⟨hlen, List.ext_getElem (by rw [Mem.str_length, hlen]) fun i hi hi' => ?_⟩
  have := Mem.at_iff.1 hshift.1 i hi'
  rw [Nat.zero_add] at this
  simpa [Mem.str] using this

/-- What is printed of the line. -/
theorem puts_padded (h : Padded (finshCmdSize + 1) m (u ++ v)) :
    puts m u.length = some (v.map fun c => .echo (.char c)) := by
  have hshort := h.short
  obtain ⟨hlen, hstr⟩ := h.tail (by omega)
  rw [List.length_append] at hshort
  unfold puts
  dsimp only
  rw [hlen, if_pos (by omega), hstr]

/-- Two arrays are the same where their texts are. -/
theorem sameLine_iff (h : Padded finshCmdSize m w) (h' : Padded finshCmdSize m' v) :
    sameLine m m' = true ↔ w = v := by
  unfold sameLine
  rw [List.all_eq_true]
  have hw := h.short
  have hv := h'.short
  constructor
  · intro hsame
    have heq : ∀ i, i < finshCmdSize → m i = m' i := fun i hi =>
      eq_of_beq (hsame i (List.mem_range.2 hi))
    have hlen : w.length = v.length := by
      rcases Nat.lt_trichotomy w.length v.length with hlt | heq' | hgt
      · have h0 := heq _ hw
        rw [h.zeros _ (le_refl _) hw, h'.get hlt] at h0
        exact absurd h0.symm (h'.noNul _ (List.getElem_mem hlt))
      · exact heq'
      · have h0 := heq _ hv
        rw [h'.zeros _ (le_refl _) hv, h.get hgt] at h0
        exact absurd h0 (h.noNul _ (List.getElem_mem hgt))
    refine List.ext_getElem hlen fun i hi hi' => ?_
    rw [← h.get hi, ← h'.get hi']
    exact heq i (by omega)
  · rintro rfl i hi
    rw [List.mem_range] at hi
    refine beq_iff_eq.2 ?_
    by_cases hlt : i < w.length
    · rw [h.get hlt, h'.get hlt]
    · rw [h.zeros i (by omega) hi, h'.zeros i (by omega) hi]

/-! ## The history and the line -/

theorem padded_historyRow (h : Padded (finshCmdSize + 1) m w) :
    Padded finshCmdSize (historyRow m w.length) w where
  text := h.text.congr fun i _ hi => if_pos (by omega)
  zeros i hi _ := if_neg (by omega)
  noNul := h.noNul
  short := h.short

/-- A row of the history, copied to the line. -/
theorem padded_copyHistory (h : Padded finshCmdSize m w) (hline : line finshCmdSize = 0) :
    Padded (finshCmdSize + 1) (fun i => if i < finshCmdSize then m i else line i) w where
  text := h.text.congr fun i _ hi => if_pos (by have := h.short; omega)
  zeros i hi hlt := by
    by_cases hi' : i < finshCmdSize
    · rw [if_pos hi']
      exact h.zeros i hi hi'
    · rw [if_neg hi', show i = finshCmdSize by omega, hline]
  noNul := h.noNul
  short := h.short

theorem Padded.last (h : Padded (finshCmdSize + 1) m w) : m finshCmdSize = 0 :=
  h.zeros _ (Nat.le_of_lt h.short) (Nat.lt_succ_self _)

/-! ## Editing -/

/-- **A character put in.** -/
theorem Padded.insert (h : Padded (finshCmdSize + 1) m (u ++ v))
    (hlen : (u ++ v).length + 1 < finshCmdSize) (hc : c ≠ 0) :
    Padded (finshCmdSize + 1)
      (Function.update (m.memmove (u.length + 1) u.length v.length) u.length c)
      (u ++ [c] ++ v) := by
  obtain ⟨hu, hv⟩ := Mem.at_append.1 h.text
  rw [Nat.zero_add] at hv
  rw [List.length_append] at hlen
  refine ⟨?_, ?_, ?_, ?_⟩
  · refine Mem.at_append.2 ⟨Mem.at_append.2 ⟨?_, ?_⟩, ?_⟩
    · exact (hu.congr fun i _ hi => Mem.memmove_of_lt (by omega)).update (Or.inr (by omega)) c
    · rw [Nat.zero_add]
      exact Mem.at_update_self
    · rw [List.length_append, List.length_singleton, Nat.zero_add]
      exact (hv.memmove _).update (Or.inl (Nat.lt_succ_self _)) c
  · intro i hi hlt
    rw [List.length_append, List.length_append, List.length_singleton] at hi
    rw [Function.update_of_ne (by omega), Mem.memmove_of_ge (by omega)]
    exact h.zeros i (by rw [List.length_append]; omega) hlt
  · intro d hd
    rw [List.append_assoc, List.mem_append, List.mem_append, List.mem_singleton] at hd
    rcases hd with hd | rfl | hd
    · exact h.noNul d (List.mem_append_left _ hd)
    · exact hc
    · exact h.noNul d (List.mem_append_right _ hd)
  · rw [List.length_append, List.length_append, List.length_singleton]
    omega

/-- **A character taken out.** -/
theorem Padded.erase (h : Padded (finshCmdSize + 1) m (u ++ [c] ++ v)) :
    Padded (finshCmdSize + 1)
      (Function.update (m.memmove u.length (u.length + 1) v.length) (u.length + v.length) 0)
      (u ++ v) := by
  have hshort := h.short
  obtain ⟨huc, hv⟩ := Mem.at_append.1 h.text
  obtain ⟨hu, -⟩ := Mem.at_append.1 huc
  simp only [List.length_append, List.length_singleton, Nat.zero_add] at hv hshort
  refine ⟨?_, ?_, ?_, ?_⟩
  · refine Mem.at_append.2 ⟨?_, ?_⟩
    · exact (hu.congr fun i _ hi => Mem.memmove_of_lt (by omega)).update (Or.inr (by omega)) 0
    · rw [Nat.zero_add]
      exact (hv.memmove _).update (Or.inr (by omega)) 0
  · intro i hi hlt
    rw [List.length_append] at hi
    by_cases hend : i = u.length + v.length
    · rw [hend, Function.update_self]
    · rw [Function.update_of_ne hend, Mem.memmove_of_ge (by omega)]
      exact h.zeros i (by simp only [List.length_append, List.length_singleton]; omega) hlt
  · intro d hd
    refine h.noNul d ?_
    rw [List.append_assoc, List.mem_append, List.mem_append]
    rcases List.mem_append.1 hd with hd | hd
    · exact Or.inl hd
    · exact Or.inr (Or.inr hd)
  · rw [List.length_append]
    omega

end Shell

end RtSpark
