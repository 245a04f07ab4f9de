import Mathlib.Data.Nat.Notation
import Mathlib.Tactic.ByContra
/-!
# Text of single- and double-byte characters

A byte from `0x80` on opens a character of two bytes, any other byte is a
character of its own. Text is complete when it falls into whole
characters: no NUL stands in it where a character starts, and none is the
second byte of one.
-/

namespace RtSpark

namespace DoubleByte

variable {b c : UInt8} {rest text : List UInt8} {i : ℕ}

/-- The text falls into whole characters. -/
def charsComplete : List UInt8 → Bool
  | [] => true
  | [b] => b ≠ 0 && b < 0x80
  | b :: c :: rest =>
    if b < 0x80 then b ≠ 0 && charsComplete (c :: rest) else c ≠ 0 && charsComplete rest

theorem charsComplete_single (h0 : b ≠ 0) (hlt : b < 0x80) :
    charsComplete (b :: rest) = charsComplete rest := by
  cases rest with
  | nil => simp [charsComplete, h0, hlt]
  | cons c rest => simp [charsComplete, h0, hlt]

theorem charsComplete_double (hge : 0x80 ≤ b) (hc : c ≠ 0) :
    charsComplete (b :: c :: rest) = charsComplete rest := by
  simp [charsComplete, UInt8.not_lt.2 hge, hc]

/-- Complete text opens with a whole character. -/
theorem head_of_charsComplete (h : charsComplete (b :: rest) = true) :
    b ≠ 0 ∧ (0x80 ≤ b → ∃ c rest', rest = c :: rest' ∧ c ≠ 0) := by
  cases rest with
  | nil =>
    simp only [charsComplete, Bool.and_eq_true, decide_eq_true_eq] at h
    exact ⟨h.1, fun hge => absurd h.2 (UInt8.not_lt.2 hge)⟩
  | cons c rest =>
    by_cases hlt : b < 0x80
    · simp only [charsComplete, if_pos hlt, Bool.and_eq_true, decide_eq_true_eq] at h
      exact ⟨h.1, fun hge => absurd hlt (UInt8.not_lt.2 hge)⟩
    · simp only [charsComplete, if_neg hlt, Bool.and_eq_true, decide_eq_true_eq] at h
      refine ⟨?_, fun _ => ⟨c, rest, rfl, h.1⟩⟩
      rintro rfl
      exact hlt (by decide)

/-- One character on, the rest is complete when the text is. -/
theorem charsComplete_drop_one (hi : text[i]? = some b) (h0 : b ≠ 0) (hlt : b < 0x80) :
    charsComplete (text.drop (i + 1)) = charsComplete (text.drop i) := by
  obtain ⟨hlen, hb⟩ := List.getElem?_eq_some_iff.1 hi
  rw [List.drop_eq_getElem_cons hlen, hb, charsComplete_single h0 hlt]

theorem charsComplete_drop_two (hi : text[i]? = some b) (hi' : text[i + 1]? = some c)
    (hge : 0x80 ≤ b) (hc : c ≠ 0) :
    charsComplete (text.drop (i + 2)) = charsComplete (text.drop i) := by
  obtain ⟨hlen, hb⟩ := List.getElem?_eq_some_iff.1 hi
  obtain ⟨hlen', hc'⟩ := List.getElem?_eq_some_iff.1 hi'
  rw [List.drop_eq_getElem_cons hlen, hb, List.drop_eq_getElem_cons hlen', hc',
    charsComplete_double hge hc]

end DoubleByte

end RtSpark
