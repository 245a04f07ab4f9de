import RtSpark.Common.CString
import Mathlib.Algebra.Order.Group.Nat
import Mathlib.Logic.Function.Basic
/-!
# Text at a pointer

Bytes that stand in memory one behind the other, and strings, which have a
NUL behind them: how they are put together, what leaves them as they are, and
what `memmove` and `strlen` make of them.
-/

namespace RtSpark

namespace Mem

variable {m m' : Mem} {p q i n : ℕ} {c : UInt8} {w v : List UInt8}

/-- The bytes `w` stand from `p` on. -/
def At (m : Mem) : ℕ → List UInt8 → Prop
  | _, [] => True
  | p, c :: w => m p = c ∧ At m (p + 1) w

/-- The string `w` stands at `p`. -/
def StringAt (m : Mem) (p : ℕ) (w : List UInt8) : Prop := At m p w ∧ m (p + w.length) = 0

/-- `memmove` within one buffer: `n` bytes from `src` to `dst`. -/
def memmove (m : Mem) (dst src n : ℕ) : Mem := fun i =>
  if dst ≤ i ∧ i < dst + n then m (src + (i - dst)) else m i

@[simp] theorem at_nil : At m p [] := trivial

@[simp] theorem at_cons : At m p (c :: w) ↔ m p = c ∧ At m (p + 1) w := Iff.rfl

/-- Byte by byte. -/
theorem at_iff : At m p w ↔ ∀ i (hi : i < w.length), m (p + i) = w[i] := by
  induction w generalizing p with
  | nil => exact ⟨fun _ i hi => absurd hi (Nat.not_lt_zero i), fun _ => trivial⟩
  | cons c w ih =>
    rw [at_cons, ih]
    constructor
    · rintro ⟨hc, hw⟩ i hi
      cases i with
      | zero => exact hc
      | succ i =>
        rw [List.length_cons] at hi
        rw [List.getElem_cons_succ, ← hw i (by omega), Nat.add_assoc, Nat.add_comm 1]
    · intro h
      refine ⟨h 0 (Nat.zero_lt_succ _), fun i hi => ?_⟩
      have := h (i + 1) (by rw [List.length_cons]; omega)
      rwa [List.getElem_cons_succ, ← Nat.add_assoc, Nat.add_right_comm] at this

theorem at_append : At m p (w ++ v) ↔ At m p w ∧ At m (p + w.length) v := by
  induction w generalizing p with
  | nil => simp
  | cons c w ih =>
    rw [List.cons_append, at_cons, at_cons, ih, and_assoc, List.length_cons, Nat.add_assoc,
      Nat.add_comm 1]

/-- What stands somewhere is looked up there only. -/
theorem At.congr (h : At m p w) (hm : ∀ i, p ≤ i → i < p + w.length → m' i = m i) :
    At m' p w := by
  rw [at_iff] at h ⊢
  intro i hi
  rw [hm (p + i) (by omega) (by omega)]
  exact h i hi

/-- The same text, from another pointer. -/
theorem at_shift {k : ℕ} : At (fun i => m (k + i)) p w ↔ At m (k + p) w := by
  rw [at_iff, at_iff]
  simp only [Nat.add_assoc]

theorem At.update (h : At m p w) (hi : i < p ∨ p + w.length ≤ i) (c : UInt8) :
    At (Function.update m i c) p w :=
  h.congr fun j hj hj' => Function.update_of_ne (by omega) c m

theorem at_update_self : At (Function.update m p c) p [c] := ⟨Function.update_self p c m, trivial⟩

theorem StringAt.congr (h : StringAt m p w) (hm : ∀ i, p ≤ i → i ≤ p + w.length → m' i = m i) :
    StringAt m' p w :=
  ⟨h.1.congr fun i hi hi' => hm i hi (by omega), by rw [hm _ (by omega) (by omega)]; exact h.2⟩

theorem StringAt.drop (h : StringAt m p (w ++ v)) : StringAt m (p + w.length) v :=
  ⟨(at_append.1 h.1).2, by have := h.2; rwa [List.length_append, ← Nat.add_assoc] at this⟩

/-- What is moved stands where it is moved to. -/
theorem At.memmove (h : At m q w) (p : ℕ) : At (memmove m p q w.length) p w := by
  rw [at_iff] at h ⊢
  intro i hi
  rw [Mem.memmove, if_pos ⟨by omega, by omega⟩, Nat.add_sub_cancel_left]
  exact h i hi

theorem memmove_of_lt (h : i < p) : memmove m p q n i = m i := if_neg (by omega)

theorem memmove_of_ge (h : p + n ≤ i) : memmove m p q n i = m i := if_neg (by omega)

/-- `strlen` of a string. -/
theorem StringAt.strnlen (h : StringAt m 0 w) (hw : ∀ c ∈ w, c ≠ 0) (hn : w.length ≤ n) :
    strnlen m n = w.length := by
  obtain ⟨hat, hnul⟩ := h
  rw [at_iff] at hat
  rw [Nat.zero_add] at hnul
  refine strnlen_eq hn (fun i hi => ?_) (Or.inr hnul)
  have := hat i hi
  rw [Nat.zero_add] at this
  rw [this]
  exact hw _ (List.getElem_mem hi)

end Mem

end RtSpark
