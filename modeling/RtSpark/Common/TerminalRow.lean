import Mathlib.Data.List.Induction
import Mathlib.Algebra.Order.Group.Nat
/-!
# A row of a terminal

The cells of a row on both sides of the cursor. A character takes the place
of the one under the cursor and moves it on, and a backspace moves it back
over a cell that stays.
-/

namespace RtSpark

/-- The cells before the cursor, and those from it on. -/
structure TerminalRow (α : Type*) where
  left : List α
  right : List α

namespace TerminalRow

variable {α : Type*} {l r w : List α}

/-- A row with nothing in it. -/
def empty : TerminalRow α := ⟨[], []⟩

/-- A character. -/
def put (t : TerminalRow α) (c : α) : TerminalRow α := ⟨t.left ++ [c], t.right.drop 1⟩

/-- A backspace. -/
def back (t : TerminalRow α) : TerminalRow α :=
  match t.left.getLast? with
  | none => t
  | some c => ⟨t.left.dropLast, c :: t.right⟩

/-- Characters one behind the other. -/
def write (t : TerminalRow α) (w : List α) : TerminalRow α := w.foldl put t

/-- Backspaces. -/
def backs (t : TerminalRow α) : ℕ → TerminalRow α
  | 0 => t
  | n + 1 => (t.back).backs n

@[simp] theorem back_concat (l : List α) (c : α) (r : List α) :
    back ⟨l ++ [c], r⟩ = ⟨l, c :: r⟩ := by
  simp [back]

/-- What is written takes the place of as many cells. -/
theorem write_eq (l r w : List α) : write ⟨l, r⟩ w = ⟨l ++ w, r.drop w.length⟩ := by
  induction w generalizing l r with
  | nil => rw [List.append_nil, List.length_nil, List.drop_zero]; rfl
  | cons c w ih =>
    show write ⟨l ++ [c], r.drop 1⟩ w = _
    rw [ih, List.append_assoc, List.drop_drop, List.length_cons, Nat.add_comm 1]
    rfl

/-- As many backspaces lead back before it. -/
theorem backs_append (l w r : List α) : backs ⟨l ++ w, r⟩ w.length = ⟨l, w ++ r⟩ := by
  induction w using List.reverseRecOn generalizing r with
  | nil => rw [List.append_nil]; rfl
  | append_singleton w c ih =>
    rw [List.length_append, List.length_singleton, backs, ← List.append_assoc, back_concat, ih,
      List.append_assoc]
    rfl

end TerminalRow

end RtSpark
