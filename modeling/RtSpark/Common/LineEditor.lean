import RtSpark.Common.Run
import Mathlib.Data.List.Basic
import Mathlib.Algebra.Order.Group.Nat
/-!
# A line editor with a history

A line over any alphabet, edited at a cursor, and the last `cap` lines that
were entered, which can be called back. A line that is empty, or is the one
entered before it, is not remembered; `history_eq` says what is.
-/

namespace RtSpark

/-- The line on both sides of the cursor, the history from the oldest line
on, where in it the editor stands, and all the lines entered so far. -/
structure Editor (α : Type*) where
  before : List α
  after : List α
  history : List (List α)
  current : ℕ
  entered : List (List α)

namespace Editor

variable {α : Type*} {cap : ℕ} {e : Editor α}

/-- What is pressed; `replace` puts a whole line in place of the one there
is. -/
inductive Key (α : Type*) where
  | char (c : α)
  | rubout
  | left
  | right
  | up
  | down
  | replace (w : List α)
  | enter

/-- Nothing typed yet. -/
def start : Editor α := ⟨[], [], [], 0, []⟩

/-- The line. -/
def text (e : Editor α) : List α := e.before ++ e.after

/-- Another line, with the cursor behind it. -/
def load (e : Editor α) (w : List α) : Editor α := { e with before := w, after := [] }

/-- A line of the history. -/
def revisit (e : Editor α) (i : ℕ) : Editor α :=
  { e with before := e.history.getD i [], after := [], current := i }

/-- The last `cap` of some lines. -/
def lastOf (cap : ℕ) (ws : List (List α)) : List (List α) := ws.drop (ws.length - cap)

theorem lastOf_of_le {ws : List (List α)} (h : ws.length ≤ cap) : lastOf cap ws = ws := by
  unfold lastOf
  rw [Nat.sub_eq_zero_of_le h, List.drop_zero]

theorem length_lastOf_le (ws : List (List α)) : (lastOf cap ws).length ≤ cap := by
  unfold lastOf
  rw [List.length_drop]
  omega

/-- The line entered last is the last of those kept. -/
theorem getLast?_lastOf (hcap : 0 < cap) (ws : List (List α)) :
    (lastOf cap ws).getLast? = ws.getLast? := by
  unfold lastOf
  cases ws with
  | nil => rw [List.drop_nil]
  | cons w ws =>
    rw [List.getLast?_drop, if_neg]
    rw [List.length_cons]
    omega

section

variable [DecidableEq α]

/-- The lines remembered with one more. -/
def remember (ws : List (List α)) (w : List α) : List (List α) :=
  if w = [] ∨ ws.getLast? = some w then ws else ws ++ [w]

/-- The line is entered. -/
def enter (cap : ℕ) (e : Editor α) : Editor α where
  before := []
  after := []
  history := lastOf cap (remember e.history e.text)
  current := (lastOf cap (remember e.history e.text)).length
  entered := e.entered ++ [e.text]

/-- One key. -/
def step (cap : ℕ) (e : Editor α) : Key α → Editor α
  | .char c => { e with before := e.before ++ [c] }
  | .rubout => { e with before := e.before.dropLast }
  | .left =>
    match e.before.getLast? with
    | none => e
    | some c => { e with before := e.before.dropLast, after := c :: e.after }
  | .right =>
    match e.after with
    | [] => e
    | c :: rest => { e with before := e.before ++ [c], after := rest }
  | .up => if 0 < e.current then e.revisit (e.current - 1) else e
  | .down =>
    if e.current + 1 < e.history.length then e.revisit (e.current + 1)
    else if e.history ≠ [] then e.revisit (e.history.length - 1)
    else e
  | .replace w => e.load w
  | .enter => e.enter cap

theorem step_rubout_concat (u v : List α) (c : α) (history : List (List α)) (i : ℕ)
    (entered : List (List α)) :
    step cap ⟨u ++ [c], v, history, i, entered⟩ .rubout = ⟨u, v, history, i, entered⟩ := by
  simp [step]

theorem step_left_concat (u v : List α) (c : α) (history : List (List α)) (i : ℕ)
    (entered : List (List α)) :
    step cap ⟨u ++ [c], v, history, i, entered⟩ .left = ⟨u, c :: v, history, i, entered⟩ := by
  simp [step]

/-- Nothing but the end of a line changes the history. -/
theorem step_history (cap : ℕ) (e : Editor α) {k : Key α} (hk : k ≠ .enter) :
    (step cap e k).history = e.history ∧ (step cap e k).entered = e.entered := by
  cases k with
  | char c => exact ⟨rfl, rfl⟩
  | rubout => exact ⟨rfl, rfl⟩
  | left =>
    rw [step]
    split <;> exact ⟨rfl, rfl⟩
  | right =>
    rw [step]
    split <;> exact ⟨rfl, rfl⟩
  | up =>
    rw [step]
    split <;> exact ⟨rfl, rfl⟩
  | down =>
    rw [step]
    split_ifs <;> exact ⟨rfl, rfl⟩
  | replace w => exact ⟨rfl, rfl⟩
  | enter => exact absurd rfl hk

/-- What is not kept is not missed. -/
theorem lastOf_remember (hcap : 0 < cap) (ws : List (List α)) (w : List α) :
    lastOf cap (remember (lastOf cap ws) w) = lastOf cap (remember ws w) := by
  unfold remember
  rw [getLast?_lastOf hcap]
  split_ifs
  · unfold lastOf
    rw [List.length_drop, List.drop_drop]
    congr 1
    omega
  · unfold lastOf
    simp only [List.length_append, List.length_drop, List.length_singleton]
    by_cases h : ws.length ≤ cap
    · rw [Nat.sub_eq_zero_of_le h, List.drop_zero, Nat.sub_zero]
    · rw [← List.drop_append_of_le_length (by omega), List.drop_drop]
      congr 1
      omega

/-- **The history holds the last lines entered**, without the empty ones and
without repetitions of the line before. -/
theorem history_eq (hcap : 0 < cap) (ks : List (Key α)) :
    (Run.stateAfter (step cap) start ks).history =
      lastOf cap ((Run.stateAfter (step cap) start ks).entered.foldl remember []) := by
  refine Run.invariant (I := fun e : Editor α => e.history =
    lastOf cap (e.entered.foldl remember [])) (List.drop_nil).symm
    fun e k _ ih => ?_
  by_cases hk : k = .enter
  · subst hk
    show lastOf cap (remember e.history e.text) =
      lastOf cap ((e.entered ++ [e.text]).foldl remember [])
    rw [List.foldl_append, ih, lastOf_remember hcap]
    rfl
  · obtain ⟨hhistory, hentered⟩ := step_history cap e hk
    rw [hhistory, hentered, ih]

end

end Editor

end RtSpark
