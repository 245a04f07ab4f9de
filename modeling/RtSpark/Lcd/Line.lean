import RtSpark.Lcd.Model.Driver
import Mathlib.Tactic.Linarith
import Mathlib.Tactic.Ring
import Mathlib.Algebra.Order.Group.Unbundled.Int
/-!
# The points of a line

`LCD_DrawLine` keeps an error for each axis and moves along the axis when
the error passes the distance. `AxisInv` is what that keeps: the moves
made account for the increments added. It bounds the moves by the axis's
own length for as long as points are drawn, so every point lies between
the ends.
-/

namespace RtSpark

namespace Lcd

variable {δ dist err moved : ℤ} {t : ℕ}

/-! ## One axis -/

/-- After `t` passes the axis was moved `moved` times, and `err` is what
the increments come to beyond that. -/
structure AxisInv (δ dist : ℤ) (t : ℕ) (err moved : ℤ) : Prop where
  account : err + moved * dist = t * δ
  forward : 0 ≤ moved
  range : 0 ≤ err ∧ err ≤ dist
  begun : 0 < δ → 0 < t → 0 < err
  still : δ = 0 → err = 0 ∧ moved = 0

theorem axisInv_init (hdist : 0 ≤ dist) : AxisInv δ dist 0 0 0 where
  account := by simp
  forward := Int.le_refl 0
  range := ⟨Int.le_refl 0, hdist⟩
  begun := fun _ h => absurd h (Nat.lt_irrefl 0)
  still := fun _ => ⟨rfl, rfl⟩

/-- The error of the next pass, and whether it moves the axis. -/
theorem axisInv_pass (hδ : 0 ≤ δ ∧ δ ≤ dist) (h : AxisInv δ dist t err moved) :
    (dist < err + δ ∧ AxisInv δ dist (t + 1) (err + δ - dist) (moved + 1)) ∨
      (err + δ ≤ dist ∧ AxisInv δ dist (t + 1) (err + δ) moved) := by
  obtain ⟨haccount, hmoved, ⟨herr, herr'⟩, hbegun, hstill⟩ := h
  have hcount : (((t + 1 : ℕ) : ℤ)) * δ = t * δ + δ := by
    push_cast
    ring
  rcases lt_or_ge dist (err + δ) with hlt | hle
  · refine Or.inl ⟨hlt, ⟨?_, by omega, ⟨by omega, by omega⟩, fun _ _ => by omega, ?_⟩⟩
    · rw [hcount, ← haccount]
      ring
    · intro hzero
      obtain ⟨hz, -⟩ := hstill hzero
      omega
  · refine Or.inr ⟨hle, ⟨?_, hmoved, ⟨by omega, hle⟩, fun _ _ => by omega, ?_⟩⟩
    · rw [hcount, ← haccount]
      ring
    · intro hzero
      obtain ⟨hz, hm⟩ := hstill hzero
      exact ⟨by omega, hm⟩

/-- **While points are drawn the axis is moved no further than its own
length.** -/
theorem moved_le (hδ : 0 ≤ δ ∧ δ ≤ dist) (ht : (t : ℤ) ≤ dist + 1)
    (h : AxisInv δ dist t err moved) : moved ≤ δ := by
  rcases Int.lt_or_eq_of_le hδ.1 with hpos | hzero
  · have hdist : 0 < dist := by omega
    -- so many increments come to less than one move more
    have hlt : moved * dist < (δ + 1) * dist := by
      have haccount := h.account
      rcases Nat.eq_zero_or_pos t with hz | ht0
      · have herr := h.range.1
        rw [hz] at haccount
        have hprod : 0 < (δ + 1) * dist := Int.mul_pos (by omega) hdist
        simp only [Nat.cast_zero, Int.zero_mul] at haccount
        omega
      · have hbegun := h.begun hpos ht0
        have hmul : (t : ℤ) * δ ≤ (dist + 1) * δ := Int.mul_le_mul_of_nonneg_right ht hδ.1
        have hexpand : (dist + 1) * δ = δ * dist + δ := by ring
        have hexpand' : (δ + 1) * dist = δ * dist + dist := by ring
        omega
    have := Int.lt_of_mul_lt_mul_right hlt (by omega)
    omega
  · rw [(h.still hzero.symm).2]
    exact hδ.1

/-! ## The loop -/

/-- The coordinate lies between the ends, in either order. -/
def Between (a b : ℕ) (u : ℤ) : Prop := (min a b : ℕ) ≤ u ∧ u ≤ (max a b : ℕ)

/-- The coordinate an axis is at after its moves lies between its ends. -/
theorem between_of_moved {a b : ℕ} (hmoved : 0 ≤ moved)
    (hle : moved ≤ ((b : ℤ) - a).natAbs) : Between a b (a + ((b : ℤ) - a).sign * moved) := by
  unfold Between
  rcases lt_trichotomy ((b : ℤ) - a) 0 with hneg | hzero | hpos
  · rw [Int.sign_eq_neg_one_of_neg hneg]
    omega
  · rw [hzero, Int.sign_zero]
    omega
  · rw [Int.sign_eq_one_of_pos hpos]
    omega

section Loop

variable {x1 y1 x2 y2 : ℕ} {s s' : LineState}

/-- What the line is drawn with. -/
def lineDistance (x1 y1 x2 y2 : ℕ) : ℕ :=
  max ((x2 : ℤ) - x1).natAbs ((y2 : ℤ) - y1).natAbs

/-- The pass of the line from `(x1, y1)` to `(x2, y2)`. -/
def lineStep (x1 y1 x2 y2 : ℕ) : LineState → Option LineState :=
  linePass ((x2 : ℤ) - x1).natAbs ((y2 : ℤ) - y1).natAbs (lineDistance x1 y1 x2 y2)
    ((x2 : ℤ) - x1).sign ((y2 : ℤ) - y1).sign

/-- The head of the loop after `t` passes: both axes keep their account,
and what was drawn lies between the ends. -/
structure LineInv (x1 y1 x2 y2 : ℕ) (s : LineState) : Prop where
  count : s.t ≤ lineDistance x1 y1 x2 y2 + 2
  row : ∃ moved, AxisInv ((x2 : ℤ) - x1).natAbs (lineDistance x1 y1 x2 y2) s.t s.xerr moved ∧
    s.uRow = x1 + ((x2 : ℤ) - x1).sign * moved
  col : ∃ moved, AxisInv ((y2 : ℤ) - y1).natAbs (lineDistance x1 y1 x2 y2) s.t s.yerr moved ∧
    s.uCol = y1 + ((y2 : ℤ) - y1).sign * moved
  drawn : ∀ q ∈ s.points, Between x1 x2 q.1 ∧ Between y1 y2 q.2

/-- An axis of the pass: the new error, and the coordinate it leads to. -/
theorem axis_step {a b : ℕ} {u : ℤ} (hδ : (((b : ℤ) - a).natAbs : ℤ) ≤ dist)
    (h : ∃ moved, AxisInv ((b : ℤ) - a).natAbs dist t err moved ∧
      u = a + ((b : ℤ) - a).sign * moved) :
    ∃ moved, AxisInv ((b : ℤ) - a).natAbs dist (t + 1)
        (if dist < err + ((b : ℤ) - a).natAbs then err + ((b : ℤ) - a).natAbs - dist
          else err + ((b : ℤ) - a).natAbs) moved ∧
      (if dist < err + ((b : ℤ) - a).natAbs then u + ((b : ℤ) - a).sign else u)
        = a + ((b : ℤ) - a).sign * moved := by
  obtain ⟨moved, haxis, hu⟩ := h
  rcases axisInv_pass ⟨Int.natCast_nonneg _, hδ⟩ haxis with ⟨hlt, haxis'⟩ | ⟨hle, haxis'⟩
  · rw [if_pos hlt, if_pos hlt]
    refine ⟨moved + 1, haxis', ?_⟩
    rw [hu]
    ring
  · have hnot : ¬ dist < err + ((b : ℤ) - a).natAbs := by omega
    rw [if_neg hnot, if_neg hnot]
    exact ⟨moved, haxis', hu⟩

theorem lineInv_init : LineInv x1 y1 x2 y2 ⟨0, 0, 0, x1, y1, []⟩ where
  count := Nat.zero_le _
  row := ⟨0, axisInv_init (Int.natCast_nonneg _), by simp⟩
  col := ⟨0, axisInv_init (Int.natCast_nonneg _), by simp⟩
  drawn := fun q hq => absurd hq List.not_mem_nil

/-- **A pass draws a point between the ends** and keeps the accounts. -/
theorem lineInv_step (hdist : lineDistance x1 y1 x2 y2 ≤ 65533) (h : LineInv x1 y1 x2 y2 s)
    (hpass : lineStep x1 y1 x2 y2 s = some s') :
    LineInv x1 y1 x2 y2 s' ∧ s'.t = s.t + 1 ∧ s'.points = s.points ++ [(s.uRow, s.uCol)] := by
  obtain ⟨hcount, hrow, hcol, hdrawn⟩ := h
  unfold lineStep linePass at hpass
  split at hpass
  · rename_i hguard
    have heq := Option.some.inj hpass
    have ht : (s.t + 1) % 2 ^ 16 = s.t + 1 := Nat.mod_eq_of_lt (by omega)
    have hx : (((x2 : ℤ) - x1).natAbs : ℤ) ≤ lineDistance x1 y1 x2 y2 := by
      unfold lineDistance
      omega
    have hy : (((y2 : ℤ) - y1).natAbs : ℤ) ≤ lineDistance x1 y1 x2 y2 := by
      unfold lineDistance
      omega
    have hpoint : Between x1 x2 s.uRow ∧ Between y1 y2 s.uCol := by
      obtain ⟨mx, hmx, hux⟩ := hrow
      obtain ⟨my, hmy, huy⟩ := hcol
      rw [hux, huy]
      exact ⟨between_of_moved hmx.forward (moved_le ⟨Int.natCast_nonneg _, hx⟩ hguard hmx),
        between_of_moved hmy.forward (moved_le ⟨Int.natCast_nonneg _, hy⟩ hguard hmy)⟩
    rw [← heq]
    refine ⟨⟨?_, ?_, ?_, ?_⟩, ht, rfl⟩
    · simp only [ht]
      omega
    · simp only [ht]
      exact axis_step hx hrow
    · simp only [ht]
      exact axis_step hy hcol
    · intro q hq
      rcases List.mem_append.1 hq with hq | hq
      · exact hdrawn q hq
      · rw [List.mem_singleton.1 hq]
        exact hpoint
  · cases hpass

/-- **The loop ends**, as many passes on as `lcdDrawLine` makes. -/
theorem line_exits (hdist : lineDistance x1 y1 x2 y2 ≤ 65533) :
    Loop.Exits (lineStep x1 y1 x2 y2) ⟨0, 0, 0, x1, y1, []⟩
      (Loop.run (lineStep x1 y1 x2 y2) (lineDistance x1 y1 x2 y2 + 3) ⟨0, 0, 0, x1, y1, []⟩) := by
  refine Loop.run_exits (I := LineInv x1 y1 x2 y2)
    (μ := fun s => lineDistance x1 y1 x2 y2 + 2 - s.t) ?_ lineInv_init ?_
  · intro s s' h hpass
    obtain ⟨h', ht, -⟩ := lineInv_step hdist h hpass
    refine ⟨h', ?_⟩
    have hcount := h'.count
    simp only [ht] at hcount ⊢
    omega
  · simp only
    omega

theorem linePoints_eq : linePoints x1 y1 x2 y2 =
    (Loop.run (lineStep x1 y1 x2 y2) (lineDistance x1 y1 x2 y2 + 3)
      ⟨0, 0, 0, x1, y1, []⟩).points := rfl

/-- **Every point of a line lies between its ends.** -/
theorem linePoints_between (hdist : lineDistance x1 y1 x2 y2 ≤ 65533) :
    ∀ q ∈ linePoints x1 y1 x2 y2, Between x1 x2 q.1 ∧ Between y1 y2 q.2 := by
  rw [linePoints_eq]
  exact ((line_exits hdist).1.invariant lineInv_init fun s s' h hpass =>
    (lineInv_step hdist h hpass).1).drawn

/-- A line has a point. -/
theorem linePoints_ne_nil (hdist : lineDistance x1 y1 x2 y2 ≤ 65533) :
    linePoints x1 y1 x2 y2 ≠ [] := by
  rw [linePoints_eq]
  have hexit := line_exits hdist
  generalize Loop.run (lineStep x1 y1 x2 y2) (lineDistance x1 y1 x2 y2 + 3)
    ⟨0, 0, 0, x1, y1, []⟩ = last at hexit
  have hlength : last.points.length = last.t := by
    refine (hexit.1.invariant
      (I := fun s => LineInv x1 y1 x2 y2 s ∧ s.points.length = s.t) ⟨lineInv_init, rfl⟩ ?_).2
    rintro s s' ⟨h, hlen⟩ hpass
    obtain ⟨h', ht, hpoints⟩ := lineInv_step hdist h hpass
    refine ⟨h', ?_⟩
    rw [hpoints, ht, List.length_append, hlen, List.length_singleton]
  intro hnil
  rw [hnil, List.length_nil] at hlength
  -- the guard holds of the first point
  have hguard : (last.t : ℤ) ≤ lineDistance x1 y1 x2 y2 + 1 := by omega
  have hlast := hexit.2
  unfold lineStep linePass at hlast
  rw [if_pos hguard] at hlast
  cases hlast

end Loop

end Lcd

end RtSpark
