import RtSpark.Lcd.Line
import Mathlib.Data.List.Range
import Mathlib.Data.Finset.Card
import Mathlib.Data.Rat.Cast.Order
import Mathlib.Algebra.Order.Field.Basic
import Mathlib.Tactic.FieldSimp
import Mathlib.Tactic.NormNum
/-!
# The path of a line

The error of an axis is what its increments come to beyond the moves made,
and it is never zero once a pass was made, so the moves after `t` passes
are `axisMoves`: the increments divided by the distance, rounded up, less
one. With the points in closed form (`linePoints_eq_map`) the line is read
off them: the first pass moves no axis, the last point is the end, the
longer axis moves at every pass between, and the shorter one is never a
pixel away from the ideal line.
-/

namespace RtSpark

namespace Lcd

variable {δ dist t : ℕ} {x1 y1 x2 y2 : ℕ}

/-! ## The moves of an axis -/

/-- How often an axis of length `δ` was moved after `t` passes. -/
def axisMoves (δ dist t : ℕ) : ℕ := (t * δ - 1) / dist

@[simp] theorem axisMoves_zero : axisMoves δ dist 0 = 0 := by
  simp [axisMoves]

@[simp] theorem axisMoves_still : axisMoves 0 dist t = 0 := by
  simp [axisMoves]

/-- **The closed form of the accumulator.** -/
theorem axisInv_moves {err moved : ℤ} (hδ : δ ≤ dist) (h : AxisInv δ dist t err moved) :
    moved = axisMoves δ dist t := by
  obtain ⟨haccount, hmoved, ⟨herr, herr'⟩, hbegun, hstill⟩ := h
  rcases Nat.eq_zero_or_pos δ with rfl | hpos
  · rw [axisMoves_still]
    exact (hstill rfl).2
  have hdist : 0 < dist := Nat.lt_of_lt_of_le hpos hδ
  obtain ⟨m, rfl⟩ := Int.eq_ofNat_of_zero_le hmoved
  rcases Nat.eq_zero_or_pos t with rfl | ht
  · -- nothing was added yet, so nothing was moved
    have hprod : 0 ≤ (m : ℤ) * dist := Int.mul_nonneg hmoved (Int.natCast_nonneg _)
    have hzero : (m : ℤ) * dist = 0 := by
      simp only [Nat.cast_zero, Int.zero_mul] at haccount
      omega
    rcases Int.mul_eq_zero.1 hzero with hm | hd
    · rw [hm, axisMoves_zero]
      rfl
    · omega
  · have hbegun' := hbegun (by omega) ht
    obtain ⟨e, rfl⟩ := Int.eq_ofNat_of_zero_le herr
    have hsum : e + m * dist = t * δ := by exact_mod_cast haccount
    have hsplit : t * δ - 1 = (e - 1) + dist * m := by
      rw [Nat.mul_comm dist m]
      omega
    have hlt : e - 1 < dist := by omega
    have heq : axisMoves δ dist t = m := by
      rw [axisMoves, hsplit, Nat.add_mul_div_left _ _ hdist, Nat.div_eq_of_lt hlt, Nat.zero_add]
    rw [heq]

/-- A pass moves an axis by one or leaves it. -/
theorem axisMoves_succ (hδ : δ ≤ dist) (t : ℕ) :
    axisMoves δ dist (t + 1) = axisMoves δ dist t ∨
      axisMoves δ dist (t + 1) = axisMoves δ dist t + 1 := by
  rcases Nat.eq_zero_or_pos dist with rfl | hdist
  · exact Or.inl (by simp [axisMoves])
  have hexpand : (t + 1) * δ = t * δ + δ := by ring
  have hmono : axisMoves δ dist t ≤ axisMoves δ dist (t + 1) :=
    Nat.div_le_div_right (by omega)
  have hle : axisMoves δ dist (t + 1) ≤ axisMoves δ dist t + 1 := by
    rw [axisMoves, axisMoves, ← Nat.add_div_right _ hdist]
    exact Nat.div_le_div_right (by omega)
  omega

/-- The first pass moves nothing. -/
theorem axisMoves_one (hδ : δ ≤ dist) : axisMoves δ dist 1 = 0 := by
  rcases Nat.eq_zero_or_pos dist with rfl | hdist
  · simp [axisMoves]
  · exact Nat.div_eq_of_lt (by omega)

/-- Where the last point is drawn the axis was moved its length. -/
theorem axisMoves_last (hδ : δ ≤ dist) : axisMoves δ dist (dist + 1) = δ := by
  rcases Nat.eq_zero_or_pos δ with rfl | hpos
  · exact axisMoves_still
  have hsplit : (dist + 1) * δ - 1 = (δ - 1) + dist * δ := by
    have hexpand : (dist + 1) * δ = dist * δ + δ := by ring
    omega
  rw [axisMoves, hsplit, Nat.add_mul_div_left _ _ (by omega), Nat.div_eq_of_lt (by omega),
    Nat.zero_add]

/-- The longer axis moves at every pass but the first. -/
theorem axisMoves_major (ht : t ≤ dist + 1) : axisMoves dist dist t = t - 1 := by
  rcases Nat.eq_zero_or_pos t with rfl | hpos
  · simp
  rcases Nat.eq_zero_or_pos dist with rfl | hdist
  · rw [axisMoves_still]
    omega
  · have hsplit : t * dist - 1 = (dist - 1) + dist * (t - 1) := by
      obtain ⟨k, rfl⟩ := Nat.exists_eq_succ_of_ne_zero hpos.ne'
      have hexpand : (k + 1) * dist = dist * k + dist := by ring
      rw [Nat.succ_eq_add_one, Nat.add_sub_cancel]
      omega
    rw [axisMoves, hsplit, Nat.add_mul_div_left _ _ hdist, Nat.div_eq_of_lt (by omega),
      Nat.zero_add]

/-- **The moves are never a whole pass away from the proportional ones**:
after `t` passes the longer axis has moved `t - 1` times. -/
theorem axisMoves_near (hδ : δ ≤ dist) (ht : 0 < t) (hdist : 0 < dist) :
    |(axisMoves δ dist t : ℤ) * dist - (t - 1 : ℕ) * δ| < dist := by
  rcases Nat.eq_zero_or_pos δ with rfl | hpos
  · simpa using hdist
  obtain ⟨k, rfl⟩ := Nat.exists_eq_succ_of_ne_zero ht.ne'
  rw [Nat.succ_eq_add_one, Nat.add_sub_cancel]
  have hdiv := Nat.div_add_mod ((k + 1) * δ - 1) dist
  have hmod := Nat.mod_lt ((k + 1) * δ - 1) hdist
  have hexpand : (k + 1) * δ = k * δ + δ := by ring
  have hmul : axisMoves δ dist (k + 1) * dist = dist * (((k + 1) * δ - 1) / dist) :=
    Nat.mul_comm _ _
  have hcast : (axisMoves δ dist (k + 1) : ℤ) * dist - (k : ℕ) * δ =
      ((axisMoves δ dist (k + 1) * dist : ℕ) : ℤ) - ((k * δ : ℕ) : ℤ) := by
    push_cast
    ring
  rw [hcast, abs_lt]
  omega

/-! ## Where an axis stands -/

/-- The coordinate after `t` passes of an axis from `a` to `b`. -/
def axisAt (a b dist t : ℕ) : ℤ :=
  a + ((b : ℤ) - a).sign * axisMoves ((b : ℤ) - a).natAbs dist t

section Axis

variable {a b : ℕ}

theorem axisAt_zero : axisAt a b dist 0 = a := by
  simp [axisAt]

theorem axisAt_one (hδ : ((b : ℤ) - a).natAbs ≤ dist) : axisAt a b dist 1 = a := by
  simp [axisAt, axisMoves_one hδ]

theorem axisAt_last (hδ : ((b : ℤ) - a).natAbs ≤ dist) : axisAt a b dist (dist + 1) = b := by
  rw [axisAt, axisMoves_last hδ, Int.sign_mul_natAbs]
  omega

/-- A pass leaves the coordinate, or moves it towards the end. -/
theorem axisAt_succ (hδ : ((b : ℤ) - a).natAbs ≤ dist) (ht : t < dist + 1) :
    axisAt a b dist (t + 1) = axisAt a b dist t ∨
      axisAt a b dist (t + 1) = axisAt a b dist t + (b - axisAt a b dist t).sign := by
  rcases axisMoves_succ hδ t with heq | heq
  · left
    rw [axisAt, axisAt, heq]
  · right
    -- the moves grow up to the axis's length, so here they fall short of it
    have hle : axisMoves ((b : ℤ) - a).natAbs dist (t + 1) ≤ ((b : ℤ) - a).natAbs := by
      calc axisMoves ((b : ℤ) - a).natAbs dist (t + 1)
          ≤ axisMoves ((b : ℤ) - a).natAbs dist (dist + 1) :=
            Nat.div_le_div_right (Nat.sub_le_sub_right (Nat.mul_le_mul_right _ (by omega)) 1)
        _ = ((b : ℤ) - a).natAbs := axisMoves_last hδ
    have hstep : axisAt a b dist (t + 1) = axisAt a b dist t + ((b : ℤ) - a).sign := by
      rw [axisAt, axisAt, heq]
      push_cast
      ring
    have hsign : (b - axisAt a b dist t).sign = ((b : ℤ) - a).sign := by
      rw [heq] at hle
      unfold axisAt
      rcases lt_trichotomy ((b : ℤ) - a) 0 with hneg | hzero | hpos
      · rw [Int.sign_eq_neg_one_of_neg hneg]
        exact Int.sign_eq_neg_one_of_neg (by omega)
      · omega
      · rw [Int.sign_eq_one_of_pos hpos]
        exact Int.sign_eq_one_of_pos (by omega)
    rw [hstep, hsign]

/-- An axis as long as the distance is somewhere else at every pass. -/
theorem axisAt_inj {t u : ℕ} (hδ : ((b : ℤ) - a).natAbs = dist) (ht : t < dist + 1)
    (hu : u < dist + 1) (h : axisAt a b dist (t + 1) = axisAt a b dist (u + 1)) : t = u := by
  rw [axisAt, axisAt, hδ, axisMoves_major (by omega), axisMoves_major (by omega),
    Nat.add_sub_cancel, Nat.add_sub_cancel] at h
  rcases lt_trichotomy ((b : ℤ) - a) 0 with hneg | hzero | hpos
  · rw [Int.sign_eq_neg_one_of_neg hneg] at h
    omega
  · omega
  · rw [Int.sign_eq_one_of_pos hpos] at h
    omega

end Axis

/-! ## The points -/

/-- The point the pass number `t` draws. -/
def linePoint (x1 y1 x2 y2 t : ℕ) : ℤ × ℤ :=
  (axisAt x1 x2 (lineDistance x1 y1 x2 y2) t, axisAt y1 y2 (lineDistance x1 y1 x2 y2) t)

theorem row_le_distance : ((x2 : ℤ) - x1).natAbs ≤ lineDistance x1 y1 x2 y2 := Nat.le_max_left _ _

theorem col_le_distance : ((y2 : ℤ) - y1).natAbs ≤ lineDistance x1 y1 x2 y2 := Nat.le_max_right _ _

/-- **The points in closed form.** -/
theorem linePoints_eq_map (hdist : lineDistance x1 y1 x2 y2 ≤ 65533) :
    linePoints x1 y1 x2 y2 =
      (List.range (lineDistance x1 y1 x2 y2 + 2)).map (linePoint x1 y1 x2 y2) := by
  rw [linePoints_eq]
  have hexit := line_exits hdist
  generalize Loop.run (lineStep x1 y1 x2 y2) (lineDistance x1 y1 x2 y2 + 3)
    ⟨0, 0, 0, x1, y1, []⟩ = last at hexit
  obtain ⟨hinv, hpoints⟩ := hexit.1.invariant
    (I := fun s => LineInv x1 y1 x2 y2 s ∧
      s.points = (List.range s.t).map (linePoint x1 y1 x2 y2)) ⟨lineInv_init, rfl⟩ (by
      rintro s s' ⟨hinv, hpoints⟩ hpass
      obtain ⟨hinv', ht, hpoints'⟩ := lineInv_step hdist hinv hpass
      refine ⟨hinv', ?_⟩
      obtain ⟨mx, hmx, hux⟩ := hinv.row
      obtain ⟨my, hmy, huy⟩ := hinv.col
      have hhead : (s.uRow, s.uCol) = linePoint x1 y1 x2 y2 s.t := by
        rw [hux, huy, axisInv_moves row_le_distance hmx, axisInv_moves col_le_distance hmy]
        rfl
      rw [hpoints', hpoints, hhead, ht, List.range_succ, List.map_append, List.map_singleton])
  -- the guard fails at the first head past the distance
  have ht : last.t = lineDistance x1 y1 x2 y2 + 2 := by
    have hcount := hinv.count
    have hstop : ¬ (last.t : ℤ) ≤ lineDistance x1 y1 x2 y2 + 1 := by
      intro hguard
      have hlast := hexit.2
      unfold lineStep linePass at hlast
      rw [if_pos hguard] at hlast
      cases hlast
    omega
  rw [hpoints, ht]

/-- The next point is the same, or a neighbour in the direction of the
end `(x2, y2)`. -/
def Towards (x2 y2 : ℕ) (p q : ℤ × ℤ) : Prop :=
  (q.1 = p.1 ∨ q.1 = p.1 + (x2 - p.1).sign) ∧ (q.2 = p.2 ∨ q.2 = p.2 + (y2 - p.2).sign)

theorem linePoint_towards (ht : t < lineDistance x1 y1 x2 y2 + 1) :
    Towards x2 y2 (linePoint x1 y1 x2 y2 t) (linePoint x1 y1 x2 y2 (t + 1)) :=
  ⟨axisAt_succ row_le_distance ht, axisAt_succ col_le_distance ht⟩

/-- **The points from the second on are distinct.** -/
theorem linePoint_inj {t u : ℕ} (ht : t < lineDistance x1 y1 x2 y2 + 1)
    (hu : u < lineDistance x1 y1 x2 y2 + 1)
    (h : linePoint x1 y1 x2 y2 (t + 1) = linePoint x1 y1 x2 y2 (u + 1)) : t = u := by
  obtain ⟨hrow, hcol⟩ := Prod.mk.inj h
  -- one of the axes is as long as the distance
  rcases Nat.le_total ((y2 : ℤ) - y1).natAbs ((x2 : ℤ) - x1).natAbs with hle | hle
  · exact axisAt_inj (Nat.max_eq_left hle).symm ht hu hrow
  · exact axisAt_inj (Nat.max_eq_right hle).symm ht hu hcol

/-- The first point is drawn twice, every other one once. -/
theorem card_linePoints (hdist : lineDistance x1 y1 x2 y2 ≤ 65533) :
    (linePoints x1 y1 x2 y2).toFinset.card = lineDistance x1 y1 x2 y2 + 1 := by
  have htwice : linePoint x1 y1 x2 y2 0 = linePoint x1 y1 x2 y2 1 := by
    rw [linePoint, linePoint, axisAt_zero, axisAt_zero, axisAt_one row_le_distance,
      axisAt_one col_le_distance]
  have himage : (linePoints x1 y1 x2 y2).toFinset =
      (Finset.range (lineDistance x1 y1 x2 y2 + 1)).image
        fun t => linePoint x1 y1 x2 y2 (t + 1) := by
    rw [linePoints_eq_map hdist]
    ext q
    simp only [List.mem_toFinset, List.mem_map, List.mem_range, Finset.mem_image,
      Finset.mem_range]
    constructor
    · rintro ⟨t, ht, rfl⟩
      cases t with
      | zero => exact ⟨0, Nat.succ_pos _, htwice.symm⟩
      | succ t => exact ⟨t, by omega, rfl⟩
    · rintro ⟨t, ht, rfl⟩
      exact ⟨t + 1, by omega, rfl⟩
  rw [himage, Finset.card_image_of_injOn, Finset.card_range]
  intro t ht u hu h
  exact linePoint_inj (Finset.mem_range.1 ht) (Finset.mem_range.1 hu) h

/-! ## The ideal line -/

/-- How far the coordinate `v` of a point lies from the line, where the
other coordinate is `u`: the line goes from `(a, c)` to `(b, d)`. -/
def offset (a b c d : ℕ) (u v : ℤ) : ℚ :=
  |(v : ℚ) - (c + (u - a) * (d - c) / (b - a))|

/-- The distance of a point from the ideal line along the axis on which
the line is shorter. -/
def minorDistance (x1 y1 x2 y2 : ℕ) (q : ℤ × ℤ) : ℚ :=
  if ((y2 : ℤ) - y1).natAbs ≤ ((x2 : ℤ) - x1).natAbs then offset x1 x2 y1 y2 q.1 q.2
  else offset y1 y2 x1 x2 q.2 q.1

theorem offset_start {a b c d : ℕ} : offset a b c d a c = 0 := by
  simp [offset]

theorem sub_eq_sign_mul (a b : ℕ) :
    (b : ℚ) - a = (((b : ℤ) - a).sign : ℚ) * (((b : ℤ) - a).natAbs : ℚ) := by
  rw [← Int.cast_natCast ((b : ℤ) - a).natAbs, ← Int.cast_mul, Int.sign_mul_natAbs,
    Int.cast_sub, Int.cast_natCast, Int.cast_natCast]

theorem abs_sign_le_one (a b : ℕ) : |(((b : ℤ) - a).sign : ℚ)| ≤ 1 := by
  rcases lt_trichotomy ((b : ℤ) - a) 0 with hneg | hzero | hgt
  · rw [Int.sign_eq_neg_one_of_neg hneg]
    norm_num
  · rw [hzero]
    norm_num
  · rw [Int.sign_eq_one_of_pos hgt]
    norm_num

/-- How far a point is off: its moves against the proportional ones, over
the distance. -/
theorem offset_axisAt_eq {a b c d : ℕ} (hlong : ((b : ℤ) - a).natAbs = dist) (hdist : 0 < dist)
    (ht : t ≤ dist + 1) :
    offset a b c d (axisAt a b dist t) (axisAt c d dist t) =
      |(((d : ℤ) - c).sign : ℚ)| *
        (|(axisMoves ((d : ℤ) - c).natAbs dist t : ℚ) * dist
          - (t - 1 : ℕ) * ((d : ℤ) - c).natAbs| / dist) := by
  have hrow : axisAt a b dist t = a + ((b : ℤ) - a).sign * (t - 1 : ℕ) := by
    rw [axisAt, hlong, axisMoves_major ht]
  have hrun : (b : ℚ) - a = ((b : ℤ) - a).sign * dist := by
    rw [sub_eq_sign_mul, hlong]
  have hsign : (((b : ℤ) - a).sign : ℚ) ≠ 0 := by
    have hne : (b : ℤ) - a ≠ 0 := by omega
    exact_mod_cast fun h => hne (Int.sign_eq_zero_iff_zero.1 h)
  have hpos' : (0 : ℚ) < dist := by exact_mod_cast hdist
  rw [offset, hrow, axisAt, ← abs_of_pos hpos', ← abs_div, ← abs_mul, abs_of_pos hpos',
    hrun, sub_eq_sign_mul c d]
  congr 1
  push_cast
  field_simp
  ring

/-- Along a line whose longer axis goes from `a` to `b` no point is a
pixel off. -/
theorem offset_axisAt {a b c d : ℕ} (hlong : ((b : ℤ) - a).natAbs = dist)
    (hshort : ((d : ℤ) - c).natAbs ≤ dist) (ht : t ≤ dist + 1) :
    offset a b c d (axisAt a b dist t) (axisAt c d dist t) < 1 := by
  rcases Nat.eq_zero_or_pos t with rfl | hpos
  · rw [axisAt_zero, axisAt_zero, offset_start]
    exact one_pos
  rcases Nat.eq_zero_or_pos dist with rfl | hdist
  · have ht1 : t = 1 := by omega
    rw [ht1, axisAt_one (Nat.le_of_eq hlong), axisAt_one hshort, offset_start]
    exact one_pos
  have hpos' : (0 : ℚ) < dist := by exact_mod_cast hdist
  have hnear : |(axisMoves ((d : ℤ) - c).natAbs dist t : ℚ) * dist
      - (t - 1 : ℕ) * ((d : ℤ) - c).natAbs| < dist := by
    exact_mod_cast axisMoves_near hshort hpos hdist
  rw [offset_axisAt_eq hlong hdist ht]
  calc |(((d : ℤ) - c).sign : ℚ)| * (|(axisMoves ((d : ℤ) - c).natAbs dist t : ℚ) * dist
          - (t - 1 : ℕ) * ((d : ℤ) - c).natAbs| / dist)
      ≤ 1 * (|(axisMoves ((d : ℤ) - c).natAbs dist t : ℚ) * dist
          - (t - 1 : ℕ) * ((d : ℤ) - c).natAbs| / dist) :=
        mul_le_mul_of_nonneg_right (abs_sign_le_one c d) (div_nonneg (abs_nonneg _) hpos'.le)
    _ < 1 := by
        rw [one_mul]
        exact (div_lt_one hpos').2 hnear

theorem linePoint_near (ht : t ≤ lineDistance x1 y1 x2 y2 + 1) :
    minorDistance x1 y1 x2 y2 (linePoint x1 y1 x2 y2 t) < 1 := by
  unfold minorDistance
  split_ifs with hle
  · exact offset_axisAt (Nat.max_eq_left hle).symm col_le_distance ht
  · exact offset_axisAt (Nat.max_eq_right (Nat.le_of_not_le hle)).symm row_le_distance ht

/-! ## The line -/

/-- What a drawn line is: `points` in the order they are drawn lead from
one end to the other. -/
structure Rasterises (x1 y1 x2 y2 : ℕ) (points : List (ℤ × ℤ)) : Prop where
  first : points.head? = some ((x1 : ℤ), (y1 : ℤ))
  last : points.getLast? = some ((x2 : ℤ), (y2 : ℤ))
  connected : points.IsChain (Towards x2 y2)
  distinct : points.toFinset.card = max ((x2 : ℤ) - x1).natAbs ((y2 : ℤ) - y1).natAbs + 1
  inBox : ∀ q ∈ points, Between x1 x2 q.1 ∧ Between y1 y2 q.2
  near : ∀ q ∈ points, minorDistance x1 y1 x2 y2 q < 1

theorem linePoints_rasterises (hdist : lineDistance x1 y1 x2 y2 ≤ 65533) :
    Rasterises x1 y1 x2 y2 (linePoints x1 y1 x2 y2) where
  first := by
    rw [linePoints_eq_map hdist, List.range_succ_eq_map, List.map_cons, List.head?_cons,
      linePoint, axisAt_zero, axisAt_zero]
  last := by
    rw [linePoints_eq_map hdist, List.range_succ, List.map_append, List.map_singleton,
      List.getLast?_concat, linePoint, axisAt_last row_le_distance, axisAt_last col_le_distance]
  connected := by
    rw [linePoints_eq_map hdist, List.isChain_map, List.isChain_range]
    intro t ht
    exact linePoint_towards (by omega)
  distinct := card_linePoints hdist
  inBox := linePoints_between hdist
  near := by
    rw [linePoints_eq_map hdist]
    intro q hq
    obtain ⟨t, ht, rfl⟩ := List.mem_map.1 hq
    exact linePoint_near (by have := List.mem_range.1 ht; omega)

/-- **`LCD_DrawLine` rasterises the line**: its loop ends, and the points
it drew lead from the first end to the second, each next to the one
before, within a pixel of the ideal line. -/
theorem lcdDrawLine_rasterises (dev : LcdDev) (color : Color)
    (hdist : max ((x2 : ℤ) - x1).natAbs ((y2 : ℤ) - y1).natAbs ≤ 65533) :
    ∃ s, Loop.Exits (lineStep x1 y1 x2 y2) ⟨0, 0, 0, x1, y1, []⟩ s ∧
      lcdDrawLine dev color x1 y1 x2 y2 =
        s.points.flatMap (fun q => lcdFastDrawPoint dev color q.1 q.2) ∧
      Rasterises x1 y1 x2 y2 s.points :=
  ⟨_, line_exits hdist, rfl, linePoints_rasterises hdist⟩

/-- A steep line, drawn upwards. -/
theorem lcdDrawLine_rasterises_steep :
    max ((7 : ℕ) - (10 : ℕ) : ℤ).natAbs ((2 : ℕ) - (9 : ℕ) : ℤ).natAbs ≤ 65533 ∧
      ∃ s, Loop.Exits (lineStep 10 9 7 2) ⟨0, 0, 0, 10, 9, []⟩ s ∧
        lcdDrawLine st7789 0xF800 10 9 7 2 =
          s.points.flatMap (fun q => lcdFastDrawPoint st7789 0xF800 q.1 q.2) ∧
        Rasterises 10 9 7 2 s.points :=
  ⟨by decide, lcdDrawLine_rasterises st7789 0xF800 (by decide)⟩

example : linePoints 10 9 7 2 =
    [(10, 9), (10, 9), (10, 8), (9, 7), (9, 6), (8, 5), (8, 4), (8, 3), (7, 2)] := by
  decide

end Lcd

end RtSpark
