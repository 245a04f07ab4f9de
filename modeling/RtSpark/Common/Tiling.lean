import Mathlib.Data.Nat.Notation
import Mathlib.Tactic.ByContra
/-!
# Tilings of a range

Transfers and flash programs cut a range of bytes into pieces. A piece is
given by its start and its length; `Tiles` says that a list of them covers
a range, each piece beginning where the one before it ended. What a loop
does piece by piece is read off at the last piece (`tiles_concat_iff`),
and pieces given by a formula at the borders it should have
(`tiles_range_iff`).
-/

namespace RtSpark

namespace Tiling

variable {lo hi a n : ℕ} {pieces : List (ℕ × ℕ)}

/-- The pieces cover `[lo, hi)` in increasing order, without a gap and
without an overlap, and none is empty. -/
def Tiles : ℕ → ℕ → List (ℕ × ℕ) → Prop
  | lo, hi, [] => lo = hi
  | lo, hi, (a, n) :: rest => a = lo ∧ 0 < n ∧ Tiles (lo + n) hi rest

theorem Tiles.nil : Tiles lo lo [] := rfl

/-- The last piece ends the range, the others cover what lies before it. -/
theorem tiles_concat_iff :
    Tiles lo hi (pieces ++ [(a, n)]) ↔ Tiles lo a pieces ∧ 0 < n ∧ a + n = hi := by
  induction pieces generalizing lo with
  | nil =>
    constructor
    · rintro ⟨rfl, hpos, hend⟩
      exact ⟨rfl, hpos, hend⟩
    · rintro ⟨rfl, hpos, hend⟩
      exact ⟨rfl, hpos, hend⟩
  | cons piece rest ih =>
    obtain ⟨b, m⟩ := piece
    rw [List.cons_append]
    constructor
    · rintro ⟨hstart, hpos, hrest⟩
      obtain ⟨hbefore, hlast⟩ := ih.1 hrest
      exact ⟨⟨hstart, hpos, hbefore⟩, hlast⟩
    · rintro ⟨⟨hstart, hpos, hbefore⟩, hlast⟩
      exact ⟨hstart, hpos, ih.2 ⟨hbefore, hlast⟩⟩

theorem Tiles.concat (h : Tiles lo a pieces) (hn : 0 < n) :
    Tiles lo (a + n) (pieces ++ [(a, n)]) :=
  tiles_concat_iff.2 ⟨h, hn, rfl⟩

theorem Tiles.le (h : Tiles lo hi pieces) : lo ≤ hi := by
  induction pieces generalizing lo with
  | nil => exact Nat.le_of_eq h
  | cons piece rest ih =>
    obtain ⟨-, -, hrest⟩ := h
    have := ih hrest
    omega

/-- No piece leaves the range. -/
theorem Tiles.bounds (h : Tiles lo hi pieces) (hmem : (a, n) ∈ pieces) :
    lo ≤ a ∧ a + n ≤ hi := by
  induction pieces generalizing lo with
  | nil => cases hmem
  | cons piece rest ih =>
    obtain ⟨b, m⟩ := piece
    obtain ⟨hstart, -, hrest⟩ := h
    rcases List.mem_cons.1 hmem with heq | hmem
    · obtain ⟨rfl, rfl⟩ := Prod.mk.inj heq
      have := hrest.le
      omega
    · have := ih hrest hmem
      omega

/-- **Pieces given by a formula** tile the range between the first border
and the last exactly when each starts at its border. -/
theorem tiles_range_iff (border start width : ℕ → ℕ) (k : ℕ)
    (hwidth : ∀ j, j < k → 0 < width j ∧ border j + width j = border (j + 1)) :
    Tiles (border 0) (border k) ((List.range k).map fun j => (start j, width j)) ↔
      ∀ j, j < k → start j = border j := by
  induction k with
  | zero => exact ⟨fun _ j hj => absurd hj (Nat.not_lt_zero j), fun _ => rfl⟩
  | succ k ih =>
    have hlast := hwidth k (Nat.lt_succ_self k)
    have hbefore := ih fun j hj => hwidth j (Nat.lt_succ_of_lt hj)
    rw [List.range_succ, List.map_append, List.map_singleton, tiles_concat_iff]
    constructor
    · rintro ⟨htiles, -, hend⟩
      have hstart : start k = border k := by omega
      rw [hstart] at htiles
      intro j hj
      rcases Nat.lt_succ_iff_lt_or_eq.1 hj with hlt | rfl
      · exact hbefore.1 htiles j hlt
      · exact hstart
    · intro hstart
      have hk := hstart k (Nat.lt_succ_self k)
      rw [hk]
      exact ⟨hbefore.2 fun j hj => hstart j (Nat.lt_succ_of_lt hj), hlast⟩

end Tiling

end RtSpark
