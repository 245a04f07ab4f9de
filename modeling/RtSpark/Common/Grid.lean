import Mathlib.Data.Nat.Notation
import Mathlib.Data.List.Basic
/-!
# Items laid out in rows

Items go into the rows of a grid, one after the other: a break ends the
row it stands in, a box takes some columns of one row, goes to the next
row where the columns left are too few for it, and ends a row it fills.
A page of `M` rows holds the items as long as each has its seat in one of
them (`Fits`), and what blocks one item blocks everything behind it
(`Fits.length_le`).
-/

namespace RtSpark

namespace Grid

/-- What is laid out. -/
inductive Item where
  | brk
  | box (width : ℕ)
deriving DecidableEq

structure Cell where
  row : ℕ
  col : ℕ
deriving DecidableEq

namespace Cell

def origin : Cell := ⟨0, 0⟩

/-- The start of the next row. -/
def down (c : Cell) : Cell := ⟨c.row + 1, 0⟩

/-- Where the item is put. -/
def seat (L : ℕ) (c : Cell) : Item → Cell
  | .brk => c
  | .box w => if L < c.col + w then c.down else c

/-- The free cell behind an item that is put at `c`. -/
def past (L : ℕ) (c : Cell) : Item → Cell
  | .brk => c.down
  | .box w => if c.col + w = L then c.down else ⟨c.row, c.col + w⟩

/-- The free cell once the item is put. -/
def after (L : ℕ) (c : Cell) (i : Item) : Cell := (c.seat L i).past L i

/-- The free cell once all of them are. -/
def afterAll (L : ℕ) (c : Cell) (is : List Item) : Cell := is.foldl (after L) c

end Cell

/-- Every item has its seat in one of the first `M` rows. -/
def Fits (M L : ℕ) : Cell → List Item → Prop
  | _, [] => True
  | c, i :: is => (c.seat L i).row < M ∧ Fits M L (c.after L i) is

instance decidableFits (M L : ℕ) : (c : Cell) → (is : List Item) → Decidable (Fits M L c is)
  | _, [] => isTrue trivial
  | c, i :: is =>
    have := decidableFits M L (c.after L i) is
    inferInstanceAs (Decidable (_ ∧ _))

variable {M L w : ℕ} {c : Cell} {i : Item} {is js : List Item}

/-! ## Seats -/

@[simp] theorem seat_brk : c.seat L .brk = c := rfl

theorem seat_box_of_le (h : c.col + w ≤ L) : c.seat L (.box w) = c :=
  if_neg (Nat.not_lt.2 h)

theorem seat_box_of_lt (h : L < c.col + w) : c.seat L (.box w) = c.down := if_pos h

/-- An item is never put above the free cell. -/
theorem row_le_seat (c : Cell) (i : Item) : c.row ≤ (c.seat L i).row := by
  cases i with
  | brk => exact Nat.le_refl _
  | box w =>
    unfold Cell.seat
    simp only
    split
    · exact Nat.le_succ _
    · exact Nat.le_refl _

/-- A box no wider than a row has its seat at the seat it was given. -/
theorem seat_seat_box (hw : w ≤ L) : (c.seat L (.box w)).seat L (.box w) = c.seat L (.box w) := by
  rcases Nat.lt_or_ge L (c.col + w) with h | h
  · rw [seat_box_of_lt h]
    exact seat_box_of_le (by simp only [Cell.down]; omega)
  · rw [seat_box_of_le h]
    exact seat_box_of_le h

/-! ## Several items -/

theorem afterAll_append : c.afterAll L (is ++ js) = (c.afterAll L is).afterAll L js :=
  List.foldl_append

theorem afterAll_concat : c.afterAll L (is ++ [i]) = (c.afterAll L is).after L i := by
  rw [afterAll_append]
  rfl

/-- A free cell is in its row. -/
theorem col_after_lt (hL : 0 < L) (hi : ∀ w, i = .box w → w ≤ L) : (c.after L i).col < L := by
  cases i with
  | brk => exact hL
  | box w =>
    have hw := hi w rfl
    have hseat : (c.seat L (.box w)).col + w ≤ L := by
      rcases Nat.lt_or_ge L (c.col + w) with h | h
      · rw [seat_box_of_lt h]
        show 0 + w ≤ L
        omega
      · rw [seat_box_of_le h]
        exact h
    unfold Cell.after Cell.past
    simp only
    split
    · exact hL
    · show (c.seat L (.box w)).col + w < L
      omega

/-- Items fit when the first ones do and the others do behind them. -/
theorem fits_append : Fits M L c (is ++ js) ↔ Fits M L c is ∧ Fits M L (c.afterAll L is) js := by
  induction is generalizing c with
  | nil => exact ⟨fun h => ⟨trivial, h⟩, fun h => h.2⟩
  | cons i is ih =>
    rw [List.cons_append, Fits, Fits, ih, and_assoc]
    rfl

theorem fits_concat :
    Fits M L c (is ++ [i]) ↔ Fits M L c is ∧ ((c.afterAll L is).seat L i).row < M := by
  rw [fits_append]
  exact and_congr_right fun _ => ⟨fun h => h.1, fun h => ⟨h, trivial⟩⟩

theorem Fits.take (h : Fits M L c is) (k : ℕ) : Fits M L c (is.take k) := by
  rw [← List.take_append_drop k is, fits_append] at h
  exact h.1

/-- Some prefix goes as far as the page does. -/
theorem exists_longest (M L : ℕ) (c : Cell) (is : List Item) : ∃ k ≤ is.length,
    Fits M L c (is.take k) ∧
      ∀ i, (is.drop k).head? = some i → M ≤ ((c.afterAll L (is.take k)).seat L i).row := by
  induction is generalizing c with
  | nil => exact ⟨0, Nat.le_refl _, trivial, fun i hi => by cases hi⟩
  | cons i is ih =>
    by_cases hseat : (c.seat L i).row < M
    · obtain ⟨k, hk, hfits, hblock⟩ := ih (c.after L i)
      exact ⟨k + 1, Nat.succ_le_succ hk, ⟨hseat, hfits⟩, hblock⟩
    · refine ⟨0, Nat.zero_le _, trivial, fun j hj => ?_⟩
      obtain rfl : i = j := Option.some.inj hj
      exact Nat.not_lt.1 hseat

/-- **What blocks one item blocks all behind it**: no longer prefix fits
than the one that ends before an item whose seat is below the page. -/
theorem Fits.length_le {k : ℕ}
    (hblock : ∀ i, js.head? = some i → M ≤ ((c.afterAll L is).seat L i).row)
    (hfits : Fits M L c ((is ++ js).take k)) : ((is ++ js).take k).length ≤ is.length := by
  cases js with
  | nil =>
    rw [List.append_nil]
    exact List.length_take_le' k is
  | cons i js =>
    by_contra hlt
    rw [List.length_take] at hlt
    have hlong : is.length < k := by omega
    -- the prefix goes on at least to the item that is blocked
    have htake : (is ++ i :: js).take (is.length + 1) = is ++ [i] := by
      rw [List.take_append, List.take_of_length_le (Nat.le_succ _), Nat.add_sub_cancel_left]
      rfl
    have hsub := hfits.take (is.length + 1)
    rw [List.take_take, Nat.min_eq_left hlong, htake, fits_concat] at hsub
    have hbelow := hblock i rfl
    omega

end Grid

end RtSpark
