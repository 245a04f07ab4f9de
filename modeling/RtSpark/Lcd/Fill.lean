import RtSpark.Lcd.Bytes
import RtSpark.Lcd.History
/-!
# The two paths of a fill

`lcd_fill` opens the window with both its corners in it. Without memory it
sends a pixel for every cell of that window. With memory it sends buffers
of the colour, and takes their size from the differences of the corners:
a row and a column less. Only where there is no difference does it get no
memory, and sends what the window holds.
-/

namespace RtSpark

namespace Lcd

/-! ## With memory -/

/-- A buffer of the colour. -/
theorem fillBuf_eq (color : Color) (size : ℕ) :
    fillBuf color size =
      (List.replicate (size / 2) color).flatMap fun c => [highByte c, lowByte c] := by
  unfold fillBuf
  generalize size / 2 = n
  induction n with
  | zero => rfl
  | succ n ih =>
    rw [List.range_succ, List.flatMap_append, ih, List.replicate_succ', List.flatMap_append]
    rfl

/-- **The chunks add up**: what a buffer cannot take is sent in others. -/
theorem busBytes_fillLoop (color : Color) (size sizeRemain : ℕ) (hsize : size % 2 = 0)
    (hremain : sizeRemain % 2 = 0) (hfull : sizeRemain = 0 ∨ size = lcdClearSendNumber) :
    busBytes (fillLoop color size sizeRemain) =
      pixelBytes (List.replicate ((size + sizeRemain) / 2) color) := by
  induction size, sizeRemain using fillLoop.induct with
  | case1 size sizeRemain ihMore ihLast =>
    have hsend : lcdClearSendNumber = 5760 := rfl
    rw [fillLoop, busBytes_append, fillBuf_eq, busBytes_dataBuffer]
    split
    · rename_i hnone
      rw [hnone, Nat.add_zero]
      exact List.append_nil _
    · rename_i hsome
      have hsize' : size = lcdClearSendNumber := by omega
      split
      · rename_i hlt
        rw [ihMore hlt hsize (by omega) (Or.inr hsize'), ← pixelBytes_append,
          List.replicate_append_replicate]
        congr 2
        omega
      · rw [ihLast hsome hremain rfl (Or.inl rfl), ← pixelBytes_append,
          List.replicate_append_replicate]
        congr 2
        omega

/-- What `lcd_fill` takes for the bytes of the window. -/
theorem fill_size {xStart yStart xEnd yEnd : ℕ} (hrect : RectOnPanel xStart yStart xEnd yEnd) :
    (((xEnd : ℤ) - xStart) * ((yEnd : ℤ) - yStart) * 2 % 2 ^ 32).toNat =
      (xEnd - xStart) * (yEnd - yStart) * 2 := by
  obtain ⟨⟨hx, hx'⟩, hy, hy'⟩ := hrect
  rw [lcdW_eq] at hx'
  rw [lcdH_eq] at hy'
  have hmul := Nat.mul_le_mul (show xEnd - xStart ≤ 239 by omega)
    (show yEnd - yStart ≤ 239 by omega)
  rw [← Int.ofNat_sub hx, ← Int.ofNat_sub hy]
  norm_cast
  omega

/-- With memory a fill sends the product of the differences. -/
theorem busBytes_lcdFill_buffered {xStart yStart xEnd yEnd : ℕ}
    (hrect : RectOnPanel xStart yStart xEnd yEnd) (color : Color) :
    busBytes (lcdFill st7789 true xStart yStart xEnd yEnd color) =
      busBytes (lcdAddressSet st7789 xStart yStart xEnd yEnd) ++
        pixelBytes (List.replicate ((xEnd - xStart) * (yEnd - yStart)) color) := by
  have hsend : lcdClearSendNumber = 5760 := rfl
  unfold lcdFill
  simp only [fill_size hrect, if_true, busBytes_append]
  generalize (xEnd - xStart) * (yEnd - yStart) = n
  congr 1
  split
  · rw [busBytes_fillLoop _ _ _ (by omega) (by omega) (Or.inr rfl)]
    congr 2
    omega
  · rw [busBytes_fillLoop _ _ _ (by omega) (by omega) (Or.inl rfl)]
    congr 2
    omega

/-! ## Without memory -/

/-- Rows of the same pixels. -/
theorem flatMap_flatMap_const {α : Type*} (rows cols : ℕ) (vs : List α) :
    ((List.range rows).flatMap fun _ => (List.range cols).flatMap fun _ => vs) =
      (List.range (rows * cols)).flatMap fun _ => vs := by
  induction rows with
  | zero => simp
  | succ rows ih =>
    rw [List.range_succ, List.flatMap_append, ih, Nat.succ_mul, List.range_add,
      List.flatMap_append, List.flatMap_map]
    simp

theorem flatMap_range_const {α : Type*} (n : ℕ) (v : Color) (f : Color → List α) :
    ((List.range n).flatMap fun _ => f v) = (List.replicate n v).flatMap f := by
  induction n with
  | zero => rfl
  | succ n ih =>
    rw [List.range_succ, List.flatMap_append, ih, List.replicate_succ', List.flatMap_append]
    rfl

/-- Without memory a fill sends as many pixels as the window has cells. -/
theorem busBytes_lcdFill_pixels {xStart yStart xEnd yEnd : ℕ}
    (hrect : RectOnPanel xStart yStart xEnd yEnd) (color : Color) :
    busBytes (lcdFill st7789 false xStart yStart xEnd yEnd color) =
      busBytes (lcdAddressSet st7789 xStart yStart xEnd yEnd) ++
        pixelBytes (List.replicate ((xEnd - xStart + 1) * (yEnd - yStart + 1)) color) := by
  obtain ⟨⟨hx, -⟩, hy, -⟩ := hrect
  have hcols : xEnd + 1 - xStart = xEnd - xStart + 1 := by omega
  have hrows : yEnd + 1 - yStart = yEnd - yStart + 1 := by omega
  unfold lcdFill
  simp only [Bool.false_eq_true, if_false, busBytes_append]
  rw [flatMap_flatMap_const, flatMap_range_const, busBytes_halfWords, hcols, hrows, Nat.mul_comm]

/-! ## Both -/

/-- Whether the heap has a block left or not, every cell of the window is
sent the colour, and nothing more. -/
def PaintsWindow (xStart yStart xEnd yEnd : ℕ) (color : Color) : Prop :=
  ∀ free : Bool,
    busBytes (lcdFill st7789 (rtMalloc free (fillSize xStart yStart xEnd yEnd))
        xStart yStart xEnd yEnd color) =
      busBytes (lcdAddressSet st7789 xStart yStart xEnd yEnd) ++
        pixelBytes (List.replicate ((xEnd - xStart + 1) * (yEnd - yStart + 1)) color)

/-- A fill asks for no bytes where its corners are in one row or column. -/
theorem fillSize_eq_zero_iff {xStart yStart xEnd yEnd : ℕ}
    (hrect : RectOnPanel xStart yStart xEnd yEnd) :
    fillSize xStart yStart xEnd yEnd = 0 ↔ xStart = xEnd ∨ yStart = yEnd := by
  have hx := hrect.1.1
  have hy := hrect.2.1
  have hsend : lcdClearSendNumber = 5760 := rfl
  have hzero : (xEnd - xStart) * (yEnd - yStart) = 0 ↔ xEnd - xStart = 0 ∨ yEnd - yStart = 0 :=
    Nat.mul_eq_zero
  unfold fillSize
  rw [fill_size hrect]
  omega

/-- **A fill paints its window, memory or not, exactly where the window is
one row or one column.** -/
theorem lcdFill_paints_iff {xStart yStart xEnd yEnd : ℕ}
    (hrect : RectOnPanel xStart yStart xEnd yEnd) (color : Color) :
    PaintsWindow xStart yStart xEnd yEnd color ↔ xStart = xEnd ∨ yStart = yEnd := by
  rw [← fillSize_eq_zero_iff hrect]
  constructor
  · intro h
    by_contra hsize
    have hfree := h true
    rw [rtMalloc, if_neg hsize, busBytes_lcdFill_buffered hrect] at hfree
    -- a row and a column are missing
    have hlen := congrArg List.length (List.append_cancel_left hfree)
    rw [length_pixelBytes, length_pixelBytes, List.length_replicate, List.length_replicate]
      at hlen
    have hlt := Nat.mul_lt_mul'' (Nat.lt_add_one (xEnd - xStart))
      (Nat.lt_add_one (yEnd - yStart))
    omega
  · intro hsize free
    rw [hsize]
    exact busBytes_lcdFill_pixels hrect color

/-- A line of 240 pixels. -/
theorem lcdFill_paints_iff_line :
    PaintsWindow 0 7 239 7 0xF800 ↔ (0 : ℕ) = 239 ∨ 7 = 7 :=
  lcdFill_paints_iff ⟨by decide, by decide⟩ 0xF800

/-- A window of four cells gets one pixel where there is memory, and four
where there is none. -/
theorem lcdFill_misses_pixels :
    busBytes (lcdFill st7789 true 0 0 1 1 0xF800) =
        busBytes (lcdAddressSet st7789 0 0 1 1) ++ pixelBytes [0xF800] ∧
      busBytes (lcdFill st7789 false 0 0 1 1 0xF800) =
        busBytes (lcdAddressSet st7789 0 0 1 1) ++
          pixelBytes [0xF800, 0xF800, 0xF800, 0xF800] ∧
      ¬ PaintsWindow 0 0 1 1 0xF800 := by
  have hrect : RectOnPanel 0 0 1 1 := ⟨by decide, by decide⟩
  have hbuffered := busBytes_lcdFill_buffered hrect 0xF800
  have hpixels := busBytes_lcdFill_pixels hrect 0xF800
  refine ⟨hbuffered, hpixels, fun h => ?_⟩
  have hfree := h true
  have hlen := congrArg List.length (hbuffered.symm.trans hfree)
  revert hlen
  decide +kernel

end Lcd

end RtSpark
