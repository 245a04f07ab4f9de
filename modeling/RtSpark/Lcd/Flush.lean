import RtSpark.Lcd.Bus
import RtSpark.Lcd.Model.LvPortDisp
/-!
# A flush copies its area

`lcd_fill_array` opens the area as a window and sends the buffer's pixels
in two nested loops. Its pointer into the buffer and the panel's pointer
into the window move together: a pass of the inner loop moves both by one,
and the window's row ends where the inner loop does. So after the last
pixel the area holds the buffer row by row, and the panel's pointer is
back where it started (`dispFlush_copies`).
-/

namespace RtSpark

namespace Lcd

variable {xStart yStart xEnd yEnd : ℕ}

/-! ## The loops -/

/-- What is sent of an element of the buffer. -/
def pixelWrites (pcolor : ℕ → Color) (i : ℕ) : List BusWrite :=
  [.ram8 (highByte (pcolor i)), .ram8 (lowByte (pcolor i))]

/-- The inner loop reads and sends a row of the buffer. -/
theorem fillArrayCol_run (pcolor : ℕ → Color) (hx : xEnd + 1 < 2 ^ 16) {k : ℕ} {s : FillArrayState}
    (hk : xStart + s.xOffset + k = xEnd + 1) {passes : ℕ} (hpasses : k < passes) :
    Loop.run (fillArrayCol xStart xEnd pcolor) passes s = {
      cycleY := s.cycleY
      xOffset := s.xOffset + k
      pixel := s.pixel + k
      reads := s.reads ++ List.range' s.pixel k
      writes := s.writes ++ (List.range' s.pixel k).flatMap (pixelWrites pcolor) } := by
  induction k generalizing s passes with
  | zero =>
    have hdone : fillArrayCol xStart xEnd pcolor s = none := if_neg (by omega)
    rw [Loop.run_of_none hdone, List.range'_zero, List.append_nil, List.flatMap_nil,
      List.append_nil]
    rfl
  | succ k ih =>
    obtain ⟨passes, rfl⟩ := Nat.exists_eq_succ_of_ne_zero (Nat.ne_zero_of_lt hpasses)
    have hmod : (s.xOffset + 1) % 2 ^ 16 = s.xOffset + 1 := Nat.mod_eq_of_lt (by omega)
    have hpass : fillArrayCol xStart xEnd pcolor s = some {
        cycleY := s.cycleY
        xOffset := s.xOffset + 1
        pixel := s.pixel + 1
        reads := s.reads ++ [s.pixel]
        writes := s.writes ++ pixelWrites pcolor s.pixel } := by
      rw [fillArrayCol, if_pos (by omega), hmod]
      rfl
    rw [Loop.run_succ_of_some hpass, ih (by simp only; omega) (by omega)]
    simp only [List.range'_succ, List.flatMap_cons, List.append_assoc, List.cons_append,
      List.nil_append, Nat.add_assoc, Nat.add_comm 1 k]

/-- **The outer loop reads and sends the rows one behind the other.** -/
theorem fillArrayRow_exits (pcolor : ℕ → Color) (hx : xStart ≤ xEnd ∧ xEnd + 1 < 2 ^ 16)
    (hy : yEnd + 1 < 2 ^ 16) {k : ℕ} {s : FillArrayState} (hk : s.cycleY + k = yEnd + 1) :
    ∃ t, Loop.Exits (fillArrayRow xStart xEnd yEnd pcolor) s t ∧
      t.reads = s.reads ++ List.range' s.pixel (k * (xEnd + 1 - xStart)) ∧
      t.writes = s.writes ++
        (List.range' s.pixel (k * (xEnd + 1 - xStart))).flatMap (pixelWrites pcolor) := by
  induction k generalizing s with
  | zero =>
    have hdone : fillArrayRow xStart xEnd yEnd pcolor s = none := if_neg (by omega)
    refine ⟨s, ⟨Relation.ReflTransGen.refl, hdone⟩, ?_, ?_⟩
    · simp
    · simp
  | succ k ih =>
    have hrun := fillArrayCol_run pcolor (s := { s with xOffset := 0 }) hx.2
      (show xStart + 0 + (xEnd + 1 - xStart) = xEnd + 1 by omega)
      (show xEnd + 1 - xStart < 2 ^ 16 by omega)
    have hmod : (s.cycleY + 1) % 2 ^ 16 = s.cycleY + 1 := Nat.mod_eq_of_lt (by omega)
    generalize hcols : xEnd + 1 - xStart = cols at hrun ih ⊢
    have hpass : fillArrayRow xStart xEnd yEnd pcolor s = some {
        cycleY := s.cycleY + 1
        xOffset := 0 + cols
        pixel := s.pixel + cols
        reads := s.reads ++ List.range' s.pixel cols
        writes := s.writes ++ (List.range' s.pixel cols).flatMap (pixelWrites pcolor) } := by
      rw [fillArrayRow, if_pos (by omega), hrun, ← hmod]
    obtain ⟨t, hexits, hreads, hwrites⟩ := ih (s := {
        cycleY := s.cycleY + 1
        xOffset := 0 + cols
        pixel := s.pixel + cols
        reads := s.reads ++ List.range' s.pixel cols
        writes := s.writes ++ (List.range' s.pixel cols).flatMap (pixelWrites pcolor) })
      (by simp only; omega)
    -- the rows that follow start where this one ends
    have hrows : List.range' s.pixel ((k + 1) * cols) =
        List.range' s.pixel cols ++ List.range' (s.pixel + cols) (k * cols) := by
      rw [List.range'_append_1, Nat.succ_mul, Nat.add_comm]
    refine ⟨t, ⟨hexits.1.head hpass, hexits.2⟩, ?_, ?_⟩
    · rw [hreads, hrows, List.append_assoc]
    · rw [hwrites, hrows, List.flatMap_append, List.append_assoc]

/-- What `lcd_fill_array` sends is the buffer, element by element. -/
theorem lcdFillArray_eq (dev : LcdDev) (xStart yStart xEnd yEnd : ℕ) (pcolor : ℕ → Color) :
    lcdFillArray dev xStart yStart xEnd yEnd pcolor =
      lcdAddressSet dev xStart yStart xEnd yEnd ++
        (List.range ((yEnd + 1 - yStart) * (xEnd + 1 - xStart))).flatMap (pixelWrites pcolor) := by
  unfold lcdFillArray
  simp only
  generalize xEnd + 1 - xStart = cols
  have hblocks := flatMap_range_blocks (fun row => row * cols) (fun _ => cols)
    (Nat.zero_mul cols) (fun row => Nat.succ_mul row cols) (yEnd + 1 - yStart)
  rw [← hblocks, List.flatMap_assoc]
  simp only [List.flatMap_map]
  rfl

/-- **The loops send what `lcdFillArray` says**, and read each element of
the buffer once, the last one last. -/
theorem lcdFillArray_loops (hx : xStart ≤ xEnd ∧ xEnd + 1 < 2 ^ 16)
    (hy : yStart ≤ yEnd ∧ yEnd + 1 < 2 ^ 16) (dev : LcdDev) (pcolor : ℕ → Color) :
    ∃ t, Loop.Exits (fillArrayRow xStart xEnd yEnd pcolor)
        ⟨yStart, 0, 0, [], lcdAddressSet dev xStart yStart xEnd yEnd⟩ t ∧
      t.reads = List.range ((yEnd + 1 - yStart) * (xEnd + 1 - xStart)) ∧
      t.writes = lcdFillArray dev xStart yStart xEnd yEnd pcolor := by
  obtain ⟨t, hexits, hreads, hwrites⟩ := fillArrayRow_exits pcolor
    (s := ⟨yStart, 0, 0, [], lcdAddressSet dev xStart yStart xEnd yEnd⟩) hx hy.2
    (k := yEnd + 1 - yStart) (by simp only; omega)
  refine ⟨t, hexits, ?_, ?_⟩
  · rw [hreads, List.nil_append, List.range_eq_range']
  · rw [hwrites, lcdFillArray_eq, List.range_eq_range']

/-! ## The panel -/

/-- Each element of the buffer is a pixel. -/
theorem isPixel_pixelWrites (pcolor : ℕ → Color) (i : ℕ) :
    IsPixel (pixelWrites pcolor i) (pcolor i) :=
  ⟨highByte (pcolor i), lowByte (pcolor i), ofBytes_bytes (pcolor i), fun _ => rfl⟩

/-- **What the call sends fills the window it opens**: the pixels of the
buffer are stored through it, and the pointer has passed its last cell. -/
theorem run_fillArray (p : Panel) (w : Window) (hx : w.x1 < 2 ^ 16) (hy : w.y1 < 2 ^ 16)
    (pcolor : ℕ → Color) :
    (p.run (lcdFillArray st7789 w.x0 w.y0 w.x1 w.y1 pcolor)).Writing w (w.width * w.height) ∧
      (p.run (lcdFillArray st7789 w.x0 w.y0 w.x1 w.y1 pcolor)).frame =
        Stores.apply p.frame (w.stores 0 ((List.range (w.width * w.height)).map pcolor)) := by
  have hcols := w.cols
  have hrows := w.rows
  have hcells : (w.y1 + 1 - w.y0) * (w.x1 + 1 - w.x0) = w.width * w.height := by
    rw [Nat.mul_comm, Window.width, Window.height, Nat.sub_add_comm hcols, Nat.sub_add_comm hrows]
  have hstart : Panel.Writing { p with
      xs := w.x0, xe := w.x1, ys := w.y0, ye := w.y1
      cx := w.x0, cy := w.y0
      cmd := 0x2C, args := [], half := none } w 0 :=
    ⟨⟨rfl, rfl, rfl, rfl⟩, rfl, rfl, by rw [Window.pos_zero]⟩
  obtain ⟨hwriting, hframe⟩ := run_pixels (isPixel_pixelWrites pcolor) hstart
    (List.range (w.width * w.height))
  rw [Nat.zero_add, List.length_range] at hwriting
  rw [lcdFillArray_eq, hcells, Panel.run_append,
    run_addressSet p (by omega) (by omega) (by omega) (by omega)]
  exact ⟨hwriting, hframe⟩

/-- Coordinates on the panel come through to the driver. -/
theorem dispFlush_eq {x1 y1 x2 y2 : ℕ} (hx : x1 ≤ x2 ∧ x2 ≤ 239) (hy : y1 ≤ y2 ∧ y2 ≤ 239)
    (colorP : ℕ → Color) :
    dispFlush st7789 ⟨x1, y1, x2, y2⟩ colorP = lcdFillArray st7789 x1 y1 x2 y2 colorP := by
  have hcoord : ∀ n : ℕ, n ≤ 239 → coord n = n := by
    intro n hn
    unfold coord
    omega
  unfold dispFlush
  simp only
  rw [hcoord x1 (by omega), hcoord y1 (by omega), hcoord x2 (by omega), hcoord y2 (by omega)]

/-- What a flush leaves: the area holds the buffer row by row, other
pixels are as they were, and the pointer is at the area's first pixel. The
loops read the buffer's elements and none behind them. -/
structure CopiesArea (p : Panel) (x1 y1 x2 y2 : ℕ) (colorP : ℕ → Color) (p' : Panel) : Prop where
  copied : ∀ i j, i < x2 - x1 + 1 → j < y2 - y1 + 1 →
    p'.frame (x1 + i, y1 + j) = colorP (j * (x2 - x1 + 1) + i)
  unchanged : ∀ q : ℕ × ℕ, ¬ ((x1 ≤ q.1 ∧ q.1 ≤ x2) ∧ y1 ≤ q.2 ∧ q.2 ≤ y2) →
    p'.frame q = p.frame q
  pointer : (p'.cx, p'.cy) = (x1, y1)
  reads : ∃ t, Loop.Exits (fillArrayRow x1 x2 y2 colorP)
      ⟨y1, 0, 0, [], lcdAddressSet st7789 x1 y1 x2 y2⟩ t ∧
    t.writes = dispFlush st7789 ⟨x1, y1, x2, y2⟩ colorP ∧
    t.reads = List.range ((x2 - x1 + 1) * (y2 - y1 + 1))

/-- **A flush copies exactly its area**, whatever the panel showed and
whatever its window was. -/
theorem dispFlush_copies (p : Panel) {x1 y1 x2 y2 : ℕ} (hx : x1 ≤ x2 ∧ x2 ≤ 239)
    (hy : y1 ≤ y2 ∧ y2 ≤ 239) (colorP : ℕ → Color) :
    CopiesArea p x1 y1 x2 y2 colorP (p.run (dispFlush st7789 ⟨x1, y1, x2, y2⟩ colorP)) := by
  have hflush := dispFlush_eq hx hy colorP
  let w : Window := ⟨x1, x2, y1, y2, hx.1, hy.1⟩
  obtain ⟨hwriting, hframe⟩ := run_fillArray p w (by simp only [w]; omega) (by simp only [w]; omega)
    colorP
  rw [← hflush] at hwriting hframe
  refine ⟨fun i j hi hj => ?_, fun q hq => ?_, ?_, ?_⟩
  · rw [hframe]
    refine Window.apply_stores_cell (w := w) p.frame ?_ hi hj ?_
    · rw [List.length_map, List.length_range]
    · rw [List.getElem?_map, List.getElem?_range (Window.index_lt (w := w) hi hj)]
      rfl
  · rw [hframe]
    exact Window.apply_stores_of_not_has (w := w) p.frame 0 _ hq
  · have hpointer := hwriting.pointer
    rw [Window.pos_full] at hpointer
    exact hpointer
  · obtain ⟨t, hexits, hreads, hwrites⟩ := lcdFillArray_loops
      (show x1 ≤ x2 ∧ x2 + 1 < 2 ^ 16 by omega) (show y1 ≤ y2 ∧ y2 + 1 < 2 ^ 16 by omega)
      st7789 colorP
    refine ⟨t, hexits, hwrites.trans hflush.symm, ?_⟩
    rw [hreads, Nat.mul_comm, Nat.sub_add_comm hx.1, Nat.sub_add_comm hy.1]

/-- Two rows of three pixels in the panel's last corner. -/
theorem dispFlush_copies_corner :
    CopiesArea (Panel.mk (fun _ => 0) 5 7 5 7 5 7 0 [] (some 1)) 237 238 239 239
      (fun i => UInt16.ofNat i)
      ((Panel.mk (fun _ => 0) 5 7 5 7 5 7 0 [] (some 1)).run
        (dispFlush st7789 ⟨237, 238, 239, 239⟩ fun i => UInt16.ofNat i)) :=
  dispFlush_copies (Panel.mk (fun _ => 0) 5 7 5 7 5 7 0 [] (some 1)) (by decide) (by decide)
    fun i => UInt16.ofNat i

end Lcd

end RtSpark
