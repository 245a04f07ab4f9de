import RtSpark.Lcd.History
/-!
# Clearing the panel

`lcd_clear` relies on `LCD_SetCursor` to open the whole panel, and that
writes nothing: the pixels go through the window the last call left, each
colour with its bytes exchanged (`lcdClear_frame`). The panel is cleared
exactly when neither shows.
-/

namespace RtSpark

namespace Lcd

variable {p : Panel}

namespace Panel

/-- The panel at power-on: any pixels, the whole panel its window. -/
def powerOn (frame : ℕ × ℕ → Color) : Panel := ⟨frame, 0, 239, 0, 239, 0, 0, 0, [], none⟩

/-- The cell lies in the window. -/
def InWindow (p : Panel) (q : ℕ × ℕ) : Prop :=
  (p.xs ≤ q.1 ∧ q.1 ≤ p.xe) ∧ p.ys ≤ q.2 ∧ q.2 ≤ p.ye

end Panel

/-- The panel `drv_lcd_init` and a history of calls leave. -/
def drawn (fonts : Fonts) (frame : ℕ × ℕ → Color) (draws : List Draw) : Panel :=
  ((Panel.powerOn frame).run (drvLcdInit 0x8552).2).run (draws.flatMap fun d => d.writes fonts)

/-! ## The window -/

/-- A setting that is no window keeps it, and the pixels. -/
theorem run_setting (p : Panel) {cmd : UInt8} (h : cmd ≠ 0x2A ∧ cmd ≠ 0x2B ∧ cmd ≠ 0x2C)
    (args : List UInt8) :
    p.SameWindow (p.run (.reg cmd :: args.map .ram8)) ∧
      (p.run (.reg cmd :: args.map .ram8)).frame = p.frame := by
  have hcommand : p.command cmd = { p with cmd := cmd, args := [], half := none } := by
    unfold Panel.command
    exact if_neg h.2.2
  have hdata : ∀ (p : Panel) (b : UInt8), p.cmd = cmd → p.data b = p := by
    intro p b hcmd
    unfold Panel.data
    rw [hcmd, if_neg h.1, if_neg h.2.1, if_neg h.2.2]
  have hargs : ∀ (args : List UInt8) (p : Panel), p.cmd = cmd → p.run (args.map .ram8) = p := by
    intro args
    induction args with
    | nil => exact fun _ _ => rfl
    | cons a args ih =>
      intro p hcmd
      rw [List.map_cons, Panel.run_cons, Panel.write, hdata p a hcmd, ih p hcmd]
  rw [Panel.run_cons, Panel.write, hcommand, hargs args _ rfl]
  exact ⟨⟨rfl, rfl, rfl, rfl⟩, rfl⟩

theorem run_settings (settings : List (UInt8 × List UInt8))
    (h : ∀ s ∈ settings, s.1 ≠ 0x2A ∧ s.1 ≠ 0x2B ∧ s.1 ≠ 0x2C) (p : Panel) :
    p.SameWindow (p.run (settings.flatMap fun s => .reg s.1 :: s.2.map .ram8)) :=
  Panel.run_flatMap (P := p.SameWindow)
    (fun s hs q hq => hq.trans (run_setting q (h s hs) s.2).1) ⟨rfl, rfl, rfl, rfl⟩

/-- Start-up keeps the window of the whole panel. -/
theorem init_sameWindow (p : Panel) : p.SameWindow (p.run (drvLcdInit 0x8552).2) := by
  have hinit : (drvLcdInit 0x8552).2 =
      ((0x04, []) :: initSequence).flatMap (fun s => .reg s.1 :: s.2.map .ram8) ++
        lcdClear st7789 white := rfl
  rw [hinit, Panel.run_append]
  exact (run_settings _ (by decide) p).trans (run_clear_sameWindow _ _)

theorem onPanel_powerOn (frame : ℕ × ℕ → Color) : (Panel.powerOn frame).OnPanel :=
  ⟨⟨Nat.zero_le _, show 239 < lcdW by decide⟩, Nat.zero_le _, show 239 < lcdH by decide⟩

/-- **After any history of calls on the panel the window lies on it.** -/
theorem onPanel_drawn (fonts : Fonts) (frame : ℕ × ℕ → Color) (draws : List Draw)
    (hdraws : ∀ d ∈ draws, d.OnPanel) : (drawn fonts frame draws).OnPanel := by
  have hstart : ((Panel.powerOn frame).run (drvLcdInit 0x8552).2).OnPanel :=
    Panel.OnPanel.of_sameWindow (onPanel_powerOn frame) (init_sameWindow _)
  refine Panel.run_flatMap (fun d hd p hp => ?_) hstart
  exact (window_draw fonts (hdraws d hd) p).elim hp.of_sameWindow id

/-! ## What a clear shows -/

/-- A window on the panel has no more cells than the panel. -/
theorem window_cells_le (h : p.OnPanel) : h.window.width * h.window.height ≤ 57600 := by
  have hw : h.window.width ≤ 240 := by
    have hcols := h.cols
    rw [lcdW_eq] at hcols
    unfold Window.width Panel.OnPanel.window
    simp only
    omega
  have hh : h.window.height ≤ 240 := by
    have hrows := h.rows
    rw [lcdH_eq] at hrows
    unfold Window.height Panel.OnPanel.window
    simp only
    omega
  exact Nat.mul_le_mul hw hh

/-- **`lcd_clear` fills the window it finds**, with the colour's bytes
exchanged. -/
theorem lcdClear_frame (h : p.OnPanel) (color : Color) (q : ℕ × ℕ) :
    (p.run (lcdClear st7789 color)).frame q =
      if h.window.Has q then changeByteOrder color else p.frame q := by
  obtain ⟨hwriting, hframe⟩ := Panel.writing_command h.opens
  have hrun := (run_pixels isPixel_ram16 hwriting (List.replicate 57600 color)).2
  rw [lcdClear_st7789, List.singleton_append, Panel.run_cons, Panel.write, ← List.map_replicate,
    List.map_eq_flatMap, hrun, List.map_replicate, hframe]
  have hcells : h.window.width * h.window.height
      ≤ (List.replicate 57600 (changeByteOrder color)).length := by
    rw [List.length_replicate]
    exact window_cells_le h
  by_cases hq : h.window.Has q
  · have hmem := (Window.mem_keys_iff hcells).2 hq
    rw [if_pos hq]
    rw [Window.stores_replicate] at hmem ⊢
    rw [Stores.apply_const, if_pos]
    simpa using hmem
  · rw [if_neg hq, Window.apply_stores_of_not_has _ _ _ hq]

/-- **`lcd_clear` clears exactly when nothing of this shows**, after any
history of calls on the panel: the colour's bytes are alike, and what lies
outside the window holds it already. -/
theorem lcdClear_clears_iff (fonts : Fonts) (frame : ℕ × ℕ → Color) (draws : List Draw)
    (hdraws : ∀ d ∈ draws, d.OnPanel) (color : Color) :
    (∀ x < lcdW, ∀ y < lcdH,
        ((drawn fonts frame draws).run (lcdClear st7789 color)).frame (x, y) = color) ↔
      changeByteOrder color = color ∧
        ∀ x < lcdW, ∀ y < lcdH, ¬ (drawn fonts frame draws).InWindow (x, y) →
          (drawn fonts frame draws).frame (x, y) = color := by
  have h := onPanel_drawn fonts frame draws hdraws
  have horigin : h.window.Has ((drawn fonts frame draws).xs, (drawn fonts frame draws).ys) :=
    ⟨⟨Nat.le_refl _, h.cols.1⟩, Nat.le_refl _, h.rows.1⟩
  constructor
  · intro hclear
    refine ⟨?_, fun x hx y hy hout => ?_⟩
    · have hpixel := hclear _ (Nat.lt_of_le_of_lt h.cols.1 h.cols.2) _
        (Nat.lt_of_le_of_lt h.rows.1 h.rows.2)
      rw [lcdClear_frame h, if_pos horigin] at hpixel
      exact hpixel
    · have hout' : ¬ h.window.Has (x, y) := hout
      have hpixel := hclear x hx y hy
      rw [lcdClear_frame h, if_neg hout'] at hpixel
      exact hpixel
  · rintro ⟨hbytes, hout⟩ x hx y hy
    rw [lcdClear_frame h]
    by_cases hin : h.window.Has (x, y)
    · rw [if_pos hin]
      exact hbytes
    · rw [if_neg hin]
      exact hout x hx y hy hin

/-- Tables of blank characters. -/
def blankFonts : Fonts := ⟨fun _ => 0, fun _ => 0, fun _ => 0⟩

/-- Two points, then a clear: the window is the second point's. -/
theorem lcdClear_clears_iff_two_points :
    (∀ x < lcdW, ∀ y < lcdH,
        ((drawn blankFonts (fun _ => 0) [.drawPoint 0 0, .drawPoint 7 9]).run
          (lcdClear st7789 white)).frame (x, y) = white) ↔
      changeByteOrder white = white ∧
        ∀ x < lcdW, ∀ y < lcdH,
          ¬ (drawn blankFonts (fun _ => 0) [.drawPoint 0 0, .drawPoint 7 9]).InWindow (x, y) →
          (drawn blankFonts (fun _ => 0) [.drawPoint 0 0, .drawPoint 7 9]).frame (x, y) = white :=
  lcdClear_clears_iff blankFonts (fun _ => 0) [.drawPoint 0 0, .drawPoint 7 9]
    (by simp [Draw.OnPanel]) white

/-! ## A clear after a point -/

/-- A point is stored, and its window is the point. -/
theorem run_drawPoint (p : Panel) {x y : ℕ} (hx : x < 2 ^ 16) (hy : y < 2 ^ 16) :
    (p.run (lcdDrawPoint st7789 x y)).Opens ⟨x, x, y, y, Nat.le_refl x, Nat.le_refl y⟩ ∧
      (p.run (lcdDrawPoint st7789 x y)).frame = Function.update p.frame (x, y) white := by
  obtain ⟨a, b, hval, hrun⟩ := isPixel_halfWord white
  have hstart : Panel.Writing { p with
      xs := x, xe := x, ys := y, ye := y
      cx := x, cy := y
      cmd := 0x2C, args := [], half := none } ⟨x, x, y, y, Nat.le_refl x, Nat.le_refl y⟩ 0 :=
    ⟨⟨rfl, rfl, rfl, rfl⟩, rfl, rfl, by rw [Window.pos_zero]⟩
  obtain ⟨hwriting, hframe⟩ := Panel.writing_pixel hstart a b
  rw [lcdDrawPoint, Panel.run_append, run_addressSet p hx hy hx hy, hrun]
  refine ⟨hwriting.opens, ?_⟩
  rw [hframe, hval, Window.pos_zero]

/-- The window of power-on has every pixel. -/
theorem has_of_powerOn {frame : ℕ × ℕ → Color} {p : Panel}
    (hsame : (Panel.powerOn frame).SameWindow p) (h : p.OnPanel) {x y : ℕ} (hx : x < lcdW)
    (hy : y < lcdH) : h.window.Has (x, y) := by
  obtain ⟨hxs, hxe, hys, hye⟩ := hsame
  rw [lcdW_eq] at hx
  rw [lcdH_eq] at hy
  simp only [Panel.powerOn] at hxs hxe hys hye
  simp only [Panel.OnPanel.window, Window.Has]
  omega

/-- After start-up the panel is white. -/
theorem init_frame (frame : ℕ × ℕ → Color) {x y : ℕ} (hx : x < lcdW) (hy : y < lcdH) :
    ((Panel.powerOn frame).run (drvLcdInit 0x8552).2).frame (x, y) = white := by
  have hinit : (drvLcdInit 0x8552).2 =
      ((0x04, []) :: initSequence).flatMap (fun s => .reg s.1 :: s.2.map .ram8) ++
        lcdClear st7789 white := rfl
  have hsame := run_settings ((0x04, []) :: initSequence) (by decide) (Panel.powerOn frame)
  have hon := (onPanel_powerOn frame).of_sameWindow hsame
  rw [hinit, Panel.run_append, lcdClear_frame hon, if_pos (has_of_powerOn hsame hon hx hy)]
  decide

/-- `lcd_clear` after a point leaves the pixels of start-up. -/
theorem clear_after_point (color : Color) {x y : ℕ} (hx : x < lcdW) (hy : y < lcdH)
    (hne : (x, y) ≠ (0, 0)) :
    ((drawn blankFonts (fun _ => 0) [.drawPoint 0 0]).run (lcdClear st7789 color)).frame (x, y)
      = white := by
  have hon := onPanel_drawn blankFonts (fun _ => 0) [.drawPoint 0 0] (by simp [Draw.OnPanel])
  have hrun : drawn blankFonts (fun _ => 0) [.drawPoint 0 0]
      = ((Panel.powerOn fun _ => 0).run (drvLcdInit 0x8552).2).run (lcdDrawPoint st7789 0 0) := by
    rw [drawn, List.flatMap_cons, List.flatMap_nil, List.append_nil]
    rfl
  obtain ⟨⟨-, hxe, -, hye⟩, hframe⟩ := run_drawPoint
    ((Panel.powerOn fun _ => 0).run (drvLcdInit 0x8552).2) (x := 0) (y := 0) (by decide) (by decide)
  rw [← hrun] at hxe hye hframe
  have hout : ¬ hon.window.Has (x, y) := by
    rintro ⟨⟨-, hcol⟩, -, hrow⟩
    simp only [Panel.OnPanel.window, hxe, hye] at hcol hrow
    exact hne (Prod.ext (Nat.le_zero.1 hcol) (Nat.le_zero.1 hrow))
  rw [lcdClear_frame hon, if_neg hout, hframe, Function.update_of_ne hne, init_frame _ hx hy]

/-- Right after start-up `lcd_clear` fills the panel, with the colour's
bytes exchanged. -/
theorem clear_after_init (color : Color) {x y : ℕ} (hx : x < lcdW) (hy : y < lcdH) :
    ((drawn blankFonts (fun _ => 0) []).run (lcdClear st7789 color)).frame (x, y)
      = changeByteOrder color := by
  have hon := onPanel_drawn blankFonts (fun _ => 0) [] fun d hd => absurd hd List.not_mem_nil
  have hsame : (Panel.powerOn fun _ => 0).SameWindow (drawn blankFonts (fun _ => 0) []) := by
    unfold drawn
    rw [List.flatMap_nil, Panel.run_nil]
    exact init_sameWindow _
  rw [lcdClear_frame hon, if_pos (has_of_powerOn hsame hon hx hy)]

/-- After a point at the origin `lcd_clear(BLACK)` leaves pixel (1, 1)
white, and with no call before it `lcd_clear(RED)` shows `0x00F8`. -/
theorem lcdClear_leaves_pixels :
    ((drawn blankFonts (fun _ => 0) [.drawPoint 0 0]).run (lcdClear st7789 0)).frame (1, 1)
        = white ∧
      ((drawn blankFonts (fun _ => 0) []).run (lcdClear st7789 red)).frame (0, 0) = 0x00F8 ∧
      ¬ ∀ x < lcdW, ∀ y < lcdH, ((drawn blankFonts (fun _ => 0) [.drawPoint 0 0]).run
        (lcdClear st7789 0)).frame (x, y) = 0 := by
  have hpoint := clear_after_point 0 (x := 1) (y := 1) (by decide) (by decide) (by decide)
  refine ⟨hpoint, ?_, fun hclear => ?_⟩
  · rw [clear_after_init red (by decide) (by decide)]
    decide
  · have hblack := hclear 1 (by decide) 1 (by decide)
    rw [hpoint] at hblack
    exact absurd hblack (by decide)

end Lcd

end RtSpark
