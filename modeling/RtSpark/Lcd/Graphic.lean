import RtSpark.Lcd.Clear
import RtSpark.Lcd.Line
import Mathlib.Data.List.Nodup
import Mathlib.Data.List.ProdSigma
/-!
# The graphic operations

`LCD_Fast_DrawPoint` sends the coordinates as 16-bit stores: the bus takes
them low byte first, so the four parameters say "from column 0" whatever
the column is. Every point, and every point of a line, is stored at the
panel's origin. `LCD_BlitLine` opens no window at all. And all of them
send the colour itself as a 16-bit store, so it shows with its bytes
exchanged.

What an operation writes is its effect on any pixels the panel may hold
(`Paints`); what it writes depends on the windows, which the calls before
it left.
-/

namespace RtSpark

namespace Lcd

variable {p : Panel}

/-! ## The windows of any history -/

/-- A call of the graphic device. -/
inductive GraphicOp where
  | fastDrawPoint (color : Color) (x y : ℕ)
  | hLine (color : Color) (x1 x2 y : ℕ)
  | vLine (color : Color) (x y1 y2 : ℕ)
  | blitLine (pixel : List Color) (x y : ℕ)

def GraphicOp.writes : GraphicOp → List BusWrite
  | .fastDrawPoint color x y => lcdFastDrawPoint st7789 color x y
  | .hLine color x1 x2 y => lcdHLine st7789 color x1 x2 y
  | .vLine color x y1 y2 => lcdVLine st7789 color x y1 y2
  | .blitLine pixel x y => lcdBlitLine st7789 pixel x y

/-- The arguments name pixels of the panel. -/
def GraphicOp.OnPanel : GraphicOp → Prop
  | .fastDrawPoint _ x y => x < lcdW ∧ y < lcdH
  | .hLine _ x1 x2 y => (x1 < lcdW ∧ x2 < lcdW) ∧ y < lcdH
  | .vLine _ x y1 y2 => x < lcdW ∧ y1 < lcdH ∧ y2 < lcdH
  | .blitLine pixel x y => (x < lcdW ∧ x + pixel.length ≤ lcdW) ∧ y < lcdH

/-- Both windows run forward and start on the panel. -/
structure Panel.Sound (p : Panel) : Prop where
  cols : p.xs ≤ p.xe ∧ p.xs < lcdW
  rows : p.ys ≤ p.ye ∧ p.ys < lcdH

def Panel.Sound.window (h : p.Sound) : Window := ⟨p.xs, p.xe, p.ys, p.ye, h.cols.1, h.rows.1⟩

theorem Panel.Sound.opens (h : p.Sound) : p.Opens h.window := ⟨rfl, rfl, rfl, rfl⟩

theorem Panel.Sound.of_sameWindow {p' : Panel} (h : p.Sound) (hsame : p.SameWindow p') :
    p'.Sound := by
  obtain ⟨hxs, hxe, hys, hye⟩ := hsame
  refine ⟨?_, ?_⟩
  · rw [hxs, hxe]
    exact h.cols
  · rw [hys, hye]
    exact h.rows

theorem Panel.OnPanel.sound (h : p.OnPanel) : p.Sound :=
  ⟨⟨h.cols.1, Nat.lt_of_le_of_lt h.cols.1 h.cols.2⟩, h.rows.1,
    Nat.lt_of_le_of_lt h.rows.1 h.rows.2⟩

/-- The panel's pixels, and its windows as they are. -/
def Panel.withFrame (p : Panel) (frame : ℕ × ℕ → Color) : Panel := { p with frame := frame }

/-! ## A point -/

/-- What a call of the graphic device's point does to a panel: a pixel at
the origin, and windows that start there. -/
structure AtOrigin (p p' : Panel) (color : Color) : Prop where
  sound : p'.Sound
  frame : p'.frame = Function.update p.frame (0, 0) (changeByteOrder color)

/-- A pixel sent through windows that start at the origin. -/
theorem atOrigin_of_corner {p' : Panel} (hcorner : p'.xs = 0 ∧ p'.ys = 0)
    (hframe : p'.frame = p.frame) (color : Color) :
    AtOrigin p (((p'.command 0x2C).data (lowByte color)).data (highByte color)) color := by
  have hopens : p'.Opens ⟨0, p'.xe, 0, p'.ye, Nat.zero_le _, Nat.zero_le _⟩ :=
    ⟨hcorner.1, rfl, hcorner.2, rfl⟩
  obtain ⟨hwriting, hframe'⟩ := Panel.writing_command hopens
  obtain ⟨hwriting', hframe''⟩ := Panel.writing_pixel hwriting (lowByte color) (highByte color)
  obtain ⟨hxs, hxe, hys, hye⟩ := hwriting'.opens
  refine ⟨⟨⟨?_, ?_⟩, ?_, ?_⟩, ?_⟩
  · rw [hxs]
    exact Nat.zero_le _
  · rw [hxs]
    exact show 0 < lcdW by decide
  · rw [hys]
    exact Nat.zero_le _
  · rw [hys]
    exact show 0 < lcdH by decide
  · rw [hframe'', hframe', hframe, ofBytes_swap, Window.pos_zero]

/-- The bus writes of a point: the high bytes of its coordinates are zero,
and take a 16-bit store each. -/
theorem lcdFastDrawPoint_st7789 (color : Color) {x y : ℤ} (hx : 0 ≤ x ∧ x < 256)
    (hy : 0 ≤ y ∧ y < 256) : lcdFastDrawPoint st7789 color x y =
      [.reg 0x2A, .ram16 0, .ram16 (UInt16.ofInt (x % 256)), .reg 0x2B, .ram16 0,
        .ram16 (UInt16.ofInt (y % 256)), .reg 0x2C, .ram16 color] := by
  have hhigh : ∀ n : ℤ, 0 ≤ n ∧ n < 256 → UInt16.ofInt (n >>> (8 : ℕ)) = 0 := by
    intro n hn
    have hzero : n >>> (8 : ℕ) = 0 := by
      rw [Int.shiftRight_eq_div_pow]
      omega
    rw [hzero]
    rfl
  have hwrites : lcdFastDrawPoint st7789 color x y =
      [.reg 0x2A, .ram16 (UInt16.ofInt (x >>> (8 : ℕ))), .ram16 (UInt16.ofInt (x % 256)),
        .reg 0x2B, .ram16 (UInt16.ofInt (y >>> (8 : ℕ))), .ram16 (UInt16.ofInt (y % 256)),
        .reg 0x2C, .ram16 color] := rfl
  rw [hwrites, hhigh x hx, hhigh y hy]

/-- **A point is stored at the origin**, whatever its coordinates. -/
theorem run_fastDrawPoint (p : Panel) (color : Color) {x y : ℤ} (hx : 0 ≤ x ∧ x < 256)
    (hy : 0 ≤ y ∧ y < 256) : AtOrigin p (p.run (lcdFastDrawPoint st7789 color x y)) color := by
  have hzero : (ofBytes (lowByte 0) (highByte 0)).toNat = 0 := by decide
  rw [lcdFastDrawPoint_st7789 color hx hy]
  simp only [Panel.run_cons, Panel.run_nil, Panel.write, run_caset, run_raset, hzero]
  refine atOrigin_of_corner ?_ ?_ color
  · exact ⟨rfl, rfl⟩
  · rfl

/-- A point of the panel is one. -/
theorem fastDrawPoint_atOrigin (p : Panel) (color : Color) {x y : ℕ} (hx : x < lcdW)
    (hy : y < lcdH) : AtOrigin p (p.run (lcdFastDrawPoint st7789 color x y)) color := by
  rw [lcdW_eq] at hx
  rw [lcdH_eq] at hy
  exact run_fastDrawPoint p color (by omega) (by omega)

/-- Any number of points are stored there. -/
theorem run_points (color : Color) {points : List (ℤ × ℤ)} (hne : points ≠ [])
    (hpoints : ∀ q ∈ points, (0 ≤ q.1 ∧ q.1 < 256) ∧ 0 ≤ q.2 ∧ q.2 < 256) (p : Panel) :
    AtOrigin p (p.run (points.flatMap fun q => lcdFastDrawPoint st7789 color q.1 q.2)) color := by
  induction points generalizing p with
  | nil => exact absurd rfl hne
  | cons q points ih =>
    obtain ⟨hqx, hqy⟩ := hpoints q (List.mem_cons_self ..)
    have hfirst := run_fastDrawPoint p color hqx hqy
    rw [List.flatMap_cons, Panel.run_append]
    by_cases hnil : points = []
    · rw [hnil, List.flatMap_nil, Panel.run_nil]
      exact hfirst
    · have hrest := ih hnil (fun q' hq' => hpoints q' (List.mem_cons_of_mem _ hq'))
        (p.run (lcdFastDrawPoint st7789 color q.1 q.2))
      refine ⟨hrest.sound, ?_⟩
      rw [hrest.frame, hfirst.frame, Function.update_idem]

/-- **So are all the points of a line.** -/
theorem drawLine_atOrigin (p : Panel) (color : Color) {x1 y1 x2 y2 : ℕ} (hx1 : x1 < lcdW)
    (hy1 : y1 < lcdH) (hx2 : x2 < lcdW) (hy2 : y2 < lcdH) :
    AtOrigin p (p.run (lcdDrawLine st7789 color x1 y1 x2 y2)) color := by
  rw [lcdW_eq] at hx1 hx2
  rw [lcdH_eq] at hy1 hy2
  have hdist : lineDistance x1 y1 x2 y2 ≤ 65533 := by
    unfold lineDistance
    omega
  refine run_points color (linePoints_ne_nil hdist) (fun q hq => ?_) p
  obtain ⟨hrow, hcol⟩ := linePoints_between hdist q hq
  unfold Between at hrow hcol
  omega

/-! ## A run of pixels -/

theorem lcdBlitLine_st7789 (pixel : List Color) (x y : ℕ) :
    lcdBlitLine st7789 pixel x y = .reg 0x2C :: pixel.map .ram16 := rfl

/-- **`LCD_BlitLine` writes through the window it finds**, from its origin
on and wherever it is asked to write. -/
theorem run_blitLine (h : p.Sound) (pixel : List Color) (x y : ℕ) :
    (p.run (lcdBlitLine st7789 pixel x y)).Opens h.window ∧
      (p.run (lcdBlitLine st7789 pixel x y)).frame
        = Stores.apply p.frame (h.window.stores 0 (pixel.map changeByteOrder)) := by
  obtain ⟨hwriting, hframe⟩ := Panel.writing_command h.opens
  obtain ⟨hwriting', hframe'⟩ := run_pixels isPixel_ram16 hwriting pixel
  rw [lcdBlitLine_st7789, Panel.run_cons, Panel.write, List.map_eq_flatMap]
  exact ⟨hwriting'.opens, by rw [hframe', hframe]⟩

/-! ## Histories -/

/-- A drawing call or one of the graphic device. -/
inductive Call where
  | draw (d : Draw)
  | graphic (g : GraphicOp)

def Call.writes (fonts : Fonts) : Call → List BusWrite
  | .draw d => d.writes fonts
  | .graphic g => g.writes

def Call.OnPanel : Call → Prop
  | .draw d => d.OnPanel
  | .graphic g => g.OnPanel

/-- The panel `drv_lcd_init` and a history of calls leave. -/
def called (fonts : Fonts) (frame : ℕ × ℕ → Color) (calls : List Call) : Panel :=
  ((Panel.powerOn frame).run (drvLcdInit 0x8552).2).run (calls.flatMap fun c => c.writes fonts)

/-- Every call on the panel keeps the windows sound. -/
theorem sound_call (fonts : Fonts) {c : Call} (hc : c.OnPanel) (h : p.Sound) :
    (p.run (c.writes fonts)).Sound := by
  cases c with
  | draw d => exact (window_draw fonts hc p).elim h.of_sameWindow Panel.OnPanel.sound
  | graphic g =>
    cases g with
    | fastDrawPoint color x y => exact (fastDrawPoint_atOrigin p color hc.1 hc.2).sound
    | hLine color x1 x2 y => exact (drawLine_atOrigin p color hc.1.1 hc.2 hc.1.2 hc.2).sound
    | vLine color x y1 y2 => exact (drawLine_atOrigin p color hc.1 hc.2.1 hc.1 hc.2.2).sound
    | blitLine pixel x y =>
      obtain ⟨hxs, hxe, hys, hye⟩ := (run_blitLine h pixel x y).1
      exact h.of_sameWindow ⟨hxs, hxe, hys, hye⟩

/-- **After any history of calls on the panel the windows are sound.** -/
theorem sound_called (fonts : Fonts) (frame : ℕ × ℕ → Color) {calls : List Call}
    (hcalls : ∀ c ∈ calls, c.OnPanel) : (called fonts frame calls).Sound := by
  have hstart : ((Panel.powerOn frame).run (drvLcdInit 0x8552).2).Sound :=
    ((onPanel_powerOn frame).of_sameWindow (init_sameWindow _)).sound
  exact Panel.run_flatMap (fun c hc p hp => sound_call fonts (hcalls c hc) hp) hstart

/-! ## What an operation paints -/

instance : Nontrivial Color := ⟨0, 1, by decide⟩

/-- Whatever the panel shows, the writes store the cells, in order, and
change nothing else. -/
def Paints (p : Panel) (ws : List BusWrite) (cells : List ((ℕ × ℕ) × Color)) : Prop :=
  ∀ frame : ℕ × ℕ → Color, ∀ x < lcdW, ∀ y < lcdH,
    ((p.withFrame frame).run ws).frame (x, y) = Stores.apply frame cells (x, y)

/-- The numbers from one to the other, in either order. -/
def span (a b : ℕ) : List ℕ := List.range' (min a b) (max a b - min a b + 1)

/-- The pixels between two of one row or one column. -/
def segment (x1 y1 x2 y2 : ℕ) : List (ℕ × ℕ) := span x1 x2 ×ˢ span y1 y2

/-- The pixels of a run, each at its column. -/
def runCells (pixel : List Color) (x y : ℕ) : List ((ℕ × ℕ) × Color) :=
  pixel.zipIdx.map fun v => ((x + v.2, y), v.1)

/-- **What is stored at the origin alone paints the cells exactly when
they are the origin**, in a colour whose bytes are alike. -/
theorem paints_origin_iff (p : Panel) {ws : List BusWrite} {color : Color} (cells : List (ℕ × ℕ))
    (hws : ∀ p : Panel, (p.run ws).frame
      = Function.update p.frame (0, 0) (changeByteOrder color)) (hne : cells ≠ [])
    (hcells : ∀ q ∈ cells, q.1 < lcdW ∧ q.2 < lcdH) :
    Paints p ws (cells.map fun q => (q, color)) ↔
      (∀ q ∈ cells, q = (0, 0)) ∧ changeByteOrder color = color := by
  have hstore : ∀ frame : ℕ × ℕ → Color, ((p.withFrame frame).run ws).frame
      = Stores.apply frame [((0, 0), changeByteOrder color)] := fun frame => hws _
  constructor
  · intro hpaints
    have horigin : ∀ q ∈ cells, q = (0, 0) := by
      intro q hq
      obtain ⟨hx, hy⟩ := hcells q hq
      have hkeys := Stores.mem_keys_iff_of_apply_eq (k := q) fun frame =>
        (congrFun (hstore frame) q).symm.trans (hpaints frame q.1 hx q.2 hy)
      have hmem := hkeys.2 (by simpa using hq)
      simpa using hmem
    refine ⟨horigin, ?_⟩
    obtain ⟨q, hq⟩ := List.exists_mem_of_ne_nil cells hne
    obtain ⟨hx, hy⟩ := hcells q hq
    have hpixel := hpaints (fun _ => 0) q.1 hx q.2 hy
    rw [hws, Stores.apply_const, if_pos hq, horigin q hq, Function.update_self] at hpixel
    exact hpixel
  · rintro ⟨horigin, hbytes⟩ frame x _ y _
    rw [hws, Stores.apply_const, hbytes]
    by_cases hmem : (x, y) ∈ cells
    · rw [if_pos hmem, horigin _ hmem, Function.update_self]
    · have hne' : (x, y) ≠ (0, 0) := by
        intro heq
        obtain ⟨q, hq⟩ := List.exists_mem_of_ne_nil cells hne
        rw [heq, ← horigin q hq] at hmem
        exact hmem hq
      rw [if_neg hmem, Function.update_of_ne hne']
      rfl

theorem mem_span {a b n : ℕ} : n ∈ span a b ↔ min a b ≤ n ∧ n ≤ max a b := by
  unfold span
  rw [List.mem_range'_1]
  omega

theorem mem_segment {x1 y1 x2 y2 : ℕ} {q : ℕ × ℕ} : q ∈ segment x1 y1 x2 y2 ↔
    (min x1 x2 ≤ q.1 ∧ q.1 ≤ max x1 x2) ∧ min y1 y2 ≤ q.2 ∧ q.2 ≤ max y1 y2 := by
  obtain ⟨x, y⟩ := q
  exact List.pair_mem_product.trans (and_congr mem_span mem_span)

theorem paints_fastDrawPoint_iff (p : Panel) (color : Color) {x y : ℕ} (hx : x < lcdW)
    (hy : y < lcdH) :
    Paints p (lcdFastDrawPoint st7789 color x y) [((x, y), color)] ↔
      (x = 0 ∧ y = 0) ∧ changeByteOrder color = color := by
  have hiff := paints_origin_iff p [(x, y)]
    (fun p => (fastDrawPoint_atOrigin p color hx hy).frame) (List.cons_ne_nil _ _)
    (fun q hq => by rw [List.mem_singleton.1 hq]; exact ⟨hx, hy⟩)
  rw [List.map_cons, List.map_nil] at hiff
  rw [hiff]
  refine and_congr_left fun _ => ?_
  simp only [List.mem_singleton, forall_eq, Prod.mk.injEq]

/-- **A line is painted exactly when** it is the origin's pixel, in a colour
whose bytes are alike. -/
theorem paints_drawLine_iff (p : Panel) (color : Color) {x1 y1 x2 y2 : ℕ} (hx1 : x1 < lcdW)
    (hy1 : y1 < lcdH) (hx2 : x2 < lcdW) (hy2 : y2 < lcdH) :
    Paints p (lcdDrawLine st7789 color x1 y1 x2 y2)
        ((segment x1 y1 x2 y2).map fun q => (q, color)) ↔
      ((x1 = 0 ∧ y1 = 0) ∧ x2 = 0 ∧ y2 = 0) ∧ changeByteOrder color = color := by
  have hends : (x1, y1) ∈ segment x1 y1 x2 y2 ∧ (x2, y2) ∈ segment x1 y1 x2 y2 :=
    ⟨mem_segment.2 (by simp only; omega), mem_segment.2 (by simp only; omega)⟩
  have hcells : ∀ q ∈ segment x1 y1 x2 y2, q.1 < lcdW ∧ q.2 < lcdH := by
    intro q hq
    have hbetween := mem_segment.1 hq
    omega
  have hiff := paints_origin_iff p (segment x1 y1 x2 y2)
    (fun p => (drawLine_atOrigin p color hx1 hy1 hx2 hy2).frame) (List.ne_nil_of_mem hends.1) hcells
  refine hiff.trans (and_congr_left fun _ => ⟨fun h => ?_, ?_⟩)
  · exact ⟨Prod.mk.inj (h _ hends.1), Prod.mk.inj (h _ hends.2)⟩
  · rintro ⟨⟨hx1, hy1⟩, hx2, hy2⟩ q hq
    have hbetween := mem_segment.1 hq
    exact Prod.ext (by simp only; omega) (by simp only; omega)

theorem runCells_keys (pixel : List Color) (x y : ℕ) :
    (runCells pixel x y).map Prod.fst = (List.range' 0 pixel.length).map fun i => (x + i, y) := by
  unfold runCells
  rw [List.map_map, ← List.zipIdx_map_snd 0 pixel, List.map_map]
  rfl

theorem mem_runCells_keys {pixel : List Color} {x y : ℕ} {q : ℕ × ℕ} :
    q ∈ (runCells pixel x y).map Prod.fst ↔ (x ≤ q.1 ∧ q.1 < x + pixel.length) ∧ q.2 = y := by
  rw [runCells_keys, List.mem_map]
  constructor
  · rintro ⟨i, hi, rfl⟩
    rw [List.mem_range'_1] at hi
    exact ⟨by simp only; omega, rfl⟩
  · rintro ⟨hx, hy⟩
    exact ⟨q.1 - x, List.mem_range'_1.2 (by omega), Prod.ext (by simp only; omega) hy.symm⟩

/-- The pixels of a run are distinct. -/
theorem nodup_runCells_keys (pixel : List Color) (x y : ℕ) :
    ((runCells pixel x y).map Prod.fst).Nodup := by
  rw [runCells_keys]
  refine List.Nodup.map (fun i j hij => ?_) List.nodup_range'
  exact Nat.add_left_cancel (Prod.mk.inj hij).1

/-- The run as a window takes it, if it fits the first row. -/
theorem stores_eq_runCells (h : p.Sound) {pixel : List Color}
    (hfits : pixel.length ≤ p.xe - p.xs + 1) :
    h.window.stores 0 (pixel.map changeByteOrder)
      = runCells (pixel.map changeByteOrder) p.xs p.ys :=
  Window.stores_of_le (w := h.window) (by rw [List.length_map]; exact hfits)

/-- Where the run a window takes is the run that is named. -/
theorem window_of_keys (h : p.Sound) {pixel : List Color} (hne : pixel ≠ []) {x y : ℕ}
    (hx : x < lcdW) (hfits : x + pixel.length ≤ lcdW) (hy : y < lcdH)
    (hkeys : ∀ q : ℕ × ℕ, q.1 < lcdW → q.2 < lcdH →
      (q ∈ (h.window.stores 0 (pixel.map changeByteOrder)).map Prod.fst ↔
        q ∈ (runCells pixel x y).map Prod.fst)) :
    (p.xs = x ∧ p.ys = y) ∧ pixel.length ≤ p.xe - p.xs + 1 := by
  have hpos : 0 < pixel.length := List.length_pos_iff.2 hne
  have hstored : ∀ q : ℕ × ℕ, q ∈ (h.window.stores 0 (pixel.map changeByteOrder)).map Prod.fst ↔
      ∃ k < pixel.length, h.window.pos k = q := by
    intro q
    rw [Window.stores_keys, List.length_map, List.mem_map]
    simp only [List.mem_range'_1, Nat.zero_le, true_and, Nat.zero_add]
  -- the window's origin is named
  have horigin := mem_runCells_keys.1 ((hkeys (p.xs, p.ys) h.cols.2 h.rows.2).1
    ((hstored _).2 ⟨0, hpos, Window.pos_zero _⟩))
  -- and the run's first pixel is stored, in the window
  obtain ⟨k, -, hk⟩ := (hstored _).1
    ((hkeys (x, y) hx hy).2 (mem_runCells_keys.2 ⟨⟨Nat.le_refl x, by simp only; omega⟩, rfl⟩))
  have hin := (h.window.has_pos k).1.1
  rw [hk] at hin
  have hxs : p.xs = x := Nat.le_antisymm hin horigin.1.1
  refine ⟨⟨hxs, horigin.2⟩, ?_⟩
  by_contra hlong
  -- the pixel right of the window would be named and not stored
  have hright : p.xe + 1 < lcdW := by
    have hcols := h.cols.1
    omega
  have hnamed : (p.xe + 1, y) ∈ (runCells pixel x y).map Prod.fst := by
    have hcols := h.cols.1
    exact mem_runCells_keys.2 ⟨by simp only; omega, rfl⟩
  obtain ⟨k', -, hk'⟩ := (hstored _).1 ((hkeys (p.xe + 1, y) hright hy).2 hnamed)
  have hout := (h.window.has_pos k').1.2
  rw [hk'] at hout
  exact absurd hout (Nat.not_succ_le_self p.xe)

/-- **A run of pixels is painted exactly when** there is none, or it starts
at the window's origin, fits the window's first row, and its colours have
their bytes alike. -/
theorem paints_blitLine_iff (h : p.Sound) (pixel : List Color) {x y : ℕ} (hx : x < lcdW)
    (hfits : x + pixel.length ≤ lcdW) (hy : y < lcdH) :
    Paints p (lcdBlitLine st7789 pixel x y) (runCells pixel x y) ↔
      pixel = [] ∨ ((p.xs = x ∧ p.ys = y) ∧ pixel.length ≤ p.xe - p.xs + 1 ∧
        ∀ c ∈ pixel, changeByteOrder c = c) := by
  have hframe : ∀ frame : ℕ × ℕ → Color,
      ((p.withFrame frame).run (lcdBlitLine st7789 pixel x y)).frame
        = Stores.apply frame (h.window.stores 0 (pixel.map changeByteOrder)) := fun frame =>
    (run_blitLine (p := p.withFrame frame) ⟨h.cols, h.rows⟩ pixel x y).2
  constructor
  · intro hpaints
    by_cases hnil : pixel = []
    · exact Or.inl hnil
    have heq : ∀ q : ℕ × ℕ, q.1 < lcdW → q.2 < lcdH → ∀ frame,
        Stores.apply frame (h.window.stores 0 (pixel.map changeByteOrder)) q
          = Stores.apply frame (runCells pixel x y) q := by
      intro q hqx hqy frame
      rw [← hframe]
      exact hpaints frame q.1 hqx q.2 hqy
    obtain ⟨⟨hxs, hys⟩, hrow⟩ := window_of_keys h hnil hx hfits hy fun q hqx hqy =>
      Stores.mem_keys_iff_of_apply_eq (heq q hqx hqy)
    refine Or.inr ⟨⟨hxs, hys⟩, hrow, fun c hc => ?_⟩
    obtain ⟨i, hi, hci⟩ := List.mem_iff_getElem.1 hc
    have hcell := heq (x + i, y) (by simp only; omega) hy fun _ => 0
    have hstored : ((x + i, y), changeByteOrder c)
        ∈ runCells (pixel.map changeByteOrder) p.xs p.ys := by
      rw [hxs, hys]
      refine List.mem_map.2 ⟨(changeByteOrder c, i), List.mk_mem_zipIdx_iff_getElem?.2 ?_, rfl⟩
      rw [List.getElem?_map, List.getElem?_eq_getElem hi, hci, Option.map_some]
    have hnamed : ((x + i, y), c) ∈ runCells pixel x y := by
      refine List.mem_map.2 ⟨(c, i), List.mk_mem_zipIdx_iff_getElem?.2 ?_, rfl⟩
      rw [List.getElem?_eq_getElem hi, hci]
    rw [stores_eq_runCells h hrow, Stores.apply_of_nodup (nodup_runCells_keys _ _ _) hstored,
      Stores.apply_of_nodup (nodup_runCells_keys _ _ _) hnamed] at hcell
    exact hcell
  · rintro (hnil | ⟨⟨hxs, hys⟩, hrow, hbytes⟩) frame px - py -
    · rw [hframe, hnil]
      rfl
    · have hsame : pixel.map changeByteOrder = pixel := by
        rw [List.map_congr_left hbytes, List.map_id']
      rw [hframe, stores_eq_runCells h hrow, hsame, hxs, hys]

/-! ## After any history -/

/-- The pixels an operation names, and their colours. -/
def GraphicOp.cells : GraphicOp → List ((ℕ × ℕ) × Color)
  | .fastDrawPoint color x y => [((x, y), color)]
  | .hLine color x1 x2 y => (segment x1 y x2 y).map fun q => (q, color)
  | .vLine color x y1 y2 => (segment x y1 x y2).map fun q => (q, color)
  | .blitLine pixel x y => runCells pixel x y

/-- The operation names what the panel `p` stores: the origin alone or, for
a run of pixels, the first row of the window `p` has; in colours whose
bytes are alike. -/
def GraphicOp.Aligned (p : Panel) : GraphicOp → Prop
  | .fastDrawPoint color x y => (x = 0 ∧ y = 0) ∧ changeByteOrder color = color
  | .hLine color x1 x2 y => ((x1 = 0 ∧ y = 0) ∧ x2 = 0 ∧ y = 0) ∧ changeByteOrder color = color
  | .vLine color x y1 y2 => ((x = 0 ∧ y1 = 0) ∧ x = 0 ∧ y2 = 0) ∧ changeByteOrder color = color
  | .blitLine pixel x y => pixel = [] ∨ ((p.xs = x ∧ p.ys = y) ∧
      pixel.length ≤ p.xe - p.xs + 1 ∧ ∀ c ∈ pixel, changeByteOrder c = c)

/-- **A graphic operation touches exactly the pixels it names, in their
colours, if and only if they are what the panel stores**, after any history
of calls on the panel. -/
theorem graphicOp_paints_iff (fonts : Fonts) (frame : ℕ × ℕ → Color) (calls : List Call)
    (hcalls : ∀ c ∈ calls, c.OnPanel) (g : GraphicOp) (hg : g.OnPanel) :
    Paints (called fonts frame calls) g.writes g.cells ↔ g.Aligned (called fonts frame calls) := by
  have hsound := sound_called fonts frame hcalls
  cases g with
  | fastDrawPoint color x y => exact paints_fastDrawPoint_iff _ color hg.1 hg.2
  | hLine color x1 x2 y => exact paints_drawLine_iff _ color hg.1.1 hg.2 hg.1.2 hg.2
  | vLine color x y1 y2 => exact paints_drawLine_iff _ color hg.1 hg.2.1 hg.1 hg.2.2
  | blitLine pixel x y => exact paints_blitLine_iff hsound pixel hg.1.1 hg.1.2 hg.2

/-- A run of two pixels, after a point and a line. -/
theorem graphicOp_paints_iff_two_pixels :
    Paints (called blankFonts (fun _ => 0) [.draw (.drawPoint 3 4), .graphic (.hLine red 2 9 5)])
        (lcdBlitLine st7789 [white, 0] 3 4) (runCells [white, 0] 3 4) ↔
      (GraphicOp.blitLine [white, 0] 3 4).Aligned
        (called blankFonts (fun _ => 0) [.draw (.drawPoint 3 4), .graphic (.hLine red 2 9 5)]) :=
  graphicOp_paints_iff blankFonts (fun _ => 0)
    [.draw (.drawPoint 3 4), .graphic (.hLine red 2 9 5)]
    (by simp [Call.OnPanel, Draw.OnPanel, GraphicOp.OnPanel])
    (.blitLine [white, 0] 3 4) (by simp [GraphicOp.OnPanel])

/-- A red point at (5, 7), right after start-up: the origin shows `0x00F8`
and (5, 7) stays white. -/
theorem fastDrawPoint_misses_pixel :
    ((called blankFonts (fun _ => 0) []).run
        (lcdFastDrawPoint st7789 red (5 : ℕ) (7 : ℕ))).frame (0, 0) = 0x00F8 ∧
      ((called blankFonts (fun _ => 0) []).run
        (lcdFastDrawPoint st7789 red (5 : ℕ) (7 : ℕ))).frame (5, 7) = white ∧
      ¬ Paints (called blankFonts (fun _ => 0) [])
        (lcdFastDrawPoint st7789 red (5 : ℕ) (7 : ℕ)) [((5, 7), red)] := by
  have hpoint := (fastDrawPoint_atOrigin (called blankFonts (fun _ => 0) []) red
    (x := 5) (y := 7) (by decide) (by decide)).frame
  refine ⟨?_, ?_, fun hpaints => ?_⟩
  · rw [hpoint, Function.update_self]
    decide
  · rw [hpoint, Function.update_of_ne (by decide), called, List.flatMap_nil, Panel.run_nil]
    exact init_frame _ (by decide) (by decide)
  · have halike := (paints_fastDrawPoint_iff _ red (by decide) (by decide)).1 hpaints
    exact absurd halike (by decide)

end Lcd

end RtSpark
