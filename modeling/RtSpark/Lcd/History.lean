import RtSpark.Lcd.Bus
import RtSpark.Lcd.Model.Draw
import Mathlib.Tactic.Linarith
/-!
# What earlier calls leave behind

A drawing call opens a window and sends pixels; the window stays. So
after any history of calls on the panel the window is one of theirs, and
lies on the panel (`onPanel_drawn`).
-/

namespace RtSpark

namespace Lcd

variable {p : Panel} {ws vs : List BusWrite}

namespace Panel

/-- The windows of the two panels are the same. -/
structure SameWindow (p p' : Panel) : Prop where
  xs : p'.xs = p.xs
  xe : p'.xe = p.xe
  ys : p'.ys = p.ys
  ye : p'.ye = p.ye

/-- The window lies on the panel. -/
structure OnPanel (p : Panel) : Prop where
  cols : p.xs ≤ p.xe ∧ p.xe < lcdW
  rows : p.ys ≤ p.ye ∧ p.ye < lcdH

/-- The window of a panel that has one. -/
def OnPanel.window (h : p.OnPanel) : Window := ⟨p.xs, p.xe, p.ys, p.ye, h.cols.1, h.rows.1⟩

theorem OnPanel.opens (h : p.OnPanel) : p.Opens h.window := ⟨rfl, rfl, rfl, rfl⟩

theorem OnPanel.of_sameWindow {p' : Panel} (h : p.OnPanel) (hsame : p.SameWindow p') :
    p'.OnPanel := by
  obtain ⟨hxs, hxe, hys, hye⟩ := hsame
  refine ⟨?_, ?_⟩
  · rw [hxs, hxe]
    exact h.cols
  · rw [hys, hye]
    exact h.rows

theorem SameWindow.trans {p' p'' : Panel} (h : p.SameWindow p') (h' : p'.SameWindow p'') :
    p.SameWindow p'' :=
  ⟨h'.xs.trans h.xs, h'.xe.trans h.xe, h'.ys.trans h.ys, h'.ye.trans h.ye⟩

/-- A data byte of a pixel leaves the window, and the command in force. -/
theorem data_sameWindow (hcmd : p.cmd = 0x2C) (b : UInt8) :
    p.SameWindow (p.data b) ∧ (p.data b).cmd = 0x2C := by
  unfold data
  rw [hcmd]
  cases p.half with
  | none => exact ⟨⟨rfl, rfl, rfl, rfl⟩, rfl⟩
  | some high =>
    unfold store advance
    simp only [show ((0x2C : UInt8) = 0x2A) = False by decide,
      show ((0x2C : UInt8) = 0x2B) = False by decide, if_false, if_true]
    split <;> exact ⟨⟨rfl, rfl, rfl, rfl⟩, rfl⟩

end Panel

/-! ## Data -/

/-- No command among the writes. -/
def DataOnly (ws : List BusWrite) : Prop := ∀ b ∈ ws, ∀ r, b ≠ .reg r

theorem dataOnly_nil : DataOnly [] := fun _ hb => absurd hb List.not_mem_nil

theorem dataOnly_append (h : DataOnly ws) (h' : DataOnly vs) : DataOnly (ws ++ vs) := by
  intro b hb
  rcases List.mem_append.1 hb with hb | hb
  · exact h b hb
  · exact h' b hb

theorem dataOnly_flatMap {α : Type*} {l : List α} {f : α → List BusWrite}
    (h : ∀ a ∈ l, DataOnly (f a)) : DataOnly (l.flatMap f) := by
  intro b hb
  obtain ⟨a, ha, hba⟩ := List.mem_flatMap.1 hb
  exact h a ha b hba

theorem dataOnly_ram8 (b : UInt8) : DataOnly [.ram8 b] := by
  intro b' hb' r
  rw [List.mem_singleton.1 hb']
  exact BusWrite.noConfusion

theorem dataOnly_ram16 (c : UInt16) : DataOnly [.ram16 c] := by
  intro b' hb' r
  rw [List.mem_singleton.1 hb']
  exact BusWrite.noConfusion

theorem dataOnly_dataBuffer (sendBuf : List UInt8) : DataOnly (lcdWriteDataBuffer sendBuf) := by
  intro b hb r
  obtain ⟨a, -, rfl⟩ := List.mem_map.1 hb
  exact BusWrite.noConfusion

theorem dataOnly_fillLoop (color : Color) (size sizeRemain : ℕ) :
    DataOnly (fillLoop color size sizeRemain) := by
  induction size, sizeRemain using fillLoop.induct with
  | case1 size sizeRemain ihMore ihLast =>
    rw [fillLoop]
    refine dataOnly_append (dataOnly_dataBuffer _) ?_
    split
    · exact dataOnly_nil
    · rename_i hremain
      split
      · rename_i hlt
        exact ihMore hlt
      · exact ihLast hremain

/-- **Pixel data leaves the window alone.** -/
theorem run_dataOnly (hcmd : p.cmd = 0x2C) (h : DataOnly ws) :
    p.SameWindow (p.run ws) ∧ (p.run ws).cmd = 0x2C := by
  induction ws generalizing p with
  | nil => exact ⟨⟨rfl, rfl, rfl, rfl⟩, hcmd⟩
  | cons b ws ih =>
    have hrest : DataOnly ws := fun b' hb' => h b' (List.mem_cons_of_mem _ hb')
    have hfirst : p.SameWindow (p.write b) ∧ (p.write b).cmd = 0x2C := by
      cases b with
      | reg r => exact absurd rfl (h _ (List.mem_cons_self ..) r)
      | ram8 b => exact Panel.data_sameWindow hcmd b
      | ram16 c =>
        obtain ⟨hsame, hcmd'⟩ := Panel.data_sameWindow hcmd (lowByte c)
        obtain ⟨hsame', hcmd''⟩ := Panel.data_sameWindow hcmd' (highByte c)
        exact ⟨hsame.trans hsame', hcmd''⟩
    obtain ⟨hsame, hcmd'⟩ := ih hfirst.2 hrest
    exact ⟨hfirst.1.trans hsame, hcmd'⟩

/-- **A call that opens a window on the panel leaves it there.** -/
theorem onPanel_addressSet {x1 y1 x2 y2 : ℕ} (hx : x1 ≤ x2 ∧ x2 < lcdW) (hy : y1 ≤ y2 ∧ y2 < lcdH)
    (h : DataOnly ws) : (p.run (lcdAddressSet st7789 x1 y1 x2 y2 ++ ws)).OnPanel := by
  rw [lcdW_eq] at hx
  rw [lcdH_eq] at hy
  rw [Panel.run_append, run_addressSet p (by omega) (by omega) (by omega) (by omega)]
  refine Panel.OnPanel.of_sameWindow ⟨?_, ?_⟩ (run_dataOnly rfl h).1
  · exact hx
  · exact hy

/-- The far corner of an image, in 16 bits. -/
theorem addressSet_pred (x y : ℕ) {x2 y2 : ℕ} (hx : 0 < x2) (hy : 0 < y2) :
    lcdAddressSet st7789 x y (x2 + (2 ^ 16 - 1)) (y2 + (2 ^ 16 - 1)) =
      lcdAddressSet st7789 x y (x2 - 1) (y2 - 1) := by
  have hpred : ∀ n, 0 < n → UInt16.ofNat (n + (2 ^ 16 - 1)) = UInt16.ofNat (n - 1) := by
    intro n hn
    refine UInt16.toNat_inj.1 ?_
    rw [UInt16.toNat_ofNat', UInt16.toNat_ofNat']
    omega
  rw [lcdAddressSet_st7789, lcdAddressSet_st7789, hpred _ hx, hpred _ hy]

/-! ## The calls -/

/-- A drawing call, with what it finds of colours, heap and pixels. -/
inductive Draw where
  | fill (malloc : Bool) (xStart yStart xEnd yEnd : ℕ) (color : Color)
  | showChar (fore back : Color) (malloc : Option Mem) (x y : ℕ) (data : UInt8) (size : ℕ)
  | drawPoint (x y : ℕ)
  | fillArray (xStart yStart xEnd yEnd : ℕ) (pcolor : ℕ → Color)
  | showImage (x y length wide : ℕ) (image : Mem)
  | clear (color : Color)

def Draw.writes (fonts : Fonts) : Draw → List BusWrite
  | .fill malloc xStart yStart xEnd yEnd color =>
    lcdFill st7789 malloc xStart yStart xEnd yEnd color
  | .showChar fore back malloc x y data size =>
    lcdShowChar st7789 fonts fore back malloc x y data size
  | .drawPoint x y => lcdDrawPoint st7789 x y
  | .fillArray xStart yStart xEnd yEnd pcolor => lcdFillArray st7789 xStart yStart xEnd yEnd pcolor
  | .showImage x y length wide image => lcdShowImage st7789 x y length wide image
  | .clear color => lcdClear st7789 color

/-- The rectangle from corner to corner lies on the panel. -/
def RectOnPanel (xStart yStart xEnd yEnd : ℕ) : Prop :=
  (xStart ≤ xEnd ∧ xEnd < lcdW) ∧ yStart ≤ yEnd ∧ yEnd < lcdH

/-- The arguments name pixels of the panel. -/
def Draw.OnPanel : Draw → Prop
  | .fill _ xStart yStart xEnd yEnd _ => RectOnPanel xStart yStart xEnd yEnd
  | .showChar _ _ _ x y _ size =>
    (size = 16 ∨ size = 24 ∨ size = 32) ∧ x + size / 2 ≤ lcdW ∧ y + size ≤ lcdH
  | .drawPoint x y => x < lcdW ∧ y < lcdH
  | .fillArray xStart yStart xEnd yEnd _ => RectOnPanel xStart yStart xEnd yEnd
  | .showImage x y length wide _ =>
    (0 < length ∧ x + length ≤ lcdW) ∧ 0 < wide ∧ y + wide ≤ lcdH
  | .clear _ => True

theorem dataOnly_fill (malloc : Bool) (size rows cols : ℕ) (color : Color) :
    DataOnly (if malloc then
      if lcdClearSendNumber < size then
        fillLoop color lcdClearSendNumber (size - lcdClearSendNumber)
      else fillLoop color size 0
    else (List.range rows).flatMap fun _ => (List.range cols).flatMap fun _ =>
      lcdWriteHalfWord color) := by
  split
  · split
    · exact dataOnly_fillLoop _ _ _
    · exact dataOnly_fillLoop _ _ _
  · exact dataOnly_flatMap fun _ _ => dataOnly_flatMap fun _ _ => dataOnly_ram16 _

theorem lcdClear_st7789 (color : Color) :
    lcdClear st7789 color = [.reg 0x2C] ++ List.replicate 57600 (.ram16 color) := rfl

/-- `lcd_clear` keeps the window it finds. -/
theorem run_clear_sameWindow (p : Panel) (color : Color) :
    p.SameWindow (p.run (lcdClear st7789 color)) := by
  have hdata : DataOnly (List.replicate 57600 (BusWrite.ram16 color)) := by
    intro b hb r
    rw [List.eq_of_mem_replicate hb]
    exact BusWrite.noConfusion
  have hcommand : p.SameWindow (p.command 0x2C) := ⟨rfl, rfl, rfl, rfl⟩
  rw [lcdClear_st7789, Panel.run_append]
  exact hcommand.trans (run_dataOnly (p := p.command 0x2C) rfl hdata).1

/-- **A call on the panel leaves a window on the panel**, or the one it
finds. -/
theorem window_draw (fonts : Fonts) {d : Draw} (hd : d.OnPanel) (p : Panel) :
    p.SameWindow (p.run (d.writes fonts)) ∨ (p.run (d.writes fonts)).OnPanel := by
  cases d with
  | fill malloc xStart yStart xEnd yEnd color =>
    exact Or.inr (onPanel_addressSet hd.1 hd.2 (dataOnly_fill _ _ _ _ _))
  | showChar fore back malloc x y data size =>
    obtain ⟨hsize, hx, hy⟩ := hd
    rw [lcdW_eq] at hx
    rw [lcdH_eq] at hy
    have hinside : ¬ charOutside x y size := by
      unfold charOutside
      rw [lcdW_eq, lcdH_eq]
      omega
    have hwindow : ∀ ws, DataOnly ws →
        (p.run (lcdAddressSet st7789 x y (x + size / 2 - 1) (y + size - 1) ++ ws)).OnPanel := by
      intro ws hws
      exact onPanel_addressSet (by rw [lcdW_eq]; omega) (by rw [lcdH_eq]; omega) hws
    simp only [Draw.writes, lcdShowChar]
    rw [if_neg hinside]
    cases face fonts size with
    | none => exact Or.inl ⟨rfl, rfl, rfl, rfl⟩
    | some f =>
      cases malloc with
      | none => exact Or.inr (hwindow _ (dataOnly_flatMap fun _ _ => dataOnly_ram16 _))
      | some heap => exact Or.inr (hwindow _ (dataOnly_dataBuffer _))
  | drawPoint x y =>
    exact Or.inr
      (onPanel_addressSet ⟨Nat.le_refl x, hd.1⟩ ⟨Nat.le_refl y, hd.2⟩ (dataOnly_ram16 _))
  | fillArray xStart yStart xEnd yEnd pcolor =>
    refine Or.inr (onPanel_addressSet hd.1 hd.2
      (dataOnly_flatMap fun _ _ => dataOnly_flatMap fun _ _ => ?_))
    exact dataOnly_append (dataOnly_ram8 _) (dataOnly_ram8 _)
  | showImage x y length wide image =>
    obtain ⟨⟨hlength, hx⟩, hwide, hy⟩ := hd
    simp only [Draw.writes, lcdShowImage]
    rw [lcdW_eq] at hx
    rw [lcdH_eq] at hy
    have hinside : ¬ (lcdW < x + length ∨ lcdH < y + wide) := by
      rw [lcdW_eq, lcdH_eq]
      omega
    rw [if_neg hinside, addressSet_pred x y (by omega) (by omega)]
    exact Or.inr (onPanel_addressSet (by rw [lcdW_eq]; omega) (by rw [lcdH_eq]; omega)
      (dataOnly_dataBuffer _))
  | clear color => exact Or.inl (run_clear_sameWindow p color)

end Lcd

end RtSpark
