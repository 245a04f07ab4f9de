import RtSpark.Reader.Lossless
import RtSpark.Lcd.ShowString
/-!
# The page on the panel

The layout loop of `DispSizeCalculator` counts rows and columns, the loop
of `lcd_show_string` moves a pixel cursor that wraps late. On the text of
a page, drawn from the second row on, the two run in lock-step
(`show_lockstep`): `Aligned` says what the cursor is where the paginator
is at a row and a column, a full row being the one place where the cursor
has yet to wrap. The page ends at a head of the layout loop, so the text
loop ends there.
-/

namespace RtSpark

namespace Reader

open Lcd

variable {src beyond : Mem} {n : ℕ} {s s' : DispState} {t : ShowState}
variable {content : CString textSize}

/-! ## The text of a page -/

/-- The content is the window up to the cut. -/
structure IsPage (src : Mem) (n : ℕ) (content : CString textSize) : Prop where
  chars : content.chars = (List.range n).map src
  fits : n ≤ 180

theorem IsPage.length (h : IsPage src n content) : content.chars.length = n := by
  rw [h.chars, List.length_map, List.length_range]

/-- Before the cut the page is the window. -/
theorem IsPage.buf_of_lt (h : IsPage src n content) {i : ℕ} (hi : i < n) :
    textBuf content beyond i = src i := by
  have hfits := h.fits
  have hin : i < 181 := by omega
  have hget : content.chars[i]? = some (src i) := by
    rw [h.chars, List.getElem?_map, List.getElem?_range hi]
    rfl
  have hbuf : textBuf content beyond i = content.chars.getD i 0 := if_pos hin
  rw [hbuf, List.getD_eq_getElem?_getD, hget]
  rfl

/-- And behind it is the terminator. -/
theorem IsPage.buf_end (h : IsPage src n content) : textBuf content beyond n = 0 := by
  have hfits := h.fits
  have hin : n < 181 := by omega
  have hget : content.chars[n]? = none := List.getElem?_eq_none (by rw [h.length])
  have hbuf : textBuf content beyond n = content.chars.getD n 0 := if_pos hin
  rw [hbuf, List.getD_eq_getElem?_getD, hget]
  rfl

/-- The page `Add` makes of a window. -/
theorem isPage_of_add {pageCache : List PageInfo} {page : PageInfo} (hnul : src 180 = 0)
    (hadd : add pageCache src (dispSizeCalculator src maxColumnSize maxLineSize)
      = some (pageCache ++ [page])) :
    IsPage src (dispSizeCalculator src maxColumnSize maxLineSize) page.content := by
  have hcut : dispSizeCalculator src maxColumnSize maxLineSize ≤ 180 := cut_le hnul
  obtain ⟨page', hadd', hchars, -, -⟩ :=
    add_text src pageCache hcut fun i hi => ne_zero_of_lt_cut hi
  rw [hadd] at hadd'
  have heq : page = page' := by simpa using hadd'
  rw [heq]
  exact ⟨hchars, hcut⟩

/-! ## Lock-step -/

/-- Where the cursor stands when the paginator is at row `disp_line` and
column `line_count`. A row that was filled is still to be left. -/
def Aligned (s : DispState) (t : ShowState) : Prop :=
  t.p = s.p ∧
    ((t.x = 12 * s.lineCount ∧ t.y = 24 + 24 * s.dispLine) ∨
      (s.lineCount = 0 ∧ 1 ≤ s.dispLine ∧ t.x = 240 ∧ t.y = 24 * s.dispLine))

/-- The head of a pass brings the cursor to the paginator's cell. -/
theorem head_of_aligned (h : Aligned s t) (hrow : s.lineCount < 20) (hline : s.dispLine < 9) :
    t.head 24 = ⟨s.p, 12 * s.lineCount, 24 + 24 * s.dispLine, t.calls⟩ := by
  obtain ⟨tp, tx, ty, calls⟩ := t
  obtain ⟨hp, ⟨hx, hy⟩ | ⟨hc, hl, hx, hy⟩⟩ := h
  · simp only at hp hx hy
    rw [hp, hx, hy]
    rcases wrapX_cases 24 ⟨s.p, 12 * s.lineCount, 24 + 24 * s.dispLine, calls⟩ with
      ⟨-, heq⟩ | ⟨hlt, -⟩
    · rcases wrapY_cases 24 ⟨s.p, 12 * s.lineCount, 24 + 24 * s.dispLine, calls⟩ with
        ⟨-, heq'⟩ | ⟨hlt, -⟩
      · rw [ShowState.head, heq, heq']
      · simp only at hlt
        omega
    · simp only at hlt
      omega
  · simp only at hp hx hy
    have hwrap : (24 * s.dispLine + 24) % 2 ^ 16 = 24 + 24 * s.dispLine := by omega
    rw [hp, hx, hy, hc]
    rcases wrapX_cases 24 ⟨s.p, 240, 24 * s.dispLine, calls⟩ with ⟨hle, -⟩ | ⟨-, heq⟩
    · simp only at hle
      omega
    · rw [ShowState.head, heq]
      simp only [hwrap]
      rcases wrapY_cases 24 ⟨s.p, 0, 24 + 24 * s.dispLine, calls⟩ with ⟨-, heq'⟩ | ⟨hlt, -⟩
      · rw [heq']
      · simp only at hlt
        omega

/-- What the text loop draws of the character the paginator is at: nothing
of a line break or a space, nor where the paginator ends the row first. -/
def drawnAt (src : Mem) (s : DispState) : Option TextCall :=
  if src s.p = lf ∨ src s.p = cr ∨ src s.p = 0x20 then none
  else if src s.p < 0x80 then
    some (.showChar (12 * s.lineCount) (24 + 24 * s.dispLine) (src s.p) 24)
  else if s.lineCount + 1 = maxLineSize then none
  else
    some (.showChinese (12 * s.lineCount) (24 + 24 * s.dispLine) (src s.p) (src (s.p + 1)) 24)

/-- A double-byte character is no blank. -/
theorem not_blank_of_ge {b : UInt8} (h : 0x80 ≤ b) : ¬ (b = lf ∨ b = cr ∨ b = 0x20) := by
  rintro (rfl | rfl | rfl) <;> revert h <;> decide

/-- A row that a character fills is a row the cursor has yet to leave. -/
theorem aligned_wrap {p need line col : ℕ} {calls : List TextCall} :
    Aligned (DispState.wrap 20 ⟨p, need, line, col⟩) ⟨p, 12 * col, 24 + 24 * line, calls⟩ := by
  rcases wrap_cases (L := 20) ⟨p, need, line, col⟩ with ⟨-, heq⟩ | ⟨hfull, heq⟩
  · rw [heq]
    exact ⟨rfl, Or.inl ⟨rfl, rfl⟩⟩
  · rw [heq]
    simp only at hfull
    refine ⟨rfl, Or.inr ⟨rfl, Nat.succ_pos _, ?_, ?_⟩⟩
    · simp only [hfull]
    · simp only [DispState.endLine]
      omega

/-- **One pass of each.** Where the paginator consumes a character of the
page, the text loop consumes the same one, draws it in the paginator's
cell, and stays aligned. -/
theorem show_lockstep (beyond : Mem) (hpage : IsPage src n content) (hal : Aligned s t)
    (hrow : s.lineCount < 20) (hpass : dispPass src 9 20 s = some s') (hn : s.p < n)
    (hn' : s'.p ≤ n) :
    ∃ t', showPass (textBuf content beyond) 24 t = some t' ∧ Aligned s' t' ∧
      t'.calls = t.calls ++ (drawnAt src s).toList := by
  obtain ⟨h0, hline, hstep⟩ := dispPass_cases hpass
  have hhead := head_of_aligned hal hrow hline
  have hp : t.p = s.p := hal.1
  have hbyte : textBuf content beyond s.p = src s.p := hpage.buf_of_lt hn
  have hguard : textBuf content beyond t.p ≠ 0 := by rw [hp, hbyte]; exact h0
  have hx : (12 * s.lineCount + 12) % 2 ^ 16 = 12 * (s.lineCount + 1) := by omega
  have hy : (24 + 24 * s.dispLine + 24) % 2 ^ 16 = 24 + 24 * (s.dispLine + 1) := by omega
  unfold showPass
  rw [if_pos hguard, ← ShowState.head, hhead]
  simp only [hbyte]
  cases hstep with
  | crlf hcr hlf =>
    have hnext : textBuf content beyond (s.p + 1) = lf := by
      rw [hpage.buf_of_lt (by simp only at hn'; omega), hlf]
    rw [if_pos ⟨hcr, hnext⟩]
    refine ⟨_, rfl, ⟨rfl, Or.inl ⟨rfl, hy⟩⟩, ?_⟩
    rw [drawnAt, if_pos (Or.inr (Or.inl hcr))]
    exact (List.append_nil _).symm
  | brk hbrk hpair =>
    have hpair' : ¬ (src s.p = cr ∧ textBuf content beyond (s.p + 1) = lf) := by
      rintro ⟨hcr, hnext⟩
      simp only at hn'
      rcases Nat.lt_or_eq_of_le hn' with hlt | heq
      · rw [hpage.buf_of_lt hlt] at hnext
        exact hpair ⟨hcr, hnext⟩
      · rw [heq, hpage.buf_end] at hnext
        exact absurd hnext (by decide)
    rw [if_neg hpair', if_pos hbrk]
    refine ⟨_, rfl, ⟨rfl, Or.inl ⟨rfl, hy⟩⟩, ?_⟩
    have hnone : src s.p = lf ∨ src s.p = cr ∨ src s.p = 0x20 := hbrk.elim Or.inl fun h =>
      Or.inr (Or.inl h)
    rw [drawnAt, if_pos hnone]
    exact (List.append_nil _).symm
  | single hbrk hlt =>
    have hpair : ¬ (src s.p = cr ∧ textBuf content beyond (s.p + 1) = lf) := fun h =>
      hbrk (Or.inr h.1)
    rw [if_neg hpair, if_neg hbrk, if_pos hlt]
    by_cases hspace : src s.p = 0x20
    · rw [if_pos hspace]
      refine ⟨_, rfl, ?_, ?_⟩
      · simp only [Nat.reduceDiv, hx]
        exact aligned_wrap
      · rw [drawnAt, if_pos (Or.inr (Or.inr hspace))]
        exact (List.append_nil _).symm
    · rw [if_neg hspace]
      refine ⟨_, rfl, ?_, ?_⟩
      · simp only [Nat.reduceDiv, hx]
        exact aligned_wrap
      · have hsome : ¬ (src s.p = lf ∨ src s.p = cr ∨ src s.p = 0x20) := fun h =>
          h.elim (fun h => hbrk (Or.inl h)) fun h => h.elim (fun h => hbrk (Or.inr h)) hspace
        rw [drawnAt, if_neg hsome, if_pos hlt]
        rfl
  | stall hge hcol =>
    have hbrk := not_brk_of_ge hge
    have hlt : ¬ src s.p < 0x80 := UInt8.not_lt.2 hge
    have hright : lcdW < 12 * s.lineCount + 24 := by rw [lcdW_eq]; omega
    rw [if_neg fun h => hbrk (Or.inr h.1), if_neg hbrk, if_neg hlt, if_pos hright]
    refine ⟨_, rfl, ⟨rfl, Or.inl ⟨rfl, hy⟩⟩, ?_⟩
    have hlast : s.lineCount + 1 = maxLineSize := hcol
    rw [drawnAt, if_neg (not_blank_of_ge hge), if_neg hlt, if_pos hlast]
    exact (List.append_nil _).symm
  | double hge hcol =>
    have hbrk := not_brk_of_ge hge
    have hlt : ¬ src s.p < 0x80 := UInt8.not_lt.2 hge
    have hright : ¬ lcdW < 12 * s.lineCount + 24 := by rw [lcdW_eq]; omega
    have hx2 : (12 * s.lineCount + 24) % 2 ^ 16 = 12 * (s.lineCount + 2) := by omega
    have hnext : textBuf content beyond (s.p + 1) = src (s.p + 1) := by
      rw [wrap_p] at hn'
      exact hpage.buf_of_lt (by simp only at hn'; omega)
    rw [if_neg fun h => hbrk (Or.inr h.1), if_neg hbrk, if_neg hlt, if_neg hright]
    refine ⟨_, rfl, ?_, ?_⟩
    · simp only [hx2]
      exact aligned_wrap
    · have hlast : ¬ s.lineCount + 1 = maxLineSize := hcol
      rw [drawnAt, if_neg (not_blank_of_ge hge), if_neg hlt, if_neg hlast, hnext]
      rfl

/-! ## The page -/

/-- The heads of the layout loop at which it consumed the page, or ended a
row of it early. -/
def pageHeads (src : Mem) : List DispState :=
  (Loop.visited (dispPass src maxColumnSize maxLineSize) (dispBound maxColumnSize maxLineSize)
    .init).filter fun s => s.p < dispSizeCalculator src maxColumnSize maxLineSize

/-- Past the cut no head is one of the page. -/
theorem filter_visited_eq_nil (src : Mem) (k : ℕ) (h : n ≤ s.p) :
    (Loop.visited (dispPass src 9 20) k s).filter (fun u => u.p < n) = [] := by
  refine List.filter_eq_nil_iff.2 fun u hu => ?_
  have hle := disp_p_mono (Loop.reaches_of_mem_visited hu)
  simp only [decide_eq_true_eq]
  omega

/-- **The two loops, to the cut.** `k` passes end the layout loop, and the
cut is one of its heads from here on. -/
theorem show_page (beyond : Mem) (hpage : IsPage src n content) {c : DispState} (hcut : c.p = n) :
    ∀ (k : ℕ) (s : DispState) (t : ShowState), Loop.Reaches (dispPass src 9 20) .init s →
      Loop.Reaches (dispPass src 9 20) s c → dispPass src 9 20 (Loop.run (dispPass src 9 20) k s)
        = none → Aligned s t →
      ∃ t', Loop.Exits (showPass (textBuf content beyond) 24) t t' ∧ t'.p = n ∧
        t'.calls = t.calls ++
          ((Loop.visited (dispPass src 9 20) k s).filter fun u => u.p < n).filterMap
            (drawnAt src) := by
  intro k
  -- at the cut the text ends
  have hend : ∀ (s : DispState) (t : ShowState), s.p = n → Aligned s t →
      showPass (textBuf content beyond) 24 t = none := by
    intro s t hp hal
    have hnul : textBuf content beyond t.p = 0 := by rw [hal.1, hp, hpage.buf_end]
    unfold showPass
    exact if_neg fun h0 => h0 hnul
  induction k with
  | zero =>
    intro s t _ hsc hexit hal
    have heq : c = s := hsc.eq_of_none hexit
    have hp : s.p = n := by rw [← heq]; exact hcut
    exact ⟨t, ⟨Relation.ReflTransGen.refl, hend s t hp hal⟩, hal.1.trans hp,
      (List.append_nil _).symm⟩
  | succ k ih =>
    intro s t hs hsc hexit hal
    have hle : s.p ≤ n := by rw [← hcut]; exact disp_p_mono hsc
    rcases Nat.lt_or_eq_of_le hle with hlt | heq
    · have hne : c ≠ s := fun h => by rw [h] at hcut; omega
      cases hpass : dispPass src 9 20 s with
      | none => exact absurd (hsc.eq_of_none hpass) hne
      | some s' =>
        have hs'c : Loop.Reaches (dispPass src 9 20) s' c := hsc.of_some hpass hne
        have hn' : s'.p ≤ n := by rw [← hcut]; exact disp_p_mono hs'c
        have hrow : s.lineCount < 20 := (dispInv_of_reaches (by decide) hs).row
        obtain ⟨t₁, hshow, hal', hcalls⟩ :=
          show_lockstep beyond hpage hal hrow hpass hlt hn'
        rw [Loop.run_succ_of_some hpass] at hexit
        obtain ⟨t', hexits, hp', hcalls'⟩ := ih s' t₁ (hs.tail hpass) hs'c hexit hal'
        refine ⟨t', ⟨hexits.1.head hshow, hexits.2⟩, hp', ?_⟩
        rw [hcalls', hcalls, Loop.visited_succ_of_some hpass,
          List.filter_cons_of_pos (by simpa using hlt), List.append_assoc]
        cases hdrawn : drawnAt src s with
        | none => rw [List.filterMap_cons_none hdrawn]; rfl
        | some call => rw [List.filterMap_cons_some hdrawn]; rfl
    · refine ⟨t, ⟨Relation.ReflTransGen.refl, hend s t heq hal⟩, hal.1.trans heq, ?_⟩
      rw [filter_visited_eq_nil src (k + 1) (Nat.le_of_eq heq.symm)]
      exact (List.append_nil _).symm

/-- The call draws a single or a double-byte character in the grid of
`MAX_COLUMN_SIZE` rows and `MAX_LINE_SIZE` columns below the first row. -/
def OnGrid : TextCall → Prop
  | .clear _ => False
  | .showChar x y _ _ => ∃ row col, row < maxColumnSize ∧ col + 1 ≤ maxLineSize ∧
      x = 12 * col ∧ y = 24 + 24 * row
  | .showChinese x y _ _ _ => ∃ row col, row < maxColumnSize ∧ col + 2 ≤ maxLineSize ∧
      x = 12 * col ∧ y = 24 + 24 * row

/-- What is drawn of a head the loop goes on from lies on the grid. -/
theorem onGrid_of_drawnAt {call : TextCall} (hs : Loop.Reaches (dispPass src 9 20) .init s)
    (hpass : dispPass src 9 20 s = some s') (hdrawn : drawnAt src s = some call) : OnGrid call := by
  have hrow : s.lineCount < 20 := (dispInv_of_reaches (by decide) hs).row
  have hline : s.dispLine < 9 := (dispPass_cases hpass).2.1
  unfold drawnAt at hdrawn
  split at hdrawn
  · cases hdrawn
  · split at hdrawn
    · have heq := Option.some.inj hdrawn
      rw [← heq]
      exact ⟨s.dispLine, s.lineCount, hline, hrow, rfl, rfl⟩
    · split at hdrawn
      · cases hdrawn
      · rename_i hlast
        have heq := Option.some.inj hdrawn
        rw [maxLineSize_eq] at hlast
        rw [← heq]
        refine ⟨s.dispLine, s.lineCount, hline, ?_, rfl, rfl⟩
        rw [maxLineSize_eq]
        omega

/-- **The paginator and the renderer agree.** A page drawn from the second
row on is consumed whole, each of its characters drawn in the row and the
column the paginator counted it in, and nothing else: the panel is not
cleared on the way. -/
theorem page_layout (src beyond : Mem) (hnul : src 180 = 0) (pageCache : List PageInfo)
    (page : PageInfo)
    (hadd : add pageCache src (dispSizeCalculator src maxColumnSize maxLineSize)
      = some (pageCache ++ [page])) :
    ∃ t, Loop.Exits (showPass (textBuf page.content beyond) chnFont24x24)
        ⟨0, 0, chnFont24x24, []⟩ t ∧
      t.p = page.content.strlen ∧ t.calls = (pageHeads src).filterMap (drawnAt src) ∧
      ∀ call ∈ t.calls, OnGrid call := by
  have hpage := isPage_of_add hnul hadd
  obtain ⟨c, hc, hcut, -⟩ := cut_visited src maxColumnSize (L := maxLineSize) (by decide)
  have hexit := dispLoop_exits src maxColumnSize (L := maxLineSize) (by decide)
  obtain ⟨t, hexits, hp, hcalls⟩ := show_page beyond hpage hcut
    (dispBound maxColumnSize maxLineSize) .init ⟨0, 0, 24, []⟩ Relation.ReflTransGen.refl hc
    hexit.2 ⟨rfl, Or.inl ⟨rfl, rfl⟩⟩
  have hcalls' : t.calls = (pageHeads src).filterMap (drawnAt src) := hcalls
  refine ⟨t, hexits, by rw [hp, CString.strlen, hpage.length], hcalls', ?_⟩
  intro call hcall
  rw [hcalls'] at hcall
  obtain ⟨s, hs, hdrawn⟩ := List.mem_filterMap.1 hcall
  have hvisited := (List.mem_filter.1 hs).1
  obtain ⟨s', hpass⟩ := Loop.exists_of_mem_visited hvisited
  exact onGrid_of_drawnAt (Loop.reaches_of_mem_visited hvisited) hpass hdrawn

/-- A page of a letter, a line end and a double-byte character. -/
theorem page_layout_two_rows :
    ∃ t, Loop.Exits (showPass (textBuf ⟨[0x61, 0x0D, 0x0A, 0xB0, 0xA1], by simp, by decide⟩
        Mem.zeros) chnFont24x24) ⟨0, 0, chnFont24x24, []⟩ t ∧ t.p = 5 ∧
      t.calls = (pageHeads (Mem.buffer 181 [0x61, 0x0D, 0x0A, 0xB0, 0xA1] Mem.zeros)).filterMap
        (drawnAt (Mem.buffer 181 [0x61, 0x0D, 0x0A, 0xB0, 0xA1] Mem.zeros)) ∧
      ∀ call ∈ t.calls, OnGrid call :=
  page_layout (Mem.buffer 181 [0x61, 0x0D, 0x0A, 0xB0, 0xA1] Mem.zeros) Mem.zeros
    (by decide +kernel) []
    ⟨true, ⟨[0x61, 0x0D, 0x0A, 0xB0, 0xA1], by simp, by decide⟩, 5, 1⟩ (by decide +kernel)

end Reader

end RtSpark
