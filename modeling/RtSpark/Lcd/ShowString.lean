import RtSpark.Common.DoubleByte
import RtSpark.Lcd.Model.ShowString
import Mathlib.Tactic.Linarith
/-!
# Text stays on the panel

The two checks at the head of a pass bring the cursor to where a single
byte fits (`head_fits`), and a double-byte character is drawn only where
it fits as well. So every cell handed on lies inside the panel, wherever
the text starts. One branch moves the cursor and consumes nothing; it is
taken only where the cursor is too far right for a double-byte character,
which the measure of `showMeasure` counts.
-/

namespace RtSpark

namespace Lcd

open DoubleByte

variable {buf : Mem} {size x y fsize i : ℕ} {text : CString textSize} {beyond : Mem}

/-! ## The glyph -/

/-- The point lies in the cell of `size` pixels a side at `(x, y)`. -/
def InCell (x y size : ℕ) (q : ℕ × ℕ) : Prop :=
  (x ≤ q.1 ∧ q.1 < x + size) ∧ y ≤ q.2 ∧ q.2 < y + size

/-- What the drawing loop has done after `n` bytes: whole bytes of whole
rows, and points inside the cell. -/
structure GlyphInv (x y fsize n : ℕ) (s : GlyphState) : Prop where
  count : 8 * n = fsize * (s.y - y) + (s.x - x)
  col : x ≤ s.x ∧ s.x + 8 ≤ x + fsize ∧ (s.x - x) % 8 = 0
  row : y ≤ s.y
  points : ∀ q ∈ s.points, InCell x y fsize q

theorem glyphInv_init (hpos : 0 < fsize) (hfsize : fsize % 8 = 0) :
    GlyphInv x y fsize 0 ⟨x, y, []⟩ where
  count := by simp
  col := by simp only; omega
  row := Nat.le_refl y
  points := fun q hq => absurd hq List.not_mem_nil

/-- A byte of the glyph stays in the cell. -/
theorem glyphInv_pass (hfsize : fsize % 8 = 0) (hx : x + fsize < 2 ^ 16)
    (hy : y + fsize < 2 ^ 16) {n : ℕ} (hn : n < fsize * fsize / 8) {s : GlyphState}
    (h : GlyphInv x y fsize n s) : GlyphInv x y fsize (n + 1) (glyphPass x fsize buf s n) := by
  obtain ⟨hcount, ⟨hcol, hright, height⟩, hrow, hpoints⟩ := h
  -- fewer bytes than the glyph has leave the pointer above its last row
  have hdown : s.y - y < fsize := by
    have hlt : fsize * (s.y - y) < fsize * fsize := by omega
    exact Nat.lt_of_mul_lt_mul_left hlt
  have hxmod : (s.x + 8) % 2 ^ 16 = s.x + 8 := Nat.mod_eq_of_lt (by omega)
  have hymod : (s.y + 1) % 2 ^ 16 = s.y + 1 := Nat.mod_eq_of_lt (by omega)
  have hdrawn : ∀ q ∈ s.points ++ ((List.range 8).filter fun i => (buf n).toNat.testBit i).map
      fun i => ((s.x + i) % 2 ^ 16, s.y), InCell x y fsize q := by
    intro q hq
    rcases List.mem_append.1 hq with hq | hq
    · exact hpoints q hq
    · obtain ⟨i, hi, rfl⟩ := List.mem_map.1 hq
      have hi8 := List.mem_range.1 (List.mem_filter.1 hi).1
      have himod : (s.x + i) % 2 ^ 16 = s.x + i := Nat.mod_eq_of_lt (by omega)
      unfold InCell
      simp only [himod]
      omega
  unfold glyphPass
  simp only [hxmod, hymod]
  split
  · rename_i hend
    have hlast : s.x + 8 = x + fsize := by omega
    refine ⟨?_, ⟨Nat.le_refl x, by simp only; omega, by simp only; omega⟩, by simp only; omega,
      hdrawn⟩
    have hsub : s.y + 1 - y = s.y - y + 1 := by omega
    simp only [hsub, Nat.mul_succ]
    omega
  · rename_i hmid
    exact ⟨by simp only; omega, ⟨by simp only; omega, by simp only; omega, by simp only; omega⟩,
      hrow, hdrawn⟩

/-- **A glyph is drawn inside its cell**, whatever its bits. -/
theorem glyphPoints_inCell (hpos : 0 < fsize) (hfsize : fsize % 8 = 0) (hx : x + fsize < 2 ^ 16)
    (hy : y + fsize < 2 ^ 16) (buf : Mem) :
    ∀ q ∈ glyphPoints x y fsize buf, InCell x y fsize q := by
  have hloop : ∀ n, n ≤ fsize * fsize / 8 →
      GlyphInv x y fsize n ((List.range n).foldl (glyphPass x fsize buf) ⟨x, y, []⟩) := by
    intro n
    induction n with
    | zero => exact fun _ => glyphInv_init hpos hfsize
    | succ n ih =>
      intro hn
      rw [List.range_succ, List.foldl_append]
      exact glyphInv_pass hfsize hx hy (by omega) (ih (by omega))
  exact (hloop _ (Nat.le_refl _)).points

/-! ## The head of a pass -/

/-- The sizes the text loop is run with. -/
def FontSize (size : ℕ) : Prop := size = 16 ∨ size = 24 ∨ size = 32

/-- The cursor once both checks are made. -/
def ShowState.head (size : ℕ) (s : ShowState) : ShowState := (s.wrapX size).wrapY size

theorem wrapX_cases (size : ℕ) (s : ShowState) :
    (s.x ≤ 240 - size / 2 ∧ s.wrapX size = s) ∨
      (240 - size / 2 < s.x ∧ s.wrapX size = ⟨s.p, 0, (s.y + size) % 2 ^ 16, s.calls⟩) := by
  unfold ShowState.wrapX
  rw [lcdW_eq]
  by_cases h : 240 - size / 2 < s.x
  · exact Or.inr ⟨h, if_pos h⟩
  · exact Or.inl ⟨by omega, if_neg h⟩

theorem wrapY_cases (size : ℕ) (s : ShowState) :
    (s.y ≤ 240 - size ∧ s.wrapY size = s) ∨
      (240 - size < s.y ∧ s.wrapY size = ⟨s.p, 0, 0, s.calls ++ [.clear red]⟩) := by
  unfold ShowState.wrapY
  rw [lcdH_eq]
  by_cases h : 240 - size < s.y
  · exact Or.inr ⟨h, if_pos h⟩
  · exact Or.inl ⟨by omega, if_neg h⟩

/-- **Past the checks a single byte fits.** The pointer stays, and the
cursor stays or is at the left edge. -/
theorem head_fits (size : ℕ) (s : ShowState) :
    (s.head size).p = s.p ∧ (s.head size).x ≤ 240 - size / 2 ∧ (s.head size).y ≤ 240 - size ∧
      ((s.head size).x = s.x ∨ (s.head size).x = 0) ∧
      ((s.head size).calls = s.calls ∨ (s.head size).calls = s.calls ++ [.clear red]) := by
  unfold ShowState.head
  rcases wrapX_cases size s with ⟨hx, heq⟩ | ⟨-, heq⟩ <;> rw [heq]
  · rcases wrapY_cases size s with ⟨hy, heq'⟩ | ⟨-, heq'⟩ <;> rw [heq']
    · exact ⟨rfl, hx, hy, Or.inl rfl, Or.inl rfl⟩
    · exact ⟨rfl, Nat.zero_le _, Nat.zero_le _, Or.inr rfl, Or.inr rfl⟩
  · rcases wrapY_cases size ⟨s.p, 0, (s.y + size) % 2 ^ 16, s.calls⟩ with ⟨hy, heq'⟩ | ⟨-, heq'⟩ <;>
      rw [heq']
    · exact ⟨rfl, Nat.zero_le _, hy, Or.inr rfl, Or.inl rfl⟩
    · exact ⟨rfl, Nat.zero_le _, Nat.zero_le _, Or.inr rfl, Or.inr rfl⟩

/-! ## One pass -/

/-- What a pass does from the cursor its head leaves. -/
inductive ShowStep (buf : Mem) (size : ℕ) (s : ShowState) : ShowState → Prop
  | crlf : buf s.p = cr → buf (s.p + 1) = lf →
      ShowStep buf size s ⟨s.p + 2, 0, (s.y + size) % 2 ^ 16, s.calls⟩
  | brk : buf s.p = lf ∨ buf s.p = cr → ¬ (buf s.p = cr ∧ buf (s.p + 1) = lf) →
      ShowStep buf size s ⟨s.p + 1, 0, (s.y + size) % 2 ^ 16, s.calls⟩
  | space : buf s.p = 0x20 →
      ShowStep buf size s ⟨s.p + 1, (s.x + size / 2) % 2 ^ 16, s.y, s.calls⟩
  | single : ¬ (buf s.p = lf ∨ buf s.p = cr) → buf s.p < 0x80 → buf s.p ≠ 0x20 →
      ShowStep buf size s ⟨s.p + 1, (s.x + size / 2) % 2 ^ 16, s.y,
        s.calls ++ [.showChar s.x s.y (buf s.p) size]⟩
  | stall : 0x80 ≤ buf s.p → 240 < s.x + size →
      ShowStep buf size s ⟨s.p, 0, (s.y + size) % 2 ^ 16, s.calls⟩
  | double : 0x80 ≤ buf s.p → s.x + size ≤ 240 →
      ShowStep buf size s ⟨s.p + 2, (s.x + size) % 2 ^ 16, s.y,
        s.calls ++ [.showChinese s.x s.y (buf s.p) (buf (s.p + 1)) size]⟩

/-- **The pass, inverted.** -/
theorem showPass_cases {s s' : ShowState} (h : showPass buf size s = some s') :
    buf s.p ≠ 0 ∧ ShowStep buf size (s.head size) s' := by
  unfold showPass at h
  split at h
  · rename_i h0
    refine ⟨h0, ?_⟩
    rw [← ShowState.head] at h
    simp only at h
    split at h
    · rename_i hcrlf
      have heq := Option.some.inj h
      rw [← heq]
      exact .crlf hcrlf.1 hcrlf.2
    · rename_i hcrlf
      split at h
      · rename_i hbrk
        have heq := Option.some.inj h
        rw [← heq]
        exact .brk hbrk hcrlf
      · rename_i hbrk
        split at h
        · rename_i hlt
          split at h
          · rename_i hspace
            have heq := Option.some.inj h
            rw [← heq]
            exact .space hspace
          · rename_i hspace
            have heq := Option.some.inj h
            rw [← heq]
            exact .single hbrk hlt hspace
        · rename_i hlt
          have hge : 0x80 ≤ buf (s.head size).p := UInt8.not_lt.1 hlt
          split at h
          · rename_i hcol
            have heq := Option.some.inj h
            rw [← heq]
            exact .stall hge hcol
          · rename_i hcol
            have heq := Option.some.inj h
            rw [← heq]
            exact .double hge (by rw [lcdW_eq] at hcol; omega)
  · cases h

/-! ## The loop -/

/-- Up to its end the buffer holds the text. -/
theorem textBuf_getElem? (hi : i ≤ text.chars.length) (h0 : textBuf text beyond i ≠ 0) :
    text.chars[i]? = some (textBuf text beyond i) := by
  have hfits := text.fits
  have hbuf : textBuf text beyond i = text.chars.getD i 0 := if_pos (by omega)
  rw [hbuf, List.getD_eq_getElem?_getD] at h0 ⊢
  cases hget : text.chars[i]? with
  | some b => rfl
  | none =>
    rw [hget] at h0
    exact absurd rfl h0

/-- A byte of the text is not its terminator. -/
theorem lt_of_textBuf (hi : i ≤ text.chars.length) (h0 : textBuf text beyond i ≠ 0) :
    i < text.chars.length :=
  (List.getElem?_eq_some_iff.1 (textBuf_getElem? hi h0)).1

/-- The cell of a call lies inside the panel, and what the call draws
inside the cell. -/
def TextCall.InPanel : TextCall → Prop
  | .clear _ => True
  | .showChar x y _ size => (x + size / 2 ≤ lcdW ∧ y + size ≤ lcdH) ∧ ¬ charOutside x y size
  | .showChinese x y _ _ size => (x + size ≤ lcdW ∧ y + size ≤ lcdH) ∧
      ∀ glyph : Mem, ∀ q ∈ glyphPoints x y size glyph, InCell x y size q

/-- What every head of the loop satisfies: the pointer is in the text and
at a character, and what was drawn is on the panel. -/
structure ShowInv (text : CString textSize) (s : ShowState) : Prop where
  inText : s.p ≤ text.chars.length
  whole : charsComplete (text.chars.drop s.p) = true
  drawn : ∀ call ∈ s.calls, call.InPanel

/-- Bytes left, each worth two, and one for a cursor too far right for a
double-byte character. -/
def showMeasure (text : CString textSize) (size : ℕ) (s : ShowState) : ℕ :=
  2 * (text.chars.length - s.p) + if 240 < s.x + size then 1 else 0

/-- Adding a call that is on the panel to calls that are. -/
theorem inPanel_append {calls : List TextCall} {call : TextCall}
    (h : ∀ c ∈ calls, c.InPanel) (hcall : call.InPanel) : ∀ c ∈ calls ++ [call], c.InPanel := by
  intro c hc
  rcases List.mem_append.1 hc with hc | hc
  · exact h c hc
  · rw [List.mem_singleton.1 hc]
    exact hcall

/-- The head of a pass draws nothing off the panel either. -/
theorem showInv_head {s : ShowState} (h : ShowInv text s) : ShowInv text (s.head size) := by
  obtain ⟨hp, -, -, -, hcalls⟩ := head_fits size s
  refine ⟨by rw [hp]; exact h.inText, by rw [hp]; exact h.whole, ?_⟩
  rcases hcalls with heq | heq <;> rw [heq]
  · exact h.drawn
  · exact inPanel_append h.drawn trivial

/-- One single byte on, the text is still whole. -/
theorem whole_single {p : ℕ} (hp : p ≤ text.chars.length)
    (hwhole : charsComplete (text.chars.drop p) = true) (h0 : textBuf text beyond p ≠ 0)
    (hlt : textBuf text beyond p < 0x80) :
    p + 1 ≤ text.chars.length ∧ charsComplete (text.chars.drop (p + 1)) = true := by
  have hget := textBuf_getElem? hp h0
  exact ⟨lt_of_textBuf hp h0, by rw [charsComplete_drop_one hget h0 hlt]; exact hwhole⟩

/-- One double-byte character on, it is too: the second byte is there. -/
theorem whole_double {p : ℕ} (hp : p ≤ text.chars.length)
    (hwhole : charsComplete (text.chars.drop p) = true) (hge : 0x80 ≤ textBuf text beyond p) :
    p + 2 ≤ text.chars.length ∧ charsComplete (text.chars.drop (p + 2)) = true := by
  have h0 : textBuf text beyond p ≠ 0 := by
    intro h0
    rw [h0] at hge
    exact absurd hge (by decide)
  have hget := textBuf_getElem? hp h0
  have hlt := lt_of_textBuf hp h0
  obtain ⟨hlen, heq⟩ := List.getElem?_eq_some_iff.1 hget
  have hdrop := List.drop_eq_getElem_cons hlen
  rw [hdrop, heq] at hwhole
  obtain ⟨c, rest, hrest, hc⟩ := (head_of_charsComplete hwhole).2 hge
  have hget' : text.chars[p + 1]? = some c := by
    have hhead := congrArg List.head? hrest
    rwa [List.head?_drop, List.head?_cons] at hhead
  have hlen' := (List.getElem?_eq_some_iff.1 hget').1
  refine ⟨hlen', ?_⟩
  rw [charsComplete_drop_two hget hget' hge hc, hdrop, heq]
  exact hwhole

/-- **A pass keeps the calls on the panel, and the loop on its way.** -/
theorem showStep_inv (hsize : FontSize size) {s s' : ShowState} (h : ShowInv text s)
    (h0 : textBuf text beyond s.p ≠ 0) (hx : s.x ≤ 240 - size / 2) (hy : s.y ≤ 240 - size)
    (hstep : ShowStep (textBuf text beyond) size s s') :
    ShowInv text s' ∧ showMeasure text size s' < showMeasure text size s := by
  obtain ⟨htext, hwhole, hdrawn⟩ := h
  have hsizes : 16 ≤ size ∧ size ≤ 32 ∧ size % 8 = 0 := by
    rcases hsize with rfl | rfl | rfl <;> decide
  have hlt := lt_of_textBuf htext h0
  cases hstep with
  | crlf hcr hlf =>
    have hcr80 : textBuf text beyond s.p < 0x80 := by rw [hcr]; decide
    obtain ⟨hle, hwhole'⟩ := whole_single htext hwhole h0 hcr80
    have hlf80 : textBuf text beyond (s.p + 1) < 0x80 := by rw [hlf]; decide
    have hlf0 : textBuf text beyond (s.p + 1) ≠ 0 := by rw [hlf]; decide
    obtain ⟨hle', hwhole''⟩ := whole_single hle hwhole' hlf0 hlf80
    refine ⟨⟨hle', hwhole'', hdrawn⟩, ?_⟩
    unfold showMeasure
    simp only
    split <;> split <;> omega
  | brk hbrk _ =>
    have hlt80 : textBuf text beyond s.p < 0x80 := by
      rcases hbrk with hb | hb <;> rw [hb] <;> decide
    obtain ⟨hle, hwhole'⟩ := whole_single htext hwhole h0 hlt80
    refine ⟨⟨hle, hwhole', hdrawn⟩, ?_⟩
    unfold showMeasure
    simp only
    split <;> split <;> omega
  | space hsp =>
    have hlt80 : textBuf text beyond s.p < 0x80 := by rw [hsp]; decide
    obtain ⟨hle, hwhole'⟩ := whole_single htext hwhole h0 hlt80
    refine ⟨⟨hle, hwhole', hdrawn⟩, ?_⟩
    unfold showMeasure
    simp only
    split <;> split <;> omega
  | single _ hlt80 _ =>
    obtain ⟨hle, hwhole'⟩ := whole_single htext hwhole h0 hlt80
    have hcell : (TextCall.showChar s.x s.y (textBuf text beyond s.p) size).InPanel := by
      unfold TextCall.InPanel charOutside
      rw [lcdW_eq, lcdH_eq]
      omega
    refine ⟨⟨hle, hwhole', inPanel_append hdrawn hcell⟩, ?_⟩
    unfold showMeasure
    simp only
    split <;> split <;> omega
  | stall hge hcol =>
    refine ⟨⟨htext, hwhole, hdrawn⟩, ?_⟩
    unfold showMeasure
    simp only
    rw [if_pos hcol, if_neg (by omega)]
    omega
  | double hge hcol =>
    obtain ⟨hle, hwhole'⟩ := whole_double htext hwhole hge
    have hcell : (TextCall.showChinese s.x s.y (textBuf text beyond s.p)
        (textBuf text beyond (s.p + 1)) size).InPanel := by
      refine ⟨⟨by rw [lcdW_eq]; exact hcol, by rw [lcdH_eq]; omega⟩, fun glyph => ?_⟩
      exact glyphPoints_inCell (by omega) hsizes.2.2 (by omega) (by omega) glyph
    refine ⟨⟨hle, hwhole', inPanel_append hdrawn hcell⟩, ?_⟩
    unfold showMeasure
    simp only
    split <;> split <;> omega

/-- A pass, from the head the loop stands at. -/
theorem showPass_inv (hsize : FontSize size) {s s' : ShowState} (h : ShowInv text s)
    (hpass : showPass (textBuf text beyond) size s = some s') :
    ShowInv text s' ∧ showMeasure text size s' < showMeasure text size s := by
  obtain ⟨h0, hstep⟩ := showPass_cases hpass
  obtain ⟨hp, hx, hy, hleft, -⟩ := head_fits size s
  have h0' : textBuf text beyond (s.head size).p ≠ 0 := by rw [hp]; exact h0
  obtain ⟨hinv, hlt⟩ := showStep_inv hsize (showInv_head h) h0' hx hy hstep
  refine ⟨hinv, Nat.lt_of_lt_of_le hlt ?_⟩
  -- the checks bring the cursor to the left edge or leave it
  have hsizes : size ≤ 32 := by rcases hsize with rfl | rfl | rfl <;> decide
  unfold showMeasure
  rw [hp]
  rcases hleft with heq | heq <;> rw [heq]
  rw [if_neg (by omega)]
  omega

/-- **Text is drawn on the panel**, from wherever the cursor starts. -/
theorem lcdShowString_inPanel (text : CString textSize) (beyond : Mem) (x y size : ℕ)
    (hsize : FontSize size) (htext : charsComplete text.chars = true) :
    ∃ t, Loop.Exits (showPass (textBuf text beyond) size) ⟨0, x, y, []⟩ t ∧
      (∀ passes, 2 * textSize ≤ passes →
        lcdShowString passes x y size text beyond = (0, t.calls)) ∧
      ∀ call ∈ t.calls, call.InPanel := by
  have hinit : ShowInv text ⟨0, x, y, []⟩ :=
    ⟨Nat.zero_le _, htext, fun call hcall => absurd hcall List.not_mem_nil⟩
  have hexit : ∀ passes, 2 * textSize ≤ passes →
      Loop.Exits (showPass (textBuf text beyond) size) ⟨0, x, y, []⟩
        (Loop.run (showPass (textBuf text beyond) size) passes ⟨0, x, y, []⟩) := by
    intro passes hpasses
    refine Loop.run_exits (I := ShowInv text) (μ := showMeasure text size)
      (fun s s' hs hpass => showPass_inv hsize hs hpass) hinit ?_
    have hfits := text.fits
    unfold showMeasure
    simp only
    split <;> omega
  refine ⟨_, hexit _ (Nat.le_refl _), ?_, ?_⟩
  · intro passes hpasses
    have hsupported : ¬ (size ≠ 16 ∧ size ≠ 24 ∧ size ≠ 32) := by
      rintro ⟨h16, h24, h32⟩
      rcases hsize with h | h | h
      · exact h16 h
      · exact h24 h
      · exact h32 h
    unfold lcdShowString
    rw [if_neg hsupported, (hexit passes hpasses).unique (hexit _ (Nat.le_refl _))]
  · refine ((hexit _ (Nat.le_refl _)).1.invariant hinit ?_).drawn
    intro s s' hs hpass
    have hpass' : showPass (textBuf text beyond) size s = some s' := hpass
    exact (showPass_inv hsize hs hpass').1

/-- A letter and a double-byte character, from far outside. -/
theorem lcdShowString_inPanel_off_screen :
    ∃ t, Loop.Exits (showPass (textBuf ⟨[0x61, 0xB0, 0xA1], by simp, by decide⟩ Mem.zeros) 24)
        ⟨0, 65535, 65535, []⟩ t ∧
      (∀ passes, 2 * textSize ≤ passes →
        lcdShowString passes 65535 65535 24 ⟨[0x61, 0xB0, 0xA1], by simp, by decide⟩ Mem.zeros
          = (0, t.calls)) ∧
      ∀ call ∈ t.calls, call.InPanel :=
  lcdShowString_inPanel ⟨[0x61, 0xB0, 0xA1], by simp, by decide⟩ Mem.zeros 65535 65535 24
    (Or.inr (Or.inl rfl)) (by decide)

end Lcd

end RtSpark
