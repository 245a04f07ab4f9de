import RtSpark.Flash.Read
import RtSpark.Lcd.Clear
import RtSpark.Lcd.TextReads
/-!
# Where the glyphs are looked up

A single byte is looked up in one of three tables, which end with the
glyph of `'}'`; no bound is checked, and below `' '` the subtraction
wraps. A double-byte character is looked up in the font partition, where
the flash layer checks the access. So a text's lookups stay in the fonts
exactly where no other single byte stands in it than the line ends and
those from `' '` to `'}'` (`lcdShowString_inFont_iff`).
-/

namespace RtSpark

namespace Lcd

open Flash

variable {buf : Mem} {size x y : ℕ} {s s' : ShowState} {fonts : Fonts} {dev : LcdDev}

/-! ## The tables -/

/-- A table has 94 glyphs, and a glyph starts a whole number of them on. -/
theorem face_start (fonts : Fonts) (hsize : FontSize size) :
    ∃ f, face fonts size = some f ∧ 0 < f.count ∧ fontTableLen size = 94 * f.count ∧
      ∀ data, f.start data = data * f.count := by
  rcases hsize with rfl | rfl | rfl
  · refine ⟨byteFace 16 fonts.asc2_1608, rfl, (by decide : 0 < 16), rfl, fun data => ?_⟩
    show data * 16 * 8 / 8 = data * 16
    omega
  · refine ⟨face2412 24 fonts.asc2_2412, rfl, (by decide : 0 < 48), rfl, fun data => ?_⟩
    show data * 384 / 8 = data * 48
    omega
  · refine ⟨byteFace 32 fonts.asc2_3216, rfl, (by decide : 0 < 64), rfl, fun data => ?_⟩
    show data * 32 * 16 / 8 = data * 64
    omega

/-- The subtraction wraps below `' '`. -/
theorem sub_space_lt (data : UInt8) :
    (data - 0x20).toNat < 94 ↔ 0x20 ≤ data ∧ data ≤ 0x7D := by
  have hdata := data.toNat_lt
  rw [UInt8.toNat_sub, UInt8.le_iff_toNat_le, UInt8.le_iff_toNat_le]
  have h20 : (0x20 : UInt8).toNat = 32 := rfl
  have h7D : (0x7D : UInt8).toNat = 125 := rfl
  omega

/-- **A character on the panel is in its table from `' '` to `'}'`.** -/
theorem charReads_lt_iff (fonts : Fonts) (hsize : FontSize size) (hin : ¬ charOutside x y size)
    (data : UInt8) :
    (∀ i ∈ charReads fonts x y data size, i < fontTableLen size) ↔
      0x20 ≤ data ∧ data ≤ 0x7D := by
  obtain ⟨f, hface, hpos, hlen, hstart⟩ := face_start fonts hsize
  rw [← sub_space_lt, charReads, if_neg hin, hface]
  simp only [hlen, hstart]
  generalize (data - 0x20).toNat = glyph
  constructor
  · intro h
    have hfirst := h (glyph * f.count + 0)
      (List.mem_map.2 ⟨0, List.mem_range.2 hpos, rfl⟩)
    exact Nat.lt_of_mul_lt_mul_right hfirst
  · intro hglyph i hi
    obtain ⟨pos, hcount, rfl⟩ := List.mem_map.1 hi
    have hcount' := List.mem_range.1 hcount
    have hmul := Nat.mul_le_mul_right f.count (Nat.succ_le_of_lt hglyph)
    rw [Nat.succ_mul] at hmul
    omega

/-! ## The font partition -/

theorem fontAddr_le (byteHigh byteLow : UInt8) {fontUsed : ℕ} (hused : fontUsed ≤ 128) :
    fontAddr byteHigh byteLow fontUsed ≤ 48705 * 128 := by
  unfold fontAddr
  simp only
  generalize (if byteLow < 0x7F then byteLow - 0x40 else byteLow - 0x41) = low
  have hlow := low.toNat_lt
  have hhigh := (byteHigh - 0x81).toNat_lt
  exact Nat.mul_le_mul (by omega) hused

/-- What a call looks up is there: the bytes of a character in its table,
and a glyph in the font partition and then in `buf[128]`, unless the read
is refused and nothing drawn. -/
def TextCall.InFont (dev : LcdDev) (fonts : Fonts) : TextCall → Prop
  | .clear _ => True
  | .showChar x y data size => ∀ i ∈ charReads fonts x y data size, i < fontTableLen size
  | .showChinese x y byteHigh byteLow size =>
    (fontAddr byteHigh byteLow (size * size / 8) + size * size / 8 ≤ font.len ∧
        size * size / 8 ≤ 128) ∨
      ∀ flash contents o beyond,
        lcdShowChineseErr (fontRead (falFlashDevTable flash) contents o beyond) byteHigh byteLow
            size = -1 ∧
          lcdShowChinese dev (fontRead (falFlashDevTable flash) contents o beyond) x y byteHigh
            byteLow size = []

/-- **No glyph is read outside the font partition**, whatever the two bytes. -/
theorem showChinese_inFont (dev : LcdDev) (fonts : Fonts) (hsize : FontSize size) (x y : ℕ)
    (byteHigh byteLow : UInt8) :
    (TextCall.showChinese x y byteHigh byteLow size).InFont dev fonts := by
  have hused : size * size / 8 ≤ 128 := by rcases hsize with rfl | rfl | rfl <;> decide
  have haddr := fontAddr_le byteHigh byteLow hused
  by_cases hacc : Accepts font (fontAddr byteHigh byteLow (size * size / 8)) (size * size / 8)
  · refine Or.inl ⟨?_, hused⟩
    unfold Accepts at hacc
    rwa [Nat.mod_eq_of_lt (by omega)] at hacc
  · refine Or.inr fun flash contents o beyond => ?_
    have hread := fontRead_eq flash o contents beyond
      (show fontAddr byteHigh byteLow (size * size / 8) < 2 ^ 32 by omega)
      (show size * size / 8 < 2 ^ 16 by omega)
    rw [if_neg hacc] at hread
    unfold lcdShowChineseErr lcdShowChinese
    simp only [hread]
    exact ⟨trivial, trivial⟩

/-! ## The text loop -/

/-- What a pass adds to the calls once its head is done. -/
theorem showStep_adds (hstep : ShowStep buf size s s') :
    ∃ added, s'.calls = s.calls ++ added ∧ ∀ call ∈ added,
      (call = .showChar s.x s.y (buf s.p) size ∧ ¬ (buf s.p = lf ∨ buf s.p = cr) ∧
          buf s.p < 0x80) ∨
        call = .showChinese s.x s.y (buf s.p) (buf (s.p + 1)) size := by
  have hnone : ∃ added, s.calls = s.calls ++ added ∧ ∀ call ∈ added,
      (call = .showChar s.x s.y (buf s.p) size ∧ ¬ (buf s.p = lf ∨ buf s.p = cr) ∧
          buf s.p < 0x80) ∨
        call = .showChinese s.x s.y (buf s.p) (buf (s.p + 1)) size :=
    ⟨[], (List.append_nil _).symm, fun call hcall => absurd hcall List.not_mem_nil⟩
  cases hstep with
  | crlf _ _ => exact hnone
  | brk _ _ => exact hnone
  | space _ => exact hnone
  | stall _ _ => exact hnone
  | single hb hlt _ =>
    exact ⟨_, rfl, fun call hcall => Or.inl ⟨List.mem_singleton.1 hcall, hb, hlt⟩⟩
  | double _ _ => exact ⟨_, rfl, fun call hcall => Or.inr (List.mem_singleton.1 hcall)⟩

/-- The calls a pass adds: the panel is cleared, or a character is drawn. -/
theorem mem_added_calls {call : TextCall} (hpass : showPass buf size s = some s')
    (hcall : call ∈ s'.calls.drop s.calls.length) :
    call = .clear red ∨
      (call = .showChar (s.head size).x (s.head size).y (buf s.p) size ∧
        ¬ (buf s.p = lf ∨ buf s.p = cr) ∧ buf s.p < 0x80) ∨
      call = .showChinese (s.head size).x (s.head size).y (buf s.p) (buf (s.p + 1)) size := by
  obtain ⟨-, hstep⟩ := showPass_cases hpass
  obtain ⟨hp, -, -, -, hcalls⟩ := head_fits size s
  obtain ⟨added, hadded, hall⟩ := showStep_adds hstep
  rw [hp] at hall
  rcases hcalls with heq | heq
  · rw [hadded, heq, List.drop_left] at hcall
    exact Or.inr (hall call hcall)
  · rw [hadded, heq, List.append_assoc, List.drop_left] at hcall
    rcases List.mem_cons.1 hcall with rfl | hcall
    · exact Or.inl rfl
    · exact Or.inr (hall call hcall)

/-- A single byte that is no space is drawn. -/
theorem showChar_mem_added {b : UInt8} (ht : TokenAt buf s.p (.single b)) (hspace : b ≠ 0x20)
    (hpass : showPass buf size s = some s') :
    .showChar (s.head size).x (s.head size).y b size ∈ s'.calls.drop s.calls.length := by
  obtain ⟨-, hstep⟩ := showPass_cases hpass
  obtain ⟨hp, -, -, -, hcalls⟩ := head_fits size s
  generalize htok : Token.single b = t at ht
  cases ht with
  | crlf _ _ => cases htok
  | brk _ _ => cases htok
  | double _ => cases htok
  | single h0 hb hlt =>
    cases htok
    rw [← hp] at hb hlt hspace ⊢
    have hadd : s'.calls = (s.head size).calls ++
        [.showChar (s.head size).x (s.head size).y (buf (s.head size).p) size] := by
      cases hstep with
      | crlf hcr _ => exact absurd (Or.inr hcr) hb
      | brk hb' _ => exact absurd hb' hb
      | space hsp => exact absurd hsp hspace
      | single _ _ _ => rfl
      | stall hge _ => exact absurd hge (UInt8.not_le.2 hlt)
      | double hge _ => exact absurd hge (UInt8.not_le.2 hlt)
    rcases hcalls with heq | heq
    · rw [hadd, heq, List.drop_left]
      exact List.mem_singleton.2 rfl
    · rw [hadd, heq, List.append_assoc, List.drop_left]
      exact List.mem_cons_of_mem _ (List.mem_singleton.2 rfl)

/-- The checks at the head of a pass make the one of `lcd_show_char` idle. -/
theorem head_inside (hsize : FontSize size) (s : ShowState) :
    ¬ charOutside (s.head size).x (s.head size).y size := by
  obtain ⟨-, hx, hy, -⟩ := head_fits size s
  have hle : size ≤ 32 := by rcases hsize with rfl | rfl | rfl <;> decide
  unfold charOutside
  rw [lcdW_eq, lcdH_eq]
  omega

/-- **Every glyph of a text is looked up inside its font exactly where the
text's single bytes are line ends and those from `' '` to `'}'`**, at every
size and wherever the text starts. -/
theorem lcdShowString_inFont_iff (dev : LcdDev) (fonts : Fonts) (formatted : List UInt8)
    (beyond : Mem) (x y size : ℕ) (hsize : FontSize size) :
    (∀ s s', Loop.Reaches (showPass (formatBuf formatted beyond) size) ⟨0, x, y, []⟩ s →
      showPass (formatBuf formatted beyond) size s = some s' →
      s.p < (formatText formatted).length →
      ∀ call ∈ s'.calls.drop s.calls.length, call.InFont dev fonts) ↔
    ∀ b, Token.single b ∈ tokens (formatText formatted) → 0x20 ≤ b ∧ b ≤ 0x7D := by
  have hloop := show_tokenLoop (formatBuf formatted beyond) hsize
  have hw := holds_formatText formatted beyond
  constructor
  · intro h b hb
    by_cases hspace : b = 0x20
    · rw [hspace]
      decide
    · obtain ⟨ts, us, htok⟩ := List.append_of_mem hb
      obtain ⟨s, hs, hp⟩ := hloop.reaches hw Relation.ReflTransGen.refl
        (show tokens ((formatText formatted).drop (⟨0, x, y, []⟩ : ShowState).p)
          = ts ++ .single b :: us from htok)
      have hp' : s.p = sizeAll ts := hp.trans (Nat.zero_add _)
      obtain ⟨hrest, hle⟩ := tokens_drop htok
      rw [← hp'] at hrest hle
      have ht := hw.tokenAt hrest.symm
      have hlt : s.p < (formatText formatted).length := by
        refine Nat.lt_of_le_of_ne hle fun hend => ht.ne_zero ?_
        rw [hend]
        exact hw.nul
      obtain ⟨s', hpass⟩ := exists_showPass size ht.ne_zero
      have hcall := h s s' hs hpass hlt _ (showChar_mem_added ht hspace hpass)
      exact (charReads_lt_iff fonts hsize (head_inside hsize s) b).1 hcall
  · intro h s s' hs hpass hlt call hcall
    rcases mem_added_calls hpass hcall with rfl | ⟨rfl, hb, h80⟩ | rfl
    · trivial
    · refine (charReads_lt_iff fonts hsize (head_inside hsize s) _).2 (h _ ?_)
      have h0 := hloop.ne_zero hpass
      rcases hloop.boundary hw rfl hs with ⟨ts, us, htok, hsizeAll⟩ | hpast
      · have hrest := (tokens_drop htok).1
        rw [hsizeAll, (TokenAt.single h0 hb h80).tokens_eq hw hlt] at hrest
        rw [htok, hrest]
        exact List.mem_append_right _ (List.mem_cons_self ..)
      · omega
    · exact showChinese_inFont dev fonts hsize _ _ _ _

/-- A brace and a double-byte character. -/
theorem lcdShowString_inFont_iff_brace :
    (∀ s s',
      Loop.Reaches (showPass (formatBuf [0x7D, 0xB0, 0xA1] Mem.zeros) 24) ⟨0, 0, 0, []⟩ s →
      showPass (formatBuf [0x7D, 0xB0, 0xA1] Mem.zeros) 24 s = some s' →
      s.p < (formatText [0x7D, 0xB0, 0xA1]).length →
      ∀ call ∈ s'.calls.drop s.calls.length, call.InFont st7789 blankFonts) ↔
    ∀ b, Token.single b ∈ tokens (formatText [0x7D, 0xB0, 0xA1]) → 0x20 ≤ b ∧ b ≤ 0x7D :=
  lcdShowString_inFont_iff st7789 blankFonts [0x7D, 0xB0, 0xA1]
    Mem.zeros 0 0 24 (Or.inr (Or.inl rfl))

/-- **A tilde is looked up behind its table**: the first of its bytes is
the first that is not there. -/
theorem lcdShowString_tilde_behind :
    (fontTableLen 24 ∈ charReads blankFonts 0 0 0x7E 24) ∧
      ¬ ∀ s s', Loop.Reaches (showPass (formatBuf [0x7E] Mem.zeros) 24) ⟨0, 0, 0, []⟩ s →
        showPass (formatBuf [0x7E] Mem.zeros) 24 s = some s' →
        s.p < (formatText [0x7E]).length →
        ∀ call ∈ s'.calls.drop s.calls.length,
          call.InFont st7789 blankFonts := by
  have hread : fontTableLen 24 ∈ charReads blankFonts 0 0 0x7E 24 := by
    decide +kernel
  refine ⟨hread, fun h => ?_⟩
  have hcall := h ⟨0, 0, 0, []⟩ ⟨1, 12, 0, [.showChar 0 0 0x7E 24]⟩ Relation.ReflTransGen.refl
    (by decide +kernel) (by decide +kernel) _ (List.mem_singleton.2 rfl)
  exact Nat.lt_irrefl _ (hcall _ hread)

end Lcd

end RtSpark
