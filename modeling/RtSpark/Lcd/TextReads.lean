import RtSpark.Common.TokenLoop
import RtSpark.Lcd.ShowString
import Mathlib.Data.List.GetD
import Mathlib.Data.List.TakeWhile
/-!
# What the text loop reads

The loop of `hal::lcd_show_string` takes two bytes for a character without
looking at the second. Over a whole text it reads up to the NUL and ends
there. Where the formatted text ends in half a character, by itself or
because `rt_vsnprintf` cut it off, the NUL is taken for its second byte
and the loop reads on behind it (`lcdShowString_stopsAtNul_iff`).
-/

namespace RtSpark

namespace Lcd

variable {buf : Mem} {size x y : ℕ} {s s' : ShowState} {t : Token}

/-! ## A pass at a token -/

/-- A pass moves behind the token, or to the left edge where a double-byte
character does not fit. -/
theorem showStep_token (ht : TokenAt buf s.p t) (hstep : ShowStep buf size s s') :
    s'.p = s.p + t.size ∨ 240 < s.x + size ∧ s'.p = s.p ∧ s'.x = 0 := by
  cases hstep with
  | crlf hcr hlf =>
    cases ht with
    | crlf _ _ => exact Or.inl rfl
    | brk _ hpair => exact absurd ⟨hcr, hlf⟩ hpair
    | single _ hb _ => exact absurd (Or.inr hcr) hb
    | double hge =>
      rw [hcr] at hge
      exact absurd hge (by decide)
  | brk hb hpair =>
    cases ht with
    | crlf hcr hlf => exact absurd ⟨hcr, hlf⟩ hpair
    | brk _ _ => exact Or.inl rfl
    | single _ hb' _ => exact absurd hb hb'
    | double hge => exact absurd hge (UInt8.not_le.2 (lt_of_brk hb))
  | space hsp =>
    cases ht with
    | crlf hcr _ =>
      rw [hcr] at hsp
      exact absurd hsp (by decide)
    | brk hb _ => exact Or.inl rfl
    | single _ _ _ => exact Or.inl rfl
    | double hge =>
      rw [hsp] at hge
      exact absurd hge (by decide)
  | single hb hlt _ =>
    cases ht with
    | crlf hcr _ => exact absurd (Or.inr hcr) hb
    | brk hb' _ => exact absurd hb' hb
    | single _ _ _ => exact Or.inl rfl
    | double hge => exact absurd hge (UInt8.not_le.2 hlt)
  | stall _ hcol => exact Or.inr ⟨hcol, rfl, rfl⟩
  | double hge _ =>
    cases ht with
    | crlf hcr _ =>
      rw [hcr] at hge
      exact absurd hge (by decide)
    | brk hb _ => exact absurd hge (UInt8.not_le.2 (lt_of_brk hb))
    | single _ _ hlt => exact absurd hge (UInt8.not_le.2 hlt)
    | double _ => exact Or.inl rfl

/-- Where there is a byte there is a pass. -/
theorem exists_showPass (size : ℕ) (h0 : buf s.p ≠ 0) : ∃ s', showPass buf size s = some s' := by
  unfold showPass
  rw [if_pos h0]
  simp only
  split
  · exact ⟨_, rfl⟩
  · split
    · exact ⟨_, rfl⟩
    · split
      · split <;> exact ⟨_, rfl⟩
      · split <;> exact ⟨_, rfl⟩

theorem showPass_token (ht : TokenAt buf s.p t) (hpass : showPass buf size s = some s') :
    s'.p = s.p + t.size ∨ 240 < (s.head size).x + size ∧ s'.p = s.p ∧ s'.x = 0 := by
  obtain ⟨-, hstep⟩ := showPass_cases hpass
  have hp := (head_fits size s).1
  rw [← hp] at ht ⊢
  exact showStep_token ht hstep

/-- **The text loop reads its text by its tokens.** -/
theorem show_tokenLoop (buf : Mem) (hsize : FontSize size) :
    TokenLoop buf (showPass buf size) ShowState.p where
  stops := fun h0 => if_neg (not_not_intro h0)
  moves := by
    intro s s' t ht hpass
    rcases showPass_token ht hpass with hp | ⟨-, hp, -⟩
    · exact Or.inr hp
    · exact Or.inl hp
  reads := by
    intro s t ht
    obtain ⟨s', hpass⟩ := exists_showPass size ht.ne_zero
    rcases showPass_token ht hpass with hp | ⟨-, hp, hx⟩
    · exact ⟨s, s', Relation.ReflTransGen.refl, rfl, hpass, hp⟩
    · -- from the left edge the character fits
      have ht' : TokenAt buf s'.p t := by
        rw [hp]
        exact ht
      obtain ⟨s'', hpass'⟩ := exists_showPass size ht'.ne_zero
      refine ⟨s', s'', Relation.ReflTransGen.single hpass, hp, hpass', ?_⟩
      have hleft : (s'.head size).x = 0 := by
        rcases (head_fits size s').2.2.2.1 with heq | heq
        · rw [heq, hx]
        · exact heq
      have hle : size ≤ 32 := by rcases hsize with rfl | rfl | rfl <;> decide
      rcases showPass_token ht' hpass' with hp' | ⟨hcol, -, -⟩
      · rw [hp', hp]
      · omega

/-! ## The formatted text -/

theorem formatText_ne_zero (formatted : List UInt8) : ∀ b ∈ formatText formatted, b ≠ 0 := by
  intro b hb
  have hne := List.mem_takeWhile_imp hb
  exact of_decide_eq_true hne

/-- The buffer holds the text, and a NUL behind it. -/
theorem holds_formatText (formatted : List UInt8) (beyond : Mem) :
    Holds (formatBuf formatted beyond) (formatText formatted) := by
  have hlen : (formatted.take maxCharsDisp).length ≤ 180 := List.length_take_le _ _
  have hbuf : ∀ i, i ≤ 180 →
      formatBuf formatted beyond i = (formatted.take maxCharsDisp).getD i 0 := fun i hi =>
    if_pos (show i < 181 by omega)
  have happend : formatText formatted ++ (formatted.take maxCharsDisp).dropWhile (fun b => b ≠ 0)
      = formatted.take maxCharsDisp := List.takeWhile_append_dropWhile
  have hle : (formatText formatted).length ≤ (formatted.take maxCharsDisp).length := by
    rw [← happend, List.length_append]
    exact Nat.le_add_right _ _
  constructor
  · intro i hi
    rw [hbuf i (by omega), ← happend, List.getD_append _ _ _ _ hi, List.getD_eq_getElem?_getD,
      List.getElem?_eq_getElem hi]
    rfl
  · rw [hbuf _ (by omega), ← happend, List.getD_append_right _ _ _ _ (Nat.le_refl _),
      Nat.sub_self]
    generalize hrest : (formatted.take maxCharsDisp).dropWhile (fun b => decide (b ≠ 0)) = rest
    cases rest with
    | nil => rfl
    | cons b rest =>
      have hhead := List.head?_dropWhile_not (fun b : UInt8 => decide (b ≠ 0))
        (formatted.take maxCharsDisp)
      rw [hrest] at hhead
      simpa using hhead

/-- A string that fits is formatted as it is. -/
theorem formatBuf_chars (text : CString textSize) (beyond : Mem) :
    formatBuf text.chars beyond = textBuf text beyond := by
  unfold formatBuf textBuf
  rw [List.take_of_length_le (Nat.le_of_lt_succ text.fits)]

/-! ## The reads -/

/-- The loop reads `buf` up to its NUL at `n`, and ends there. -/
structure StopsAtNul (buf : Mem) (size x y n : ℕ) : Prop where
  reads : ∀ s, Loop.Reaches (showPass buf size) ⟨0, x, y, []⟩ s →
    ∀ i ∈ showReads buf size s, i ≤ n
  exits : ∃ t, Loop.Exits (showPass buf size) ⟨0, x, y, []⟩ t ∧ t.p = n

/-- A pass reads where the pointer is, and behind it only where there is
a byte. -/
theorem mem_showReads {i : ℕ} (hi : i ∈ showReads buf size s) :
    i = s.p ∨ i = s.p + 1 ∧ buf s.p ≠ 0 := by
  unfold showReads at hi
  exact mem_pair_reads hi

/-- The guard reads where the pointer is. -/
theorem p_mem_showReads (buf : Mem) (size : ℕ) (s : ShowState) : s.p ∈ showReads buf size s := by
  unfold showReads
  split <;> exact List.mem_cons_self ..

/-- **The loop reads up to the first NUL and ends there exactly where the
text falls into whole characters**, whatever the size and wherever it
starts. -/
theorem lcdShowString_stopsAtNul_iff (formatted : List UInt8) (beyond : Mem) (x y size : ℕ)
    (hsize : FontSize size) :
    StopsAtNul (formatBuf formatted beyond) size x y (formatText formatted).length ↔
      Whole (formatText formatted) := by
  have hloop := show_tokenLoop (formatBuf formatted beyond) hsize
  have hw := holds_formatText formatted beyond
  have hiff := hloop.le_length_iff hw (formatText_ne_zero formatted)
    (show (⟨0, x, y, []⟩ : ShowState).p = 0 from rfl)
  constructor
  · intro h
    exact hiff.1 fun s hs => h.reads s hs _ (p_mem_showReads _ _ s)
  · intro hwhole
    refine ⟨fun s hs i hi => ?_, hloop.exits hw hwhole rfl⟩
    exact hloop.reads_le hw hwhole rfl hs (mem_showReads hi)

/-- A letter and a double-byte character. -/
theorem lcdShowString_stopsAtNul_iff_two :
    StopsAtNul (formatBuf [0x61, 0xB0, 0xA1] Mem.zeros) 24 0 0
      (formatText [0x61, 0xB0, 0xA1]).length ↔ Whole (formatText [0x61, 0xB0, 0xA1]) :=
  lcdShowString_stopsAtNul_iff [0x61, 0xB0, 0xA1] Mem.zeros 0 0 24 (Or.inr (Or.inl rfl))

/-- 179 letters and a double-byte character, which the formatter cuts in
half. -/
def cutText : List UInt8 := List.replicate 179 0x61 ++ [0xB0, 0xA1]

/-- The loop reads the byte behind `buf`. -/
theorem lcdShowString_reads_behind :
    textSize ∈ showReads (formatBuf cutText Mem.zeros) 24
        (Loop.run (showPass (formatBuf cutText Mem.zeros) 24) 181 ⟨0, 0, 0, []⟩) ∧
      ¬ StopsAtNul (formatBuf cutText Mem.zeros) 24 0 0 (formatText cutText).length := by
  have hread : textSize ∈ showReads (formatBuf cutText Mem.zeros) 24
      (Loop.run (showPass (formatBuf cutText Mem.zeros) 24) 181 ⟨0, 0, 0, []⟩) := by
    decide +kernel
  refine ⟨hread, fun h => ?_⟩
  have hle := h.reads _ (Loop.reaches_run _ 181 _) _ hread
  revert hle
  decide +kernel

end Lcd

end RtSpark
