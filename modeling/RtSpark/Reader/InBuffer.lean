import RtSpark.Reader.Greedy
/-!
# Reads of the window

`buf` has 181 bytes and ends in a NUL, but the layout loop moves on by two
at any byte from `0x80` on. Where such a byte is the last one before the
NUL and there is room for a character on the page, the loop steps over the
NUL and reads behind the buffer; nowhere else does it leave it.
-/

namespace RtSpark

namespace Reader

open Grid

variable {src : Mem} {s s' : DispState} {i : ℕ}

/-- The function reads nothing outside of `src` and `tmp`, which have 181
bytes each, and copies no more than `tmp` holds. -/
structure InBuffer (src : Mem) : Prop where
  layout : ∀ s, Loop.Reaches (dispPass src maxColumnSize maxLineSize) .init s →
    ∀ i ∈ dispReads src maxColumnSize s, i ≤ maxCharsDisp
  copied : (dispLoop src maxColumnSize maxLineSize).dispNeed ≤ maxCharsDisp + 1
  copy : ∀ i ∈ copyReads src (dispLoop src maxColumnSize maxLineSize).dispNeed, i ≤ maxCharsDisp
  filter : ∀ f, Loop.Reaches (filterPass (filterCopy src maxColumnSize maxLineSize)
      (dispLoop src maxColumnSize maxLineSize).dispNeed) ⟨0, 0⟩ f →
    ∀ i ∈ filterReads (filterCopy src maxColumnSize maxLineSize)
      (dispLoop src maxColumnSize maxLineSize).dispNeed f, i ≤ maxCharsDisp

/-- The bytes before the window's NUL. -/
def windowBytes (src : Mem) : List UInt8 := (List.range maxCharsDisp).map src

/-- The window ends in half a character, and the page has room for one
behind the tokens before it. -/
def HalfAtEnd (src : Mem) : Prop :=
  sizeAll (tokens (windowBytes src)) + 1 = maxCharsDisp ∧ 0x80 ≤ src (maxCharsDisp - 1) ∧
    Fits maxColumnSize maxLineSize .origin (items (tokens (windowBytes src)) ++ [.box 2])

instance (src : Mem) : Decidable (HalfAtEnd src) := inferInstanceAs (Decidable (_ ∧ _ ∧ _))

@[simp] theorem windowBytes_length (src : Mem) : (windowBytes src).length = 180 := by
  rw [windowBytes, List.length_map, List.length_range]
  rfl

theorem holds_window (hnul : src maxCharsDisp = 0) : Holds src (windowBytes src) :=
  holds_range hnul

/-! ## The layout loop -/

/-- A pass moves on by at most two. -/
theorem dispStep_le {src : Mem} {L : ℕ} (h : DispStep src L s s') : s'.p ≤ s.p + 2 := by
  cases h <;> simp

/-- **The loop stays in the window** unless it ends in half a character. -/
theorem p_le_of_reaches (hnul : src maxCharsDisp = 0) (hhalf : ¬ HalfAtEnd src)
    (hs : Loop.Reaches (dispPass src 9 20) .init s) : s.p ≤ 180 := by
  induction hs with
  | refl => exact Nat.zero_le _
  | @tail u s hu hpass ih =>
    by_contra hover
    have hw := holds_window hnul
    obtain ⟨h0, hM, hstep⟩ := dispPass_cases hpass
    have hne : u.p ≠ 180 := fun heq => h0 (by rw [heq]; exact hnul)
    have hle := dispStep_le hstep
    have hp : u.p = 179 := by omega
    obtain ⟨ts, us, hsplit, hsize, hfits, hcell⟩ :=
      stands_of_reaches hw (by decide) hu (by rw [windowBytes_length]; exact ih)
    obtain ⟨t, ht⟩ := exists_tokenAt h0
    have hrow : u.lineCount < 20 := (dispInv_of_reaches (by decide) hu).row
    rcases dispPass_token ht hM hrow with ⟨hstay, s', hpass', hp', -⟩ | ⟨-, -, hpass'⟩
    · obtain rfl : s = s' := Option.some.inj (hpass.symm.trans hpass')
      -- the token consumed runs over the end
      obtain ⟨-, hge, -⟩ := ht.half hw (by rw [windowBytes_length]; omega)
        (by rw [windowBytes_length]; omega)
      have hseat := seat_eq_cell ht hcell hstay
      rw [ht.item_eq_iff.2 hge] at hseat
      have hnone : us = [] := by
        rw [(tokens_drop hsplit).1, hsize]
        have hdrop := hw.drop_succ (p := u.p) (by rw [windowBytes_length]; omega)
        rw [hdrop, List.drop_eq_nil_iff.2 (by rw [windowBytes_length]; omega)]
        exact tokens_half hge
      rw [hnone, List.append_nil] at hsplit
      refine hhalf ⟨?_, ?_, ?_⟩
      · rw [hsplit, hsize, hp]
        rfl
      · rw [hp] at hge
        exact hge
      · rw [hsplit]
        exact fits_concat.2 ⟨hfits, by rw [maxLineSize_eq, hseat]; exact hM⟩
    · obtain rfl : s = u.endLine := Option.some.inj (hpass.symm.trans hpass')
      exact hover ih

/-- **Half a character at the end takes the loop over the NUL.** -/
theorem reaches_over (hnul : src maxCharsDisp = 0) (hhalf : HalfAtEnd src) :
    ∃ s, Loop.Reaches (dispPass src 9 20) .init s ∧ s.p = 181 := by
  obtain ⟨hsize, hge, hfits⟩ := hhalf
  obtain ⟨hfits, hseat⟩ := fits_concat.1 hfits
  obtain ⟨s, hs, hp, hcell⟩ := reaches_of_fits (holds_window hnul) (by decide)
    (List.append_nil (tokens (windowBytes src))).symm hfits
  have hp179 : s.p = 179 := by
    rw [hp]
    exact Nat.succ.inj hsize
  have hge' : 0x80 ≤ src s.p := by
    rw [hp179]
    exact hge
  have hrow : s.lineCount < 20 := (dispInv_of_reaches (by decide) hs).row
  rw [← hcell] at hseat
  obtain ⟨u, s', hu, -, -, hpass, hp', -⟩ := reaches_token (.double hge') (by decide) hrow hseat
  exact ⟨s', (hs.trans hu).tail hpass, by rw [hp', hp179]; rfl⟩

/-! ## The copy and the filter -/

theorem copyReads_le (hnul : src maxCharsDisp = 0) {need : ℕ} (hi : i ∈ copyReads src need) :
    i ≤ maxCharsDisp := by
  have hlt := List.mem_range.1 hi
  by_contra hover
  have hlen : maxCharsDisp < Mem.strnlen src need := by omega
  exact Mem.ne_zero_of_lt_strnlen hlen hnul

/-- The copy ends in the window's NUL, and the filter there. -/
theorem filterReads_le (hnul : src maxCharsDisp = 0) {f : FilterState}
    (hf : Loop.Reaches (filterPass (filterCopy src maxColumnSize maxLineSize)
      (dispLoop src maxColumnSize maxLineSize).dispNeed) ⟨0, 0⟩ f)
    (hi : i ∈ filterReads (filterCopy src maxColumnSize maxLineSize)
      (dispLoop src maxColumnSize maxLineSize).dispNeed f) : i ≤ maxCharsDisp := by
  have hcopy : filterCopy src maxColumnSize maxLineSize maxCharsDisp = 0 :=
    Mem.strncpy_zeros_of_nul hnul (Nat.le_refl _)
  have hp : f.p ≤ maxCharsDisp := by
    by_contra hover
    exact (filter_invariant hf).2 maxCharsDisp (by omega) hcopy
  unfold filterReads at hi
  split at hi
  · split at hi
    · rename_i hge
      have hne : f.p ≠ maxCharsDisp := by
        intro heq
        rw [heq, hcopy] at hge
        exact absurd hge (by decide)
      rcases List.mem_cons.1 hi with rfl | hi
      · exact hp
      · rw [List.mem_singleton.1 hi]
        omega
    · rw [List.mem_singleton.1 hi]
      exact hp
  · cases hi

/-! ## The function -/

/-- **`DispSizeCalculator` stays in its buffers exactly on the windows that
do not end in half a character the page has room for.** -/
theorem dispSizeCalculator_inBuffer_iff (src : Mem) (hnul : src maxCharsDisp = 0) :
    InBuffer src ↔ ¬ HalfAtEnd src := by
  constructor
  · intro h hhalf
    obtain ⟨s, hs, hp⟩ := reaches_over hnul hhalf
    have hread : s.p ∈ dispReads src maxColumnSize s := by
      unfold dispReads
      split
      · exact List.mem_cons_self ..
      · exact List.mem_cons_self ..
    have hle := h.layout s hs _ hread
    rw [hp] at hle
    exact absurd hle (by decide)
  · intro hhalf
    have hexit := dispLoop_exits src 9 (L := 20) (by decide)
    refine ⟨fun s hs i hi => ?_, ?_, fun i hi => copyReads_le hnul hi,
      fun f hf i hi => filterReads_le hnul hf hi⟩
    · have hle := p_le_of_reaches hnul hhalf hs
      unfold dispReads at hi
      split at hi
      · rename_i hcr
        -- a CR is not the window's NUL, so there is a byte behind it
        have hne : s.p ≠ 180 := by
          intro heq
          have hbyte := hcr.2
          rw [heq] at hbyte
          exact absurd (hnul.symm.trans hbyte) (by decide)
        rw [maxCharsDisp_eq]
        rcases List.mem_cons.1 hi with rfl | hi
        · exact hle
        · rw [List.mem_singleton.1 hi]
          omega
      · rw [List.mem_singleton.1 hi]
        exact hle
    · have hle := p_le_of_reaches hnul hhalf hexit.1
      have hsync := (dispInv_of_reaches (by decide) hexit.1).sync
      show (dispLoop src 9 20).dispNeed ≤ 181
      omega

/-- A window of a letter and a double-byte character. -/
theorem dispSizeCalculator_inBuffer_iff_short :
    InBuffer (Mem.buffer 181 [0x61, 0xB0, 0xA1] Mem.zeros) ↔
      ¬ HalfAtEnd (Mem.buffer 181 [0x61, 0xB0, 0xA1] Mem.zeros) :=
  dispSizeCalculator_inBuffer_iff (Mem.buffer 181 [0x61, 0xB0, 0xA1] Mem.zeros) (by decide)

/-- A line of 19 letters, 158 letters more, and the first half of a
character: at byte 179 the ninth row still has two columns. -/
def halfWindow : Mem :=
  Mem.buffer 181 (List.replicate 19 0x61 ++ [cr, lf] ++ List.replicate 158 0x61 ++ [0xB0])
    Mem.zeros

/-- The loop reads byte 181 of that window's 181 bytes. -/
theorem dispSizeCalculator_reads_behind :
    halfWindow 180 = 0 ∧
      (∃ s, Loop.Reaches (dispPass halfWindow maxColumnSize maxLineSize) .init s ∧
        181 ∈ dispReads halfWindow maxColumnSize s) ∧ ¬ InBuffer halfWindow := by
  have hnul : halfWindow maxCharsDisp = 0 := by decide +kernel
  have hhalf : HalfAtEnd halfWindow := by decide +kernel
  obtain ⟨s, hs, hp⟩ := reaches_over hnul hhalf
  have hread : 181 ∈ dispReads halfWindow maxColumnSize s := by
    unfold dispReads
    rw [hp]
    split
    · exact List.mem_cons_self ..
    · exact List.mem_cons_self ..
  refine ⟨hnul, ⟨s, hs, hread⟩, fun h => ?_⟩
  exact absurd (h.layout s hs 181 hread) (by decide)

end Reader

end RtSpark
