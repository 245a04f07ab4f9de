import RtSpark.Reader.Model.Pages
import Mathlib.Tactic.Linarith
/-!
# The page cut

What `DispSizeCalculator` returns. The layout loop counts bytes past a
NUL where a double-byte character has lost its second byte; the filter
takes back exactly those. So the cut is a head of the layout loop
(`cut_visited`), the bytes before it are text (`ne_zero_of_lt_cut`), and
it is empty only where no whole character stands first (`cut_pos_iff`).
-/

namespace RtSpark

namespace Reader

variable {buf src : Mem} {oldSize M L i k : ℕ}

/-! ## The half-character filter -/

/-- What one pass of the filter does. -/
theorem filterPass_cases {s s' : FilterState} (h : filterPass buf oldSize s = some s') :
    s.newSize < oldSize ∧ buf s.p ≠ 0 ∧
      ((¬ 0x80 ≤ buf s.p ∧ s' = ⟨s.p + 1, s.newSize + 1⟩) ∨
        (0x80 ≤ buf s.p ∧ buf (s.p + 1) ≠ 0 ∧ s' = ⟨s.p + 2, s.newSize + 2⟩)) := by
  unfold filterPass at h
  split at h
  · rename_i hg
    split at h
    · cases h
    · rename_i hlone
      split at h
      · rename_i hge
        exact ⟨hg.1, hg.2, Or.inr ⟨hge, fun h0 => hlone ⟨hge, h0⟩, (Option.some.inj h).symm⟩⟩
      · rename_i hlt
        exact ⟨hg.1, hg.2, Or.inl ⟨hlt, (Option.some.inj h).symm⟩⟩
  · cases h

/-- A single byte passes. -/
theorem filterPass_single {s : FilterState} (hs : s.newSize < oldSize) (h0 : buf s.p ≠ 0)
    (hlt : ¬ 0x80 ≤ buf s.p) :
    filterPass buf oldSize s = some ⟨s.p + 1, s.newSize + 1⟩ := by
  rw [filterPass, if_pos ⟨hs, h0⟩, if_neg fun h => hlt h.1, if_neg hlt]

/-- A whole double-byte character passes. -/
theorem filterPass_double {s : FilterState} (hs : s.newSize < oldSize) (h0 : buf s.p ≠ 0)
    (hge : 0x80 ≤ buf s.p) (h1 : buf (s.p + 1) ≠ 0) :
    filterPass buf oldSize s = some ⟨s.p + 2, s.newSize + 2⟩ := by
  rw [filterPass, if_pos ⟨hs, h0⟩, if_neg fun h => h1 h.2, if_pos hge]

theorem filter_exits (buf : Mem) (oldSize : ℕ) :
    Loop.Exits (filterPass buf oldSize) ⟨0, 0⟩
      (Loop.run (filterPass buf oldSize) (oldSize + 1) ⟨0, 0⟩) := by
  refine Loop.run_exits (I := fun _ => True) (μ := fun s => oldSize - s.newSize) ?_ trivial ?_
  · intro s s' _ h
    obtain ⟨hlt, -, ⟨-, rfl⟩ | ⟨-, -, rfl⟩⟩ := filterPass_cases h
    · exact ⟨trivial, by show oldSize - (s.newSize + 1) < oldSize - s.newSize; omega⟩
    · exact ⟨trivial, by show oldSize - (s.newSize + 2) < oldSize - s.newSize; omega⟩
  · show oldSize - 0 < oldSize + 1
    omega

/-- The filter counts the bytes it steps over, and none of them is NUL. -/
theorem filter_invariant {s : FilterState}
    (h : Loop.Reaches (filterPass buf oldSize) ⟨0, 0⟩ s) :
    s.newSize = s.p ∧ ∀ i, i < s.p → buf i ≠ 0 := by
  refine h.invariant (I := fun s => s.newSize = s.p ∧ ∀ i, i < s.p → buf i ≠ 0)
    ⟨rfl, fun i hi => absurd hi (Nat.not_lt_zero i)⟩ ?_
  rintro s s' ⟨hsync, hne⟩ hpass
  obtain ⟨-, h0, ⟨-, rfl⟩ | ⟨-, h1, rfl⟩⟩ := filterPass_cases hpass
  · refine ⟨by simp only [hsync], fun i hi => ?_⟩
    rcases Nat.lt_succ_iff_lt_or_eq.1 hi with hlt | rfl
    · exact hne i hlt
    · exact h0
  · refine ⟨by simp only [hsync], fun i hi => ?_⟩
    rcases Nat.lt_succ_iff_lt_or_eq.1 hi with hlt | rfl
    · rcases Nat.lt_succ_iff_lt_or_eq.1 hlt with hlt' | rfl
      · exact hne i hlt'
      · exact h0
    · exact h1

/-- The count at a head the filter stops at. -/
theorem halfWordFilter_eq {s : FilterState}
    (h : Loop.Reaches (filterPass buf oldSize) ⟨0, 0⟩ s) (hend : filterPass buf oldSize s = none) :
    halfWordFilter buf oldSize = s.p := by
  rw [halfWordFilter, (filter_exits buf oldSize).unique ⟨h, hend⟩]
  exact (filter_invariant h).1

theorem ne_zero_of_lt_filter (h : i < halfWordFilter buf oldSize) : buf i ≠ 0 := by
  obtain ⟨hr, hend⟩ := filter_exits buf oldSize
  rw [halfWordFilter_eq hr hend] at h
  exact (filter_invariant hr).2 i h

/-! ## The layout loop -/

/-- What one pass of the layout loop consumes, and where it leaves the
cursor. -/
inductive DispStep (src : Mem) (L : ℕ) (s : DispState) : DispState → Prop
  | crlf : src s.p = cr → src (s.p + 1) = lf →
      DispStep src L s ⟨s.p + 2, s.dispNeed + 2, s.dispLine + 1, 0⟩
  | brk : src s.p = lf ∨ src s.p = cr → ¬ (src s.p = cr ∧ src (s.p + 1) = lf) →
      DispStep src L s ⟨s.p + 1, s.dispNeed + 1, s.dispLine + 1, 0⟩
  | single : ¬ (src s.p = lf ∨ src s.p = cr) → src s.p < 0x80 →
      DispStep src L s
        (DispState.wrap L ⟨s.p + 1, s.dispNeed + 1, s.dispLine, s.lineCount + 1⟩)
  | stall : 0x80 ≤ src s.p → s.lineCount + 1 = L →
      DispStep src L s ⟨s.p, s.dispNeed, s.dispLine + 1, 0⟩
  | double : 0x80 ≤ src s.p → s.lineCount + 1 ≠ L →
      DispStep src L s
        (DispState.wrap L ⟨s.p + 2, s.dispNeed + 2, s.dispLine, s.lineCount + 2⟩)

theorem not_brk_of_ge {b : UInt8} (h : 0x80 ≤ b) : ¬ (b = lf ∨ b = cr) := by
  rintro (rfl | rfl) <;> revert h <;> decide

/-- **The pass, inverted.** -/
theorem dispPass_cases {s s' : DispState} (h : dispPass src M L s = some s') :
    src s.p ≠ 0 ∧ s.dispLine < M ∧ DispStep src L s s' := by
  unfold dispPass at h
  split at h
  · rename_i hg
    refine ⟨hg.1, hg.2, ?_⟩
    split at h
    · rename_i hcrlf
      cases h
      exact .crlf hcrlf.1 hcrlf.2
    · rename_i hcrlf
      split at h
      · rename_i hbrk
        cases h
        exact .brk hbrk hcrlf
      · rename_i hbrk
        split at h
        · rename_i hlt
          cases h
          exact .single hbrk hlt
        · rename_i hlt
          have hge : 0x80 ≤ src s.p := UInt8.not_lt.1 hlt
          split at h
          · rename_i hcol
            cases h
            exact .stall hge hcol
          · rename_i hcol
            cases h
            exact .double hge hcol
  · cases h

/-- The pass runs where the guard holds. -/
theorem exists_dispPass (s : DispState) (h0 : src s.p ≠ 0) (hM : s.dispLine < M) :
    ∃ s', dispPass src M L s = some s' ∧ DispStep src L s s' := by
  cases h : dispPass src M L s with
  | some s' => exact ⟨s', rfl, (dispPass_cases h).2.2⟩
  | none =>
    exfalso
    unfold dispPass at h
    rw [if_pos ⟨h0, hM⟩] at h
    repeat' split at h
    all_goals cases h

/-- Wrapping moves neither the pointer nor the byte count. -/
@[simp] theorem wrap_p (s : DispState) : (s.wrap L).p = s.p := by
  unfold DispState.wrap DispState.endLine
  split <;> rfl

/-- A row that is not full is left alone, a full one ended. -/
theorem wrap_cases (s : DispState) :
    (s.lineCount ≠ L ∧ s.wrap L = s) ∨ (s.lineCount = L ∧ s.wrap L = s.endLine) := by
  by_cases h : s.lineCount = L
  · exact Or.inr ⟨h, if_pos h⟩
  · exact Or.inl ⟨h, if_neg h⟩

/-- What every head of the layout loop satisfies: the count is the
pointer's, the row has room, and the rows are within the page. -/
structure DispInv (M L : ℕ) (s : DispState) : Prop where
  sync : s.dispNeed = s.p
  row : s.lineCount < L
  line : s.dispLine ≤ M

/-- Rows left, each worth one more than its columns. -/
def dispMeasure (M L : ℕ) (s : DispState) : ℕ :=
  (M - s.dispLine) * (L + 1) + (L - s.lineCount)

/-- Ending a row lowers the measure by what is left of it. -/
theorem measure_endLine {s : DispState} (hM : s.dispLine < M) (hL : s.lineCount ≤ L)
    (p need : ℕ) :
    dispMeasure M L ⟨p, need, s.dispLine + 1, 0⟩ < dispMeasure M L s := by
  simp only [dispMeasure]
  have hsplit : M - s.dispLine = M - (s.dispLine + 1) + 1 := by omega
  rw [hsplit, Nat.succ_mul]
  omega

theorem dispStep_inv {s s' : DispState} (hi : DispInv M L s) (hM : s.dispLine < M)
    (h : DispStep src L s s') : DispInv M L s' ∧ dispMeasure M L s' < dispMeasure M L s := by
  obtain ⟨hsync, hrow, hline⟩ := hi
  cases h with
  | crlf _ _ =>
    exact ⟨⟨by simp only [hsync], by simp only; omega, hM⟩, measure_endLine hM hrow.le _ _⟩
  | brk _ _ =>
    exact ⟨⟨by simp only [hsync], by simp only; omega, hM⟩, measure_endLine hM hrow.le _ _⟩
  | stall _ _ =>
    exact ⟨⟨hsync, by simp only; omega, hM⟩, measure_endLine hM hrow.le _ _⟩
  | single _ _ =>
    rcases wrap_cases (L := L) ⟨s.p + 1, s.dispNeed + 1, s.dispLine, s.lineCount + 1⟩ with
      ⟨hne, heq⟩ | ⟨-, heq⟩
    · rw [heq]
      simp only at hne
      exact ⟨⟨by simp only [hsync], by simp only; omega, hline⟩,
        by simp only [dispMeasure]; omega⟩
    · rw [heq]
      exact ⟨⟨by simp only [DispState.endLine, hsync], by simp only [DispState.endLine]; omega,
        hM⟩, measure_endLine hM hrow.le _ _⟩
  | double _ hcol =>
    rcases wrap_cases (L := L) ⟨s.p + 2, s.dispNeed + 2, s.dispLine, s.lineCount + 2⟩ with
      ⟨hne, heq⟩ | ⟨-, heq⟩
    · rw [heq]
      simp only at hne
      exact ⟨⟨by simp only [hsync], by simp only; omega, hline⟩,
        by simp only [dispMeasure]; omega⟩
    · rw [heq]
      exact ⟨⟨by simp only [DispState.endLine, hsync], by simp only [DispState.endLine]; omega,
        hM⟩, measure_endLine hM hrow.le _ _⟩

theorem dispInv_init (hL : 0 < L) : DispInv M L .init :=
  ⟨rfl, hL, Nat.zero_le M⟩

/-- **The layout loop ends**, whatever lies behind the window. -/
theorem dispLoop_exits (src : Mem) (M : ℕ) (hL : 0 < L) :
    Loop.Exits (dispPass src M L) .init (dispLoop src M L) := by
  refine Loop.run_exits (I := DispInv M L) (μ := dispMeasure M L) ?_ (dispInv_init hL) ?_
  · intro s s' hi h
    obtain ⟨-, hM, hstep⟩ := dispPass_cases h
    exact dispStep_inv hi hM hstep
  · simp only [dispMeasure, dispBound, DispState.init, Nat.sub_zero]
    rw [Nat.succ_mul]
    omega

theorem dispInv_of_reaches {s : DispState} (hL : 0 < L)
    (h : Loop.Reaches (dispPass src M L) .init s) : DispInv M L s := by
  refine h.invariant (dispInv_init hL) ?_
  intro s s' hi hpass
  obtain ⟨-, hM, hstep⟩ := dispPass_cases hpass
  exact (dispStep_inv hi hM hstep).1

/-- A pass moves the pointer on by the bytes it consumes. -/
theorem dispStep_p {s s' : DispState} (h : DispStep src L s s') : s.p ≤ s'.p := by
  cases h <;> simp

theorem disp_p_mono {s s' : DispState} (h : Loop.Reaches (dispPass src M L) s s') :
    s.p ≤ s'.p :=
  h.invariant (I := fun u => s.p ≤ u.p) (Nat.le_refl _) fun _ _ hle hpass =>
    Nat.le_trans hle (dispStep_p (dispPass_cases hpass).2.2)

/-! ## The two loops together -/

/-- The copy `DispSizeCalculator` filters. -/
def filterCopy (src : Mem) (M L : ℕ) : Mem :=
  Mem.strncpy Mem.zeros src (dispLoop src M L).dispNeed

theorem dispSizeCalculator_eq (src : Mem) (M L : ℕ) :
    dispSizeCalculator src M L = halfWordFilter (filterCopy src M L) (dispLoop src M L).dispNeed :=
  rfl

/-- The layout loop has read text so far: no NUL stands before it. -/
def TextBefore (src : Mem) (s : DispState) : Prop := ∀ i, i < s.p → src i ≠ 0

/-- A double-byte character whose second byte is a NUL. -/
def LoneAt (src : Mem) (k : ℕ) : Prop := 0x80 ≤ src k ∧ src (k + 1) = 0

instance (src : Mem) (k : ℕ) : Decidable (LoneAt src k) :=
  inferInstanceAs (Decidable (_ ∧ _))

/-- Only a lone half makes the layout loop step over a NUL. -/
theorem textBefore_step {s s' : DispState} (ht : TextBefore src s) (h0 : src s.p ≠ 0)
    (hlone : ¬ LoneAt src s.p) (h : DispStep src L s s') : TextBefore src s' := by
  have one : ∀ i, i < s.p + 1 → src i ≠ 0 := by
    intro i hi
    rcases Nat.lt_succ_iff_lt_or_eq.1 hi with hlt | rfl
    · exact ht i hlt
    · exact h0
  have two : src (s.p + 1) ≠ 0 → ∀ i, i < s.p + 2 → src i ≠ 0 := by
    intro h1 i hi
    rcases Nat.lt_succ_iff_lt_or_eq.1 hi with hlt | rfl
    · exact one i hlt
    · exact h1
  cases h with
  | crlf _ hlf => exact two (by rw [hlf]; decide)
  | brk _ _ => exact one
  | single _ _ => exact fun i hi => one i (by simpa using hi)
  | stall _ _ => exact ht
  | double hge _ => exact fun i hi => two (fun h1 => hlone ⟨hge, h1⟩) i (by simpa using hi)

/-- Every head of the layout loop lies at or before the byte count it
ends with. -/
theorem disp_p_le {s : DispState} (hL : 0 < L) (h : Loop.Reaches (dispPass src M L) .init s) :
    s.p ≤ (dispLoop src M L).dispNeed := by
  have hexit := dispLoop_exits src M hL
  rw [(dispInv_of_reaches hL hexit.1).sync]
  exact disp_p_mono (hexit.reaches_of h)

/-- **The filter passes every head of the layout loop** that only text
stands before: a `CR LF` pair is two of its passes, a row that ends early
none. -/
theorem filter_reaches {s : DispState} (hL : 0 < L)
    (h : Loop.Reaches (dispPass src M L) .init s) (ht : TextBefore src s) :
    Loop.Reaches (filterPass (filterCopy src M L) (dispLoop src M L).dispNeed) ⟨0, 0⟩
      ⟨s.p, s.p⟩ := by
  induction h with
  | refl => exact Relation.ReflTransGen.refl
  | @tail s s' hs hpass ih =>
    obtain ⟨h0, -, hstep⟩ := dispPass_cases hpass
    have hle : s'.p ≤ (dispLoop src M L).dispNeed := disp_p_le hL (hs.tail hpass)
    have hmono := dispStep_p hstep
    specialize ih fun i hi => ht i (by omega)
    -- below the new head the copy is the source
    have hcopy : ∀ i, i < s'.p → filterCopy src M L i = src i := fun i hi =>
      Mem.strncpy_of_ne_zero (by omega) fun j hj => ht j (by omega)
    have single : ∀ k, k < s'.p → ¬ 0x80 ≤ src k →
        filterPass (filterCopy src M L) (dispLoop src M L).dispNeed ⟨k, k⟩
          = some ⟨k + 1, k + 1⟩ := by
      intro k hk hlt
      refine filterPass_single (s := ⟨k, k⟩) (by simp only; omega) ?_ ?_
      · rw [hcopy k hk]; exact ht k hk
      · rw [hcopy k hk]; exact hlt
    cases hstep with
    | crlf hcr hlf =>
      refine (ih.tail (single s.p (by simp) ?_)).tail (single (s.p + 1) (by simp) ?_)
      · rw [hcr]; decide
      · rw [hlf]; decide
    | brk hbrk _ =>
      refine ih.tail (single s.p (by simp) ?_)
      rcases hbrk with hb | hb <;> rw [hb] <;> decide
    | single _ hlt =>
      simp only [wrap_p] at single ⊢
      exact ih.tail (single s.p (by omega) (UInt8.not_le.2 hlt))
    | stall _ _ => exact ih
    | double hge _ =>
      simp only [TextBefore, wrap_p] at ht hcopy hle ⊢
      refine ih.tail (filterPass_double (s := ⟨s.p, s.p⟩) (by simp only; omega) ?_ ?_ ?_)
      · rw [hcopy s.p (by omega)]; exact h0
      · rw [hcopy s.p (by omega)]; exact hge
      · rw [hcopy (s.p + 1) (by omega)]; exact ht (s.p + 1) (by omega)

/-- At a lone half the filter stops. -/
theorem filter_stops {s : ℕ} (hlone : LoneAt src s) (ht : ∀ i, i < s → src i ≠ 0) :
    filterPass (filterCopy src M L) (dispLoop src M L).dispNeed ⟨s, s⟩ = none := by
  unfold filterPass
  split
  · rename_i hg
    have h0 : src s ≠ 0 := by
      intro h0
      have hge := hlone.1
      rw [h0] at hge
      exact absurd hge (by decide)
    have heq : filterCopy src M L s = src s := Mem.strncpy_of_ne_zero hg.1 fun j hj => by
      rcases Nat.lt_or_eq_of_le hj with hlt | rfl
      · exact ht j hlt
      · exact h0
    have hnul : filterCopy src M L (s + 1) = 0 :=
      Mem.strncpy_zeros_of_nul hlone.2 (Nat.le_refl _)
    exact if_pos ⟨by rw [heq]; exact hlone.1, hnul⟩
  · rfl

/-- **Where the cut is**: at a head that only text stands before, if the
layout loop ends there or a lone half comes next. -/
theorem cut_eq_of_head {s : DispState} (hL : 0 < L)
    (hs : Loop.Reaches (dispPass src M L) .init s) (ht : TextBefore src s)
    (hend : dispPass src M L s = none ∨ LoneAt src s.p) : dispSizeCalculator src M L = s.p := by
  have hr := filter_reaches hL hs ht
  rw [dispSizeCalculator_eq]
  rcases hend with hnone | hlone
  · have heq : dispLoop src M L = s := (dispLoop_exits src M hL).unique ⟨hs, hnone⟩
    refine halfWordFilter_eq hr ?_
    rw [heq, (dispInv_of_reaches hL hs).sync, filterPass, if_neg]
    exact fun h => Nat.lt_irrefl _ h.1
  · exact halfWordFilter_eq hr (filter_stops hlone ht)

/-- **The cut is a head of the layout loop**: the one it ends at, or one
it stands at before a lone half. -/
theorem cut_visited (src : Mem) (M : ℕ) (hL : 0 < L) :
    ∃ s, Loop.Reaches (dispPass src M L) .init s ∧ s.p = dispSizeCalculator src M L ∧
      (dispPass src M L s = none ∨ LoneAt src s.p) := by
  have hexit := dispLoop_exits src M hL
  rcases hexit.1.leaves (P := TextBefore src) fun i hi => absurd hi (Nat.not_lt_zero i) with
    htext | ⟨s, s', hs, hpass, ht, ht'⟩
  · exact ⟨_, hexit.1, (cut_eq_of_head hL hexit.1 htext (Or.inl hexit.2)).symm, Or.inl hexit.2⟩
  · obtain ⟨h0, -, hstep⟩ := dispPass_cases hpass
    have hlone : LoneAt src s.p := by
      by_contra hlone
      exact ht' (textBefore_step ht h0 hlone hstep)
    exact ⟨s, hs, (cut_eq_of_head hL hs ht (Or.inr hlone)).symm, Or.inr hlone⟩

/-! ## The cut -/

/-- **The bytes of a page are text.** -/
theorem ne_zero_of_lt_cut (h : i < dispSizeCalculator src M L) : src i ≠ 0 := by
  have hne := ne_zero_of_lt_filter h
  rw [← (Mem.strncpy_zeros_eq hne).2]
  exact hne

/-- So a page ends at the window's first NUL at the latest. -/
theorem cut_le (hnul : src k = 0) : dispSizeCalculator src M L ≤ k := by
  by_contra hcon
  have hlt : k < dispSizeCalculator src M L := by omega
  exact ne_zero_of_lt_cut hlt hnul

/-- **A page is empty only where no whole character stands first.** -/
theorem cut_pos_iff (hM : 0 < M) (hL : 1 < L) :
    0 < dispSizeCalculator src M L ↔ src 0 ≠ 0 ∧ ¬ LoneAt src 0 := by
  constructor
  · intro h
    refine ⟨ne_zero_of_lt_cut h, fun hlone => ?_⟩
    have hstop := filter_stops (M := M) (L := L) hlone fun i hi => absurd hi (Nat.not_lt_zero i)
    have heq := halfWordFilter_eq Relation.ReflTransGen.refl hstop
    rw [dispSizeCalculator_eq, heq] at h
    exact Nat.lt_irrefl 0 h
  · rintro ⟨h0, hlone⟩
    obtain ⟨s, hs, hp, hend⟩ := cut_visited src M (L := L) (by omega)
    rw [← hp]
    by_contra hcon
    have hs0 : s.p = 0 := by omega
    -- the first pass consumes, so only the first head stands at 0
    obtain ⟨s', hpass, hstep⟩ := exists_dispPass (L := L) .init h0 hM
    have hconsume : 0 < s'.p := by
      cases hstep with
      | stall _ hcol => simp only [DispState.init] at hcol; omega
      | crlf _ _ | brk _ _ => simp
      | single _ _ | double _ _ => simp
    by_cases hinit : s = .init
    · subst hinit
      rcases hend with hnone | hlone'
      · rw [hpass] at hnone; cases hnone
      · exact hlone hlone'
    · have := disp_p_mono (hs.of_some hpass hinit)
      omega

end Reader

end RtSpark
