import RtSpark.Common.Tokens
import RtSpark.Reader.Paginate
/-!
# Pages are greedy

What `DispSizeCalculator` is for: the longest run of whole tokens that
goes into the rows of a page. The layout loop stands at the grid's free
cell behind every run that fits (`reaches_of_fits`), and only there or at
the seat of a double-byte character it has moved to the next row
(`stands_of_reaches`). So the cut is the longest run that fits.
-/

namespace RtSpark

namespace Reader

open Grid

variable {src : Mem} {w : List UInt8} {M L : ℕ} {s s' : DispState} {t : Token}
variable {ts us : List Token}

/-- The cell the layout loop is at. -/
def DispState.cell (s : DispState) : Cell := ⟨s.dispLine, s.lineCount⟩

/-- What the tokens take of the rows. -/
def items (ts : List Token) : List Item := ts.map Token.item

theorem items_append (ts us : List Token) : items (ts ++ us) = items ts ++ items us :=
  List.map_append

theorem items_take (ts : List Token) (k : ℕ) : (items ts).take k = items (ts.take k) :=
  List.map_take.symm

theorem items_drop (ts : List Token) (k : ℕ) : (items ts).drop k = items (ts.drop k) :=
  List.map_drop.symm

@[simp] theorem items_length (ts : List Token) : (items ts).length = ts.length :=
  List.length_map _

/-! ## One token -/

/-- `wrap` is the grid's rule for a row that a box fills. -/
theorem cell_wrap (s : DispState) {p need k : ℕ} (hk : s.lineCount + k ≤ L) :
    ((⟨p, need, s.dispLine, s.lineCount + k⟩ : DispState).wrap L).cell
      = s.cell.after L (.box k) := by
  have hseat : s.cell.seat L (.box k) = s.cell := seat_box_of_le hk
  unfold Cell.after
  rw [hseat]
  rcases wrap_cases (L := L) ⟨p, need, s.dispLine, s.lineCount + k⟩ with
    ⟨hne, heq⟩ | ⟨hfull, heq⟩ <;> rw [heq]
  · exact (if_neg hne).symm
  · exact (if_pos hfull).symm

/-- **The pass at a token.** It goes on to the grid's next free cell; a
double-byte character that has its seat in the next row is left there. -/
theorem dispPass_token (ht : TokenAt src s.p t) (hM : s.dispLine < M) (hrow : s.lineCount < L) :
    (s.cell.seat L t.item = s.cell ∧ ∃ s', dispPass src M L s = some s' ∧
        s'.p = s.p + t.size ∧ s'.cell = s.cell.after L t.item) ∨
      (s.cell.seat L t.item = s.cell.down ∧ t.item = .box 2 ∧
        dispPass src M L s = some s.endLine) := by
  have h0 := ht.ne_zero
  cases ht with
  | crlf hcr hlf =>
    refine Or.inl ⟨rfl, ⟨s.p + 2, s.dispNeed + 2, s.dispLine + 1, 0⟩, ?_, rfl, rfl⟩
    rw [dispPass, if_pos ⟨h0, hM⟩, if_pos ⟨hcr, hlf⟩]
    rfl
  | brk hb hpair =>
    refine Or.inl ⟨rfl, ⟨s.p + 1, s.dispNeed + 1, s.dispLine + 1, 0⟩, ?_, rfl, rfl⟩
    rw [dispPass, if_pos ⟨h0, hM⟩, if_neg hpair, if_pos hb]
    rfl
  | single _ hb hlt =>
    refine Or.inl ⟨seat_box_of_le hrow, DispState.wrap L ⟨s.p + 1, s.dispNeed + 1, s.dispLine,
      s.lineCount + 1⟩, ?_, wrap_p _, cell_wrap s hrow⟩
    rw [dispPass, if_pos ⟨h0, hM⟩, if_neg fun h => hb (Or.inr h.1), if_neg hb, if_pos hlt]
  | double hge =>
    have hlt : ¬ src s.p < 0x80 := UInt8.not_lt.2 hge
    have hb := not_brk_of_ge hge
    by_cases hcol : s.lineCount + 1 = L
    · refine Or.inr ⟨seat_box_of_lt ?_, rfl, ?_⟩
      · simp only [DispState.cell]
        omega
      · rw [dispPass, if_pos ⟨h0, hM⟩, if_neg fun h => hb (Or.inr h.1), if_neg hb, if_neg hlt,
          if_pos hcol]
    · have hroom : s.lineCount + 2 ≤ L := by omega
      refine Or.inl ⟨seat_box_of_le hroom, DispState.wrap L ⟨s.p + 2, s.dispNeed + 2, s.dispLine,
        s.lineCount + 2⟩, ?_, wrap_p _, cell_wrap s hroom⟩
      rw [dispPass, if_pos ⟨h0, hM⟩, if_neg fun h => hb (Or.inr h.1), if_neg hb, if_neg hlt,
        if_neg hcol]

/-- At its seat a box stays. -/
theorem seat_down (hL : 1 < L) (ht : t.item = .box 2) (c : Cell) :
    c.down.seat L t.item = c.down := by
  rw [ht]
  exact seat_box_of_le (by simp only [Cell.down]; omega)

/-- **A token that has its seat on the page is read**, in one pass or two,
from the head that stands at its seat. -/
theorem reaches_token (ht : TokenAt src s.p t) (hL : 1 < L) (hrow : s.lineCount < L)
    (hseat : (s.cell.seat L t.item).row < M) :
    ∃ u s', Loop.Reaches (dispPass src M L) s u ∧ u.p = s.p ∧ u.cell = s.cell.seat L t.item ∧
      dispPass src M L u = some s' ∧ s'.p = s.p + t.size ∧ s'.cell = s.cell.after L t.item := by
  have hM : s.dispLine < M := Nat.lt_of_le_of_lt (row_le_seat s.cell t.item) hseat
  rcases dispPass_token ht hM hrow with ⟨hstay, s', hpass, hp, hcell⟩ | ⟨hdown, hbox, hpass⟩
  · exact ⟨s, s', Relation.ReflTransGen.refl, rfl, hstay.symm, hpass, hp, hcell⟩
  · have hM' : s.endLine.dispLine < M := by
      rw [hdown] at hseat
      exact hseat
    have hrow' : s.endLine.lineCount < L := Nat.lt_trans Nat.zero_lt_one hL
    have hstay : s.endLine.cell.seat L t.item = s.endLine.cell := seat_down hL hbox s.cell
    rcases dispPass_token (s := s.endLine) ht hM' hrow' with
      ⟨-, s', hpass', hp, hcell⟩ | ⟨hdown', -, -⟩
    · refine ⟨s.endLine, s', Relation.ReflTransGen.single hpass, rfl, hdown.symm, hpass', hp, ?_⟩
      rw [hcell, Cell.after, Cell.after, hstay, hdown]
      rfl
    · rw [hstay] at hdown'
      exact absurd (congrArg Cell.row hdown') (Nat.succ_ne_self _).symm

/-! ## Runs of tokens -/

/-- **The layout loop comes to the free cell behind every run of tokens
that fits.** -/
theorem reaches_run (hw : Holds src w) (hL : 1 < L) (hs : Loop.Reaches (dispPass src M L) .init s)
    (htok : tokens (w.drop s.p) = ts ++ us) (hfits : Fits M L s.cell (items ts)) :
    ∃ s', Loop.Reaches (dispPass src M L) .init s' ∧ s'.p = s.p + sizeAll ts ∧
      s'.cell = s.cell.afterAll L (items ts) := by
  induction ts generalizing s with
  | nil => exact ⟨s, hs, rfl, rfl⟩
  | cons t ts ih =>
    obtain ⟨hseat, hrest⟩ := hfits
    have hrow : s.lineCount < L := (dispInv_of_reaches (by omega) hs).row
    obtain ⟨u, s', hu, -, -, hpass, hp, hcell⟩ := reaches_token (hw.tokenAt htok) hL hrow hseat
    have hs' : Loop.Reaches (dispPass src M L) .init s' := (hs.trans hu).tail hpass
    have htok' : tokens (w.drop s'.p) = ts ++ us := by
      rw [hp]
      exact (tokens_drop_succ htok).symm
    rw [← hcell] at hrest
    obtain ⟨s'', hs'', hp'', hcell''⟩ := ih hs' htok' hrest
    refine ⟨s'', hs'', ?_, ?_⟩
    · rw [hp'', hp, sizeAll_cons, Nat.add_assoc]
    · rw [hcell'', hcell]
      rfl

theorem reaches_of_fits (hw : Holds src w) (hL : 1 < L) (htok : tokens w = ts ++ us)
    (hfits : Fits M L .origin (items ts)) :
    ∃ s, Loop.Reaches (dispPass src M L) .init s ∧ s.p = sizeAll ts ∧
      s.cell = Cell.afterAll L .origin (items ts) := by
  obtain ⟨s, hs, hp, hcell⟩ := reaches_run (M := M) (s := .init) hw hL Relation.ReflTransGen.refl
    htok hfits
  exact ⟨s, hs, hp.trans (Nat.zero_add _), hcell⟩

/-- Where the layout loop stands: behind a run of tokens that fits, at the
free cell or, where a double-byte character has been moved to the next
row, at its seat. -/
def Stands (src : Mem) (w : List UInt8) (M L : ℕ) (s : DispState) : Prop :=
  ∃ ts us, tokens w = ts ++ us ∧ sizeAll ts = s.p ∧ Fits M L .origin (items ts) ∧
    (s.cell = Cell.afterAll L .origin (items ts) ∨
      0x80 ≤ src s.p ∧ s.cell = (Cell.afterAll L .origin (items ts)).seat L (.box 2))

/-- A pass that reads a token stands at the token's seat. -/
theorem seat_eq_cell {c : Cell} (ht : TokenAt src s.p t)
    (hcell : s.cell = c ∨ 0x80 ≤ src s.p ∧ s.cell = c.seat L (.box 2))
    (hstay : s.cell.seat L t.item = s.cell) : c.seat L t.item = s.cell := by
  rcases hcell with heq | ⟨hge, heq⟩
  · rw [← heq, hstay]
  · rw [ht.item_eq_iff.2 hge, ← heq]

/-- **And it stands nowhere else**, as long as it is in the window. -/
theorem stands_of_reaches (hw : Holds src w) (hL : 1 < L)
    (hs : Loop.Reaches (dispPass src M L) .init s) (hp : s.p ≤ w.length) :
    Stands src w M L s := by
  induction hs with
  | refl => exact ⟨[], tokens w, rfl, rfl, trivial, Or.inl rfl⟩
  | @tail u s hu hpass ih =>
    obtain ⟨h0, hM, hstep⟩ := dispPass_cases hpass
    have hle := dispStep_p hstep
    obtain ⟨ts, us, hsplit, hsize, hfits, hcell⟩ := ih (by omega)
    obtain ⟨t, ht⟩ := exists_tokenAt h0
    have hrow : u.lineCount < L := (dispInv_of_reaches (by omega) hu).row
    rcases dispPass_token ht hM hrow with ⟨hstay, s', hpass', hp', hcell'⟩ | ⟨hdown, hbox, hpass'⟩
    · obtain rfl : s = s' := Option.some.inj (hpass.symm.trans hpass')
      -- in either case the loop is at the token's seat
      have hseat := seat_eq_cell ht hcell hstay
      have hrest := (tokens_drop hsplit).1
      rw [hsize, ht.tokens_eq hw (by omega)] at hrest
      refine ⟨ts ++ [t], tokens (w.drop (u.p + t.size)), ?_, ?_, ?_, Or.inl ?_⟩
      · rw [hsplit, hrest, List.append_assoc]
        rfl
      · rw [sizeAll_append, sizeAll_cons, sizeAll_nil, hsize, hp', Nat.add_zero]
      · rw [items_append]
        exact fits_concat.2 ⟨hfits, by rw [hseat]; exact hM⟩
      · have hafter : Cell.afterAll L .origin (items ts ++ [t.item])
            = ((Cell.afterAll L .origin (items ts)).seat L t.item).past L t.item := afterAll_concat
        rw [items_append]
        exact hcell'.trans (by rw [Cell.after, hstay]; exact (hafter.trans (by rw [hseat])).symm)
    · obtain rfl : s = u.endLine := Option.some.inj (hpass.symm.trans hpass')
      have hge := ht.item_eq_iff.1 hbox
      refine ⟨ts, us, hsplit, hsize, hfits, Or.inr ⟨hge, ?_⟩⟩
      rw [hbox] at hdown
      rcases hcell with heq | ⟨-, heq⟩
      · rw [← heq, hdown]
        rfl
      · rw [heq, seat_seat_box (by omega), ← heq] at hdown
        exact absurd (congrArg Cell.row hdown) (Nat.succ_ne_self _).symm

/-! ## The longest run -/

/-- `n` is the length of the longest run of tokens the text opens with that
goes into `M` rows of `L` columns. -/
def LongestFit (M L : ℕ) (text : List UInt8) (n : ℕ) : Prop :=
  (∃ k, sizeAll ((tokens text).take k) = n ∧ Fits M L .origin (items ((tokens text).take k))) ∧
    ∀ k, Fits M L .origin (items ((tokens text).take k)) → sizeAll ((tokens text).take k) ≤ n

/-- The bytes of the tokens that go into the rows from the free cell on. -/
def fitting (M L : ℕ) : Cell → List Token → ℕ
  | _, [] => 0
  | c, t :: ts =>
    if (c.seat L t.item).row < M then t.size + fitting M L (c.after L t.item) ts else 0

/-- They are a run that fits, and no other is longer. -/
theorem fitting_longest (M L : ℕ) (c : Cell) (ts : List Token) :
    (∃ k, sizeAll (ts.take k) = fitting M L c ts ∧ Fits M L c (items (ts.take k))) ∧
      ∀ k, Fits M L c (items (ts.take k)) → sizeAll (ts.take k) ≤ fitting M L c ts := by
  induction ts generalizing c with
  | nil =>
    refine ⟨⟨0, rfl, trivial⟩, fun k _ => ?_⟩
    rw [List.take_nil]
    exact Nat.le_refl 0
  | cons t ts ih =>
    obtain ⟨⟨k, hsize, hfits⟩, hmax⟩ := ih (c.after L t.item)
    by_cases hseat : (c.seat L t.item).row < M
    · rw [fitting, if_pos hseat]
      refine ⟨⟨k + 1, ?_, hseat, hfits⟩, fun j hj => ?_⟩
      · rw [List.take_succ_cons, sizeAll_cons, hsize]
      · cases j with
        | zero => exact Nat.zero_le _
        | succ j =>
          rw [List.take_succ_cons, sizeAll_cons]
          exact Nat.add_le_add_left (hmax j hj.2) _
    · rw [fitting, if_neg hseat]
      refine ⟨⟨0, rfl, trivial⟩, fun j hj => ?_⟩
      cases j with
      | zero => exact Nat.le_refl 0
      | succ j => exact absurd hj.1 hseat

/-- **The longest run is the one the rows take token by token.** -/
theorem longestFit_iff {text : List UInt8} {n : ℕ} :
    LongestFit M L text n ↔ n = fitting M L .origin (tokens text) := by
  obtain ⟨⟨k, hsize, hfits⟩, hmax⟩ := fitting_longest M L .origin (tokens text)
  constructor
  · rintro ⟨⟨j, hj, hjfits⟩, hjmax⟩
    have hle := hmax j hjfits
    have hge := hjmax k hfits
    omega
  · rintro rfl
    exact ⟨⟨k, hsize, hfits⟩, hmax⟩

/-- More tokens, more bytes. -/
theorem sizeAll_take_le {ts : List Token} {j k : ℕ} (h : (ts.take j).length ≤ k) :
    sizeAll (ts.take j) ≤ sizeAll (ts.take k) := by
  have hsplit : (ts.take k).take (ts.take j).length = ts.take j := by
    rw [List.take_take, Nat.min_eq_left h, List.length_take, List.take_eq_take_iff]
    omega
  have hsize := sizeAll_append ((ts.take k).take (ts.take j).length)
    ((ts.take k).drop (ts.take j).length)
  rw [List.take_append_drop, hsplit] at hsize
  omega

/-- Text without a NUL ends where no token is left, or before a half
character. -/
theorem end_of_tokens_nil (hw : Holds src w) (hne : ∀ i, i < w.length → src i ≠ 0) {p : ℕ}
    (hp : p ≤ w.length) (h : tokens (w.drop p) = []) : src p = 0 ∨ LoneAt src p := by
  rcases Nat.lt_or_eq_of_le hp with hlt | rfl
  · obtain ⟨hend, hge⟩ := hw.half_of_nil hlt (hne p hlt) h
    exact Or.inr ⟨hge, by rw [hend]; exact hw.nul⟩
  · exact Or.inl hw.nul

/-- A blocked head ends the loop, in one pass or none. -/
theorem exits_of_blocked (ht : TokenAt src s.p t) (hL : 1 < L)
    (hs : Loop.Reaches (dispPass src M L) .init s) (hblock : M ≤ (s.cell.seat L t.item).row) :
    ∃ s', Loop.Reaches (dispPass src M L) .init s' ∧ s'.p = s.p ∧ dispPass src M L s' = none := by
  have hstop : ∀ u : DispState, M ≤ u.dispLine → dispPass src M L u = none := fun u hu =>
    if_neg fun h => Nat.not_lt.2 hu h.2
  rcases Nat.lt_or_ge s.dispLine M with hM | hM
  · have hrow : s.lineCount < L := (dispInv_of_reaches (by omega) hs).row
    rcases dispPass_token ht hM hrow with ⟨hstay, -⟩ | ⟨hdown, -, hpass⟩
    · rw [hstay] at hblock
      exact absurd hM (Nat.not_lt.2 hblock)
    · rw [hdown] at hblock
      exact ⟨s.endLine, hs.tail hpass, rfl, hstop _ hblock⟩
  · exact ⟨s, hs, rfl, hstop s hM⟩

/-- **The cut is the longest run of tokens that fits**, for any page. -/
theorem cut_longest (hw : Holds src w) (hne : ∀ i, i < w.length → src i ≠ 0) (M : ℕ)
    (hL : 1 < L) : LongestFit M L w (dispSizeCalculator src M L) := by
  obtain ⟨k, hk, hfits, hblock⟩ := exists_longest M L .origin (items (tokens w))
  rw [items_length] at hk
  rw [items_take] at hfits hblock
  rw [items_drop] at hblock
  have hsplit : tokens w = (tokens w).take k ++ (tokens w).drop k := (List.take_append_drop ..).symm
  obtain ⟨s, hs, hp, hcell⟩ := reaches_of_fits hw hL hsplit hfits
  obtain ⟨hrest, hle⟩ := tokens_drop hsplit
  rw [← hp] at hrest hle
  -- the loop ends behind the run, or finds half a character there
  have hend : ∃ u, Loop.Reaches (dispPass src M L) .init u ∧ u.p = s.p ∧
      (dispPass src M L u = none ∨ LoneAt src u.p) := by
    cases hdrop : (tokens w).drop k with
    | nil =>
      rw [hdrop] at hrest
      rcases end_of_tokens_nil hw hne hle hrest.symm with h0 | hlone
      · exact ⟨s, hs, rfl, Or.inl (if_neg fun h => h.1 h0)⟩
      · exact ⟨s, hs, rfl, Or.inr hlone⟩
    | cons t us =>
      rw [hdrop] at hrest hblock
      have hblock' := hblock t.item rfl
      rw [← hcell] at hblock'
      obtain ⟨u, hu, hup, hnone⟩ := exits_of_blocked (hw.tokenAt hrest.symm) hL hs hblock'
      exact ⟨u, hu, hup, Or.inl hnone⟩
  obtain ⟨u, hu, hup, hend⟩ := hend
  have htext : TextBefore src u := fun i hi => hne i (by omega)
  have hcut : dispSizeCalculator src M L = sizeAll ((tokens w).take k) := by
    rw [cut_eq_of_head (by omega) hu htext hend, hup, hp]
  refine ⟨⟨k, hcut.symm, hfits⟩, fun j hj => ?_⟩
  have hall : items ((tokens w).take k) ++ items ((tokens w).drop k) = items (tokens w) := by
    rw [← items_append, List.take_append_drop]
  have hj' : Fits M L .origin
      ((items ((tokens w).take k) ++ items ((tokens w).drop k)).take j) := by
    rw [hall, items_take]
    exact hj
  have hshort := hj'.length_le hblock
  rw [hall, items_take, items_length, items_length, List.length_take_of_le hk] at hshort
  rw [hcut]
  exact sizeAll_take_le hshort

/-- **Pages are greedy-maximal**: on a window that ends at its first NUL,
the cut is the longest run of whole tokens that goes into the rows of a
page. -/
theorem dispSizeCalculator_greedy (src : Mem) (n : ℕ) (hnul : src n = 0) :
    LongestFit maxColumnSize maxLineSize (Mem.str src n)
      (dispSizeCalculator src maxColumnSize maxLineSize) := by
  refine cut_longest (holds_str hnul) (fun i hi => ?_) maxColumnSize (by decide)
  rw [Mem.str_length] at hi
  exact Mem.ne_zero_of_lt_strnlen hi

/-- A window that ends in half a character. -/
theorem dispSizeCalculator_greedy_full_page :
    LongestFit maxColumnSize maxLineSize
      (Mem.str (Mem.buffer 181 (List.replicate 178 0x61 ++ [0xB0]) Mem.zeros) maxCharsDisp)
      (dispSizeCalculator (Mem.buffer 181 (List.replicate 178 0x61 ++ [0xB0]) Mem.zeros)
        maxColumnSize maxLineSize) :=
  dispSizeCalculator_greedy (Mem.buffer 181 (List.replicate 178 0x61 ++ [0xB0]) Mem.zeros)
    maxCharsDisp (by decide +kernel)

end Reader

end RtSpark
