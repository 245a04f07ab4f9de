import RtSpark.Common.TokenLoop
import RtSpark.Reader.Greedy
import RtSpark.Reader.Layout
import RtSpark.Reader.Model.Console
/-!
# The page on the console

`setPageOnView` has its own copy of the layout: columns are counted down,
and a full row is broken when the next character comes. Against the grid
the paginator follows, it goes wrong at two tokens (`PartsAt`): a line end
behind a full row breaks the row it finds full and no other, and a
character whose first byte is `0x80` is printed into the last column,
because the test for it is `> 0x80`. `shape_step` is the pass against the
grid, and everywhere else the two agree.
-/

namespace RtSpark

namespace Reader

open Grid

variable {src content : Mem} {text : List UInt8} {v v' : ViewState} {s s' : DispState}
variable {ts us : List Token} {t : Token}

/-! ## One pass -/

theorem breakRow_of_ne (h : v.lineSize ≠ 0) : v.breakRow = v := if_neg h

theorem breakRow_of_eq (h : v.lineSize = 0) :
    v.breakRow = ⟨v.p, fullLine, v.prints ++ [.rowEnd]⟩ := if_pos h

@[simp] theorem breakRow_p (v : ViewState) : v.breakRow.p = v.p := by
  unfold ViewState.breakRow
  split <;> rfl

/-- A line end is printed. -/
theorem viewPass_brk (ht : TokenAt content v.p t) (hitem : t.item = .brk) :
    viewPass content v = some ⟨v.p + t.size, fullLine, v.prints ++ [.rowEnd]⟩ := by
  have h0 := ht.ne_zero
  cases ht with
  | crlf hcr hlf =>
    rw [viewPass, if_pos h0, if_pos ⟨hcr, hlf⟩]
    rfl
  | brk hb hpair =>
    rw [viewPass, if_pos h0, if_neg hpair, if_pos hb]
    rfl
  | single _ _ _ => cases hitem
  | double _ => cases hitem

/-- A character that finds one column is not. -/
theorem viewPass_stall (hlast : v.lastColumn content) :
    viewPass content v = some ⟨v.p, fullLine, v.prints ++ [.paddedRowEnd]⟩ := by
  have hge : 0x80 ≤ content v.p := UInt8.le_of_lt hlast.1
  have hb := not_brk_of_ge hge
  rw [viewPass, if_pos (ne_zero_of_double hge), if_neg fun h => hb (Or.inr h.1), if_neg hb,
    if_pos hlast]

/-- Any other character is, once a full row is broken. -/
theorem viewPass_box {w : ℕ} (ht : TokenAt content v.p t) (hitem : t.item = .box w)
    (hlast : ¬ v.lastColumn content) :
    viewPass content v = some ⟨v.p + t.size, v.breakRow.lineSize - UInt8.ofNat w,
      v.breakRow.prints ++ [.chars t.bytes]⟩ := by
  have h0 := ht.ne_zero
  cases ht with
  | crlf _ _ => cases hitem
  | brk _ _ => cases hitem
  | single _ hb hlt =>
    cases hitem
    rw [viewPass, if_pos h0, if_neg fun h => hb (Or.inr h.1), if_neg hb, if_neg hlast]
    simp only [breakRow_p]
    exact if_pos hlt
  | double hge =>
    cases hitem
    have hb := not_brk_of_ge hge
    rw [viewPass, if_pos h0, if_neg fun h => hb (Or.inr h.1), if_neg hb, if_neg hlast]
    simp only [breakRow_p]
    exact if_neg (UInt8.not_lt.2 hge)

@[simp] theorem cellOf_concat (prints : List Print) (print : Print) :
    cellOf (prints ++ [print]) = printCell (cellOf prints) print := by
  rw [cellOf, List.foldl_append]
  rfl

/-! ## Against the grid -/

/-- The free cell behind the tokens. -/
def freeCell (ts : List Token) : Cell := Cell.afterAll maxLineSize .origin (items ts)

/-- The last token filled its row. -/
def EndsFull (ts : List Token) : Prop :=
  (freeCell ts).col = 0 ∧ ∃ t ∈ ts.getLast?, t.item ≠ .brk

/-- The token the console and the paginator part at: a line end behind a
full row, or a character with the first byte `0x80` where one column is
left. -/
def PartsAt (ts : List Token) (t : Token) : Prop :=
  (t.item = .brk ∧ EndsFull ts) ∨ (∃ c, t = .double 0x80 c) ∧ (freeCell ts).col = 19

theorem freeCell_concat (ts : List Token) (t : Token) :
    freeCell (ts ++ [t]) = (freeCell ts).after 20 t.item := by
  rw [freeCell, items_append]
  exact afterAll_concat

theorem freeCell_col_lt (ts : List Token) : (freeCell ts).col < 20 := by
  rcases List.eq_nil_or_concat ts with rfl | ⟨ts, t, rfl⟩
  · decide
  · rw [List.concat_eq_append, freeCell_concat]
    exact col_after_lt (by decide) fun w hw => Nat.le_trans (Token.width_eq hw).2 (by decide)

theorem endsFull_concat :
    EndsFull (ts ++ [t]) ↔ (freeCell (ts ++ [t])).col = 0 ∧ t.item ≠ .brk := by
  unfold EndsFull
  rw [List.getLast?_concat]
  refine and_congr_right fun _ => ⟨?_, fun h => ⟨t, rfl, h⟩⟩
  rintro ⟨u, hu, hitem⟩
  rw [Option.some.inj hu]
  exact hitem

/-- How the console stands behind the tokens: at the free cell, at the end
of a row they filled, or at the start of the next row, where it has put a
character of two columns. -/
inductive Shape (content : Mem) (ts : List Token) (v : ViewState) : Prop
  | free : ¬ EndsFull ts → cellOf v.prints = freeCell ts →
      v.lineSize.toNat + (freeCell ts).col = 20 → Shape content ts v
  | full : EndsFull ts → v.lineSize = 0 → (cellOf v.prints).col = 20 →
      (cellOf v.prints).down = freeCell ts → Shape content ts v
  | moved : (freeCell ts).col = 19 → 0x80 < content v.p → v.lineSize = fullLine →
      cellOf v.prints = (freeCell ts).down → Shape content ts v

/-- A shape is within the columns of a page. -/
theorem Shape.col_le (h : Shape content ts v) : (cellOf v.prints).col ≤ 20 := by
  cases h with
  | free _ hcell _ =>
    rw [hcell]
    exact (freeCell_col_lt ts).le
  | full _ _ hcol _ => exact hcol.le
  | moved _ _ _ hcell =>
    rw [hcell]
    exact Nat.zero_le _

/-- A character printed at its seat. -/
theorem shape_box {c : Cell} {w p : ℕ} {n : UInt8} {prints : List Print} (hitem : t.item = .box w)
    (hseat : (freeCell ts).seat 20 (.box w) = c) (hroom : c.col + w ≤ 20)
    (hn : n.toNat + c.col = 20) (hprints : cellOf prints = c) :
    Shape content (ts ++ [t]) ⟨p, n - UInt8.ofNat w, prints ++ [.chars t.bytes]⟩ := by
  obtain ⟨hsize, hw⟩ := Token.width_eq hitem
  have hlen : t.bytes.length = w := hsize.symm
  have hfree : freeCell (ts ++ [t]) = c.past 20 (.box w) := by
    rw [freeCell_concat, hitem, Cell.after, hseat]
  have hcell : cellOf (prints ++ [.chars t.bytes]) = ⟨c.row, c.col + w⟩ := by
    rw [cellOf_concat, hprints, printCell, hlen]
  have hsub : (n - UInt8.ofNat w).toNat = n.toNat - w := by
    have hofNat : (UInt8.ofNat w).toNat = w :=
      UInt8.toNat_ofNat_of_lt' (Nat.lt_of_le_of_lt hw (by decide))
    have hle : UInt8.ofNat w ≤ n := by
      rw [UInt8.le_iff_toNat_le, hofNat]
      omega
    rw [UInt8.toNat_sub_of_le _ _ hle, hofNat]
  by_cases hfull : c.col + w = 20
  · have hdown : c.past 20 (.box w) = c.down := if_pos hfull
    rw [hdown] at hfree
    refine .full ?_ ?_ ?_ ?_
    · rw [endsFull_concat, hfree, hitem]
      exact ⟨rfl, by simp⟩
    · have hzero : (n - UInt8.ofNat w).toNat = 0 := by omega
      exact UInt8.toNat_inj.1 hzero
    · rw [hcell]
      exact hfull
    · rw [hcell, hfree]
      rfl
  · have hstay : c.past 20 (.box w) = ⟨c.row, c.col + w⟩ := if_neg hfull
    rw [hstay] at hfree
    have hpos : 0 < w := by
      rw [hsize]
      exact t.size_pos
    refine .free ?_ ?_ ?_
    · rw [endsFull_concat, hfree]
      rintro ⟨hcol, -⟩
      simp only at hcol
      omega
    · rw [hcell, hfree]
    · rw [hfree, hsub]
      simp only
      omega

/-- What the pass comes to at a token: the row ends before it, or it is
printed at its seat, or, where the console and the paginator part, in
another cell. -/
inductive StepAt (content : Mem) (ts : List Token) (t : Token) (v v' : ViewState) : Prop
  | moved : ¬ PartsAt ts t → v'.p = v.p → Shape content ts v' → StepAt content ts t v v'
  | seated : ¬ PartsAt ts t → v'.p = v.p + t.size → Shape content (ts ++ [t]) v' →
      cellOf v'.prints.dropLast = (freeCell ts).seat 20 t.item → StepAt content ts t v v'
  | parted : PartsAt ts t → v'.p = v.p + t.size →
      cellOf v'.prints.dropLast ≠ (freeCell ts).seat 20 t.item → StepAt content ts t v v'

theorem down_ne (c : Cell) : c.down ≠ c := fun h => Nat.succ_ne_self _ (congrArg Cell.row h)

/-- The two part at a character with the first byte `0x80` only, and only
where one column is left. -/
theorem not_partsAt_of_box {w p : ℕ} (ht : TokenAt content p t) (hitem : t.item = .box w)
    (hok : 0x80 < content p ∨ (freeCell ts).col ≠ 19) : ¬ PartsAt ts t := by
  rintro (⟨hbrk, -⟩ | ⟨⟨b, rfl⟩, h19⟩)
  · rw [hitem] at hbrk
    cases hbrk
  · rcases hok with hgt | hne
    · generalize hlead : Token.double 0x80 b = tok at ht
      cases ht with
      | double _ =>
        injection hlead with hlead
        rw [← hlead] at hgt
        exact absurd hgt (by decide)
      | crlf _ _ | brk _ _ | single _ _ _ => cases hlead
    · exact hne h19

/-- A line end breaks the row it stands in; behind a full one that is the
row before its own. -/
theorem step_brk (ht : TokenAt content v.p t) (hitem : t.item = .brk) (h : Shape content ts v) :
    StepAt content ts t v ⟨v.p + t.size, fullLine, v.prints ++ [.rowEnd]⟩ := by
  cases h with
  | free hends hcell hline =>
    refine .seated ?_ rfl (.free ?_ ?_ ?_) ?_
    · rintro (⟨-, hfull⟩ | ⟨⟨b, hb⟩, -⟩)
      · exact hends hfull
      · rw [hb] at hitem
        cases hitem
    · rw [endsFull_concat, hitem]
      exact fun hfull => hfull.2 rfl
    · rw [cellOf_concat, hcell, freeCell_concat, hitem]
      rfl
    · rw [freeCell_concat, hitem]
      rfl
    · rw [List.dropLast_concat, hitem, seat_brk, hcell]
  | full hends _ _ hcell =>
    refine .parted (Or.inl ⟨hitem, hends⟩) rfl fun heq => ?_
    rw [List.dropLast_concat, hitem, seat_brk] at heq
    rw [heq] at hcell
    exact down_ne _ hcell
  | moved _ hgt _ _ =>
    rw [ht.item_eq_iff.2 (UInt8.le_of_lt hgt)] at hitem
    cases hitem

/-- A row with one column left ends before the character. -/
theorem step_stall {w : ℕ} (ht : TokenAt content v.p t) (hitem : t.item = .box w)
    (hlast : v.lastColumn content) (h : Shape content ts v) :
    StepAt content ts t v ⟨v.p, fullLine, v.prints ++ [.paddedRowEnd]⟩ := by
  have hline : v.lineSize.toNat = 1 := by
    have h1 := hlast.2
    omega
  refine .moved (not_partsAt_of_box ht hitem (Or.inl hlast.1)) rfl ?_
  cases h with
  | free hends hcell hline' =>
    refine .moved (by omega) hlast.1 rfl ?_
    rw [cellOf_concat, hcell]
    rfl
  | full _ hzero _ _ =>
    rw [hzero] at hline
    exact absurd hline (by decide)
  | moved _ _ hfull _ =>
    rw [hfull] at hline
    exact absurd hline (by decide)

/-- A character where columns are left is printed into them: at its seat,
unless it has the first byte `0x80` and needs one column more. -/
theorem step_free {w : ℕ} (ht : TokenAt content v.p t) (hitem : t.item = .box w)
    (hlast : ¬ v.lastColumn content) (hcell : cellOf v.prints = freeCell ts)
    (hline : v.lineSize.toNat + (freeCell ts).col = 20) :
    StepAt content ts t v
      ⟨v.p + t.size, v.lineSize - UInt8.ofNat w, v.prints ++ [.chars t.bytes]⟩ := by
  have hcol := freeCell_col_lt ts
  obtain ⟨-, hw⟩ := Token.width_eq hitem
  rcases Nat.lt_or_ge 20 ((freeCell ts).col + w) with hover | hroom
  · have hbox : t.item = .box 2 := by rw [hitem]; congr 1; omega
    have hlead : content v.p = 0x80 := by
      have hnot : ¬ 0x80 < content v.p := fun hgt => hlast ⟨hgt, by omega⟩
      exact UInt8.le_antisymm (UInt8.not_lt.1 hnot) (ht.item_eq_iff.1 hbox)
    refine .parted (Or.inr ⟨?_, by omega⟩) rfl ?_
    · cases ht with
      | double _ => exact ⟨_, by rw [hlead]⟩
      | crlf _ _ | brk _ _ | single _ _ _ => cases hbox
    · rw [List.dropLast_concat, hitem, seat_box_of_lt hover, hcell]
      exact (down_ne _).symm
  · have hseat := seat_box_of_le hroom
    refine .seated ?_ rfl (shape_box hitem hseat hroom hline hcell) ?_
    · by_cases h19 : (freeCell ts).col = 19
      · -- one column: the character takes no more
        rintro (⟨hbrk, -⟩ | ⟨⟨b, rfl⟩, -⟩)
        · rw [hitem] at hbrk
          cases hbrk
        · cases hitem
          omega
      · exact not_partsAt_of_box ht hitem (Or.inr h19)
    · rw [List.dropLast_concat, hitem, hseat, hcell]

/-- A character is printed once a full row is broken. -/
theorem step_box {w : ℕ} (ht : TokenAt content v.p t) (hitem : t.item = .box w)
    (hlast : ¬ v.lastColumn content) (h : Shape content ts v) :
    StepAt content ts t v ⟨v.p + t.size, v.breakRow.lineSize - UInt8.ofNat w,
      v.breakRow.prints ++ [.chars t.bytes]⟩ := by
  obtain ⟨-, hw⟩ := Token.width_eq hitem
  cases h with
  | free hends hcell hline =>
    have hcol := freeCell_col_lt ts
    have hne : v.lineSize ≠ 0 := by
      intro hzero
      rw [hzero, UInt8.toNat_zero] at hline
      omega
    rw [breakRow_of_ne hne]
    exact step_free ht hitem hlast hcell hline
  | full hends hzero _ hcell =>
    have hfirst : (freeCell ts).col = 0 := hends.1
    have hseat : (freeCell ts).seat 20 (.box w) = freeCell ts := seat_box_of_le (by omega)
    have hprints : cellOf (v.prints ++ [.rowEnd]) = freeCell ts := by
      rw [cellOf_concat]
      exact hcell
    rw [breakRow_of_eq hzero]
    refine .seated (not_partsAt_of_box ht hitem (Or.inr (by omega))) rfl
      (shape_box hitem hseat (by omega) ?_ hprints) ?_
    · rw [hfirst]
      rfl
    · rw [List.dropLast_concat, hitem, hseat, hprints]
  | moved h19 hgt hfull hcell =>
    have hw2 : w = 2 := by
      have hbox := ht.item_eq_iff.2 (UInt8.le_of_lt hgt)
      rw [hitem] at hbox
      cases hbox
      rfl
    have hne : v.lineSize ≠ 0 := by
      rw [hfull]
      decide
    have hseat : (freeCell ts).seat 20 (.box w) = (freeCell ts).down :=
      seat_box_of_lt (by omega)
    rw [breakRow_of_ne hne]
    refine .seated (not_partsAt_of_box ht hitem (Or.inl hgt)) rfl
      (shape_box hitem hseat ?_ ?_ hcell) ?_
    · show 0 + w ≤ 20
      omega
    · rw [hfull]
      rfl
    · rw [List.dropLast_concat, hitem, hseat, hcell]

/-- **The pass against the grid.** -/
theorem shape_step (ht : TokenAt content v.p t) (h : Shape content ts v) :
    ∃ v', viewPass content v = some v' ∧ StepAt content ts t v v' := by
  cases hitem : t.item with
  | brk => exact ⟨_, viewPass_brk ht hitem, step_brk ht hitem h⟩
  | box w =>
    by_cases hlast : v.lastColumn content
    · exact ⟨_, viewPass_stall hlast, step_stall ht hitem hlast h⟩
    · exact ⟨_, viewPass_box ht hitem hlast, step_box ht hitem hlast h⟩

/-! ## The loop -/

/-- The characters a print shows. -/
def Print.shown : Print → List UInt8
  | .chars bytes => bytes
  | .rowEnd | .paddedRowEnd => []

/-- The characters of a token: a line end has none. -/
def tokenText (t : Token) : List UInt8 := if t.item = .brk then [] else t.bytes

/-- What every head of the loop satisfies, on a text of whole tokens: it is
behind some of them, and has printed their characters. -/
def ViewInv (text : List UInt8) (v : ViewState) : Prop :=
  ∃ ts us, tokens text = ts ++ us ∧ sizeAll ts = v.p ∧
    v.prints.flatMap Print.shown = ts.flatMap tokenText

/-- Bytes left, each worth two, and one for a row with one column left. -/
def viewMeasure (text : List UInt8) (v : ViewState) : ℕ :=
  2 * (text.length - v.p) + if v.lineSize = 1 then 1 else 0

/-- What a pass at a token does, whatever the row. -/
theorem viewPass_cases (ht : TokenAt content v.p t) (hpass : viewPass content v = some v') :
    (v.lastColumn content ∧ v'.p = v.p ∧ v'.lineSize = fullLine ∧
        v'.prints.flatMap Print.shown = v.prints.flatMap Print.shown) ∨
      (¬ v.lastColumn content ∧ v'.p = v.p + t.size ∧
        v'.prints.flatMap Print.shown = v.prints.flatMap Print.shown ++ tokenText t) := by
  by_cases hlast : v.lastColumn content
  · obtain rfl := Option.some.inj (hpass.symm.trans (viewPass_stall hlast))
    refine Or.inl ⟨hlast, rfl, rfl, ?_⟩
    rw [List.flatMap_append]
    exact List.append_nil _
  · refine Or.inr ⟨hlast, ?_⟩
    cases hitem : t.item with
    | brk =>
      obtain rfl := Option.some.inj (hpass.symm.trans (viewPass_brk ht hitem))
      refine ⟨rfl, ?_⟩
      rw [List.flatMap_append, tokenText, if_pos hitem]
      rfl
    | box w =>
      obtain rfl := Option.some.inj (hpass.symm.trans (viewPass_box ht hitem hlast))
      refine ⟨rfl, ?_⟩
      have hbreak : v.breakRow.prints.flatMap Print.shown = v.prints.flatMap Print.shown := by
        by_cases hzero : v.lineSize = 0
        · rw [breakRow_of_eq hzero, List.flatMap_append]
          exact List.append_nil _
        · rw [breakRow_of_ne hzero]
      rw [List.flatMap_append, hbreak, tokenText, if_neg (by rw [hitem]; exact Item.noConfusion)]
      exact congrArg _ (List.append_nil _)

/-- **The view reads its page by its tokens**: where a row has one column
left the next pass finds a new row. -/
theorem view_tokenLoop (content : Mem) :
    TokenLoop content (viewPass content) ViewState.p where
  stops := fun h0 => if_neg (not_not_intro h0)
  moves := by
    intro v v' t ht hpass
    rcases viewPass_cases ht hpass with ⟨-, hp, -⟩ | ⟨-, hp, -⟩
    · exact Or.inl hp
    · exact Or.inr hp
  reads := by
    intro v t ht
    have hread : ∀ u : ViewState, u.p = v.p → ¬ u.lastColumn content →
        ∃ v', viewPass content u = some v' ∧ v'.p = v.p + t.size := by
      intro u hup hlast
      have htu : TokenAt content u.p t := by
        rw [hup]
        exact ht
      cases hitem : t.item with
      | brk => exact ⟨_, viewPass_brk htu hitem, by rw [hup]⟩
      | box w => exact ⟨_, viewPass_box htu hitem hlast, by rw [hup]⟩
    by_cases hlast : v.lastColumn content
    · have hcols : (fullLine.toNat : ℤ) - 1 ≠ 0 := by decide
      have hfresh : ¬ ViewState.lastColumn content
          ⟨v.p, fullLine, v.prints ++ [.paddedRowEnd]⟩ := fun h => hcols h.2
      obtain ⟨v', hpass, hp⟩ := hread ⟨v.p, fullLine, v.prints ++ [.paddedRowEnd]⟩ rfl hfresh
      exact ⟨_, v', Relation.ReflTransGen.single (viewPass_stall hlast), rfl, hpass, hp⟩
    · obtain ⟨v', hpass, hp⟩ := hread v rfl hlast
      exact ⟨v, v', Relation.ReflTransGen.refl, rfl, hpass, hp⟩

/-- **A pass keeps the invariant, and the loop on its way.** -/
theorem viewInv_step (hw : Holds content text) (hall : sizeAll (tokens text) = text.length)
    (h : ViewInv text v) (hpass : viewPass content v = some v') :
    ViewInv text v' ∧ viewMeasure text v' < viewMeasure text v := by
  obtain ⟨ts, us, htok, hsize, htext⟩ := h
  have h0 := (view_tokenLoop content).ne_zero hpass
  obtain ⟨t, us', hus, ht, hle⟩ := exists_next hw hall htok hsize h0
  unfold viewMeasure
  rcases viewPass_cases ht hpass with ⟨hlast, hp, hline, htext'⟩ | ⟨-, hp, htext'⟩
  · refine ⟨⟨ts, us, htok, by rw [hp]; exact hsize, by rw [htext']; exact htext⟩, ?_⟩
    have hone : v.lineSize = 1 := by
      have h1 := hlast.2
      exact UInt8.toNat_inj.1 (show v.lineSize.toNat = 1 by omega)
    rw [hp, hline, hone, if_pos rfl, if_neg (by decide)]
    exact Nat.lt_succ_self _
  · have hpos := t.size_pos
    refine ⟨⟨ts ++ [t], us', ?_, ?_, ?_⟩, ?_⟩
    · rw [htok, hus, List.append_assoc]
      rfl
    · rw [sizeAll_append, sizeAll_cons, sizeAll_nil, hsize, hp, Nat.add_zero]
    · rw [htext', htext, List.flatMap_append]
      exact congrArg _ (List.append_nil _).symm
    · rw [hp]
      split <;> split <;> omega

theorem viewInv_init (text : List UInt8) : ViewInv text .init := ⟨[], tokens text, rfl, rfl, rfl⟩

theorem viewInv_of_reaches (hw : Holds content text) (hall : sizeAll (tokens text) = text.length)
    (hv : Loop.Reaches (viewPass content) .init v) : ViewInv text v :=
  hv.invariant (viewInv_init text) fun _ _ h hpass => (viewInv_step hw hall h hpass).1

/-- **The view ends at the page's NUL**, with all of its characters printed
in order. -/
theorem view_exits (hw : Holds content text) (hall : sizeAll (tokens text) = text.length)
    {passes : ℕ} (hpasses : 2 * text.length < passes) :
    Loop.Exits (viewPass content) .init (Loop.run (viewPass content) passes .init) ∧
      (Loop.run (viewPass content) passes .init).p = text.length ∧
      (Loop.run (viewPass content) passes .init).prints.flatMap Print.shown
        = (tokens text).flatMap tokenText := by
  have hexit : Loop.Exits (viewPass content) .init (Loop.run (viewPass content) passes .init) := by
    refine Loop.run_exits (I := ViewInv text) (μ := viewMeasure text)
      (fun _ _ h hpass => viewInv_step hw hall h hpass) (viewInv_init text) ?_
    unfold viewMeasure
    exact hpasses
  obtain ⟨v, hv, hend⟩ := (view_tokenLoop content).exits hw hall
    (show ViewState.init.p = 0 from rfl)
  rw [hexit.unique hv]
  obtain ⟨ts, us, htok, hsize, htext⟩ := viewInv_of_reaches hw hall hv.1
  obtain ⟨rfl, -⟩ := prefix_unique (show ts ++ us = tokens text ++ [] by rw [List.append_nil, htok])
    (hsize.trans (hend.trans hall.symm))
  exact ⟨hv, hend, htext⟩

/-- What is printed between the bars, whatever number of passes the loop is
given. -/
theorem view_shows (hw : Holds content text) (hall : sizeAll (tokens text) = text.length) :
    ∃ v, Loop.Exits (viewPass content) .init v ∧ v.p = text.length ∧
      v.prints.flatMap Print.shown = (tokens text).flatMap tokenText ∧
      ∀ passes, 2 * text.length < passes → setPageOnView passes content =
        viewBar ++ [cr, lf] ++ v.prints.flatMap Print.bytes ++ [cr, lf] ++ viewBar ++ [cr, lf] := by
  obtain ⟨hexit, hend, hshown⟩ := view_exits hw hall (Nat.lt_succ_self (2 * text.length))
  refine ⟨_, hexit, hend, hshown, fun passes hpasses => ?_⟩
  rw [setPageOnView, (view_exits hw hall hpasses).1.unique hexit]

/-- A pass reads a token of the text. -/
theorem exists_token_of_pass (hw : Holds content text)
    (hall : sizeAll (tokens text) = text.length)
    (hv : Loop.Reaches (viewPass content) .init v) (hpass : viewPass content v = some v') :
    ∃ ts t us, tokens text = ts ++ t :: us ∧ v.p = sizeAll ts := by
  obtain ⟨ts, us, htok, hsize, -⟩ := viewInv_of_reaches hw hall hv
  have h0 := (view_tokenLoop content).ne_zero hpass
  obtain ⟨t, us', rfl, -, -⟩ := exists_next hw hall htok hsize h0
  exact ⟨ts, t, us', htok, hsize.symm⟩

/-! ## The page -/

/-- **The tokens of a page** are those of its window up to the cut, and they
fit. -/
theorem page_tokens {pageCache : List PageInfo} {page : PageInfo} (hnul : src maxCharsDisp = 0)
    (hadd : add pageCache src (dispSizeCalculator src maxColumnSize maxLineSize)
      = some (pageCache ++ [page])) :
    ∃ us, tokens (Mem.str src maxCharsDisp) = tokens page.content.chars ++ us ∧
      sizeAll (tokens page.content.chars) = page.content.chars.length ∧
      page.content.chars.length = dispSizeCalculator src maxColumnSize maxLineSize ∧
      Fits 9 20 .origin (items (tokens page.content.chars)) := by
  have hpage := isPage_of_add hnul hadd
  have hw := holds_str hnul
  obtain ⟨s, hs, hp, -⟩ := cut_visited src 9 (L := 20) (by decide)
  have hcut : s.p = dispSizeCalculator src maxColumnSize maxLineSize := hp
  have hlen : dispSizeCalculator src maxColumnSize maxLineSize
      ≤ (Mem.str src maxCharsDisp).length := by
    rw [Mem.str_length]
    exact Mem.le_strnlen (cut_le hnul) fun i hi => ne_zero_of_lt_cut hi
  obtain ⟨ts, us, htok, hsize, hfits, -⟩ :=
    stands_of_reaches hw (by decide) hs (by rw [hcut]; exact hlen)
  rw [Mem.str_length] at hlen
  -- the content is the start of the window's text
  have htake : page.content.chars = (Mem.str src maxCharsDisp).take (sizeAll ts) := by
    rw [hpage.chars, hsize, hcut, Mem.str, ← List.map_take, List.take_range, Nat.min_eq_left hlen]
  have hts : tokens page.content.chars = ts := by
    rw [htake]
    exact tokens_take htok
  refine ⟨us, by rw [hts]; exact htok, ?_, hpage.length, by rw [hts]; exact hfits⟩
  rw [hts, hpage.length, hsize, hcut]

/-- The console shows the page as the paginator laid it out: it prints the
characters in order and stops at the page's NUL, reads nothing behind it,
and puts each token in the row and the column the paginator counted it in,
so in one of the page's rows, none of them wider than the page. -/
structure SameRows (src content : Mem) (text : List UInt8) : Prop where
  shows : ∃ v, Loop.Exits (viewPass content) .init v ∧ v.p = text.length ∧
    v.prints.flatMap Print.shown = (tokens text).flatMap tokenText ∧
    ∀ passes, 2 * text.length < passes → setPageOnView passes content
      = viewBar ++ [cr, lf] ++ v.prints.flatMap Print.bytes ++ [cr, lf] ++ viewBar ++ [cr, lf]
  reads : ∀ v, Loop.Reaches (viewPass content) .init v →
    ∀ i ∈ viewReads content v, i ≤ text.length
  cells : ∀ v v', Loop.Reaches (viewPass content) .init v → viewPass content v = some v' →
    v.p < v'.p → ∀ s s', Loop.Reaches (dispPass src maxColumnSize maxLineSize) .init s →
      dispPass src maxColumnSize maxLineSize s = some s' → s.p < s'.p → s.p = v.p →
      cellOf v'.prints.dropLast = s.cell
  rows : ∀ v v', Loop.Reaches (viewPass content) .init v → viewPass content v = some v' →
    v.p < v'.p → (cellOf v'.prints.dropLast).row < maxColumnSize
  columns : ∀ v, Loop.Reaches (viewPass content) .init v →
    (cellOf v.prints).col ≤ maxLineSize

/-- A pass reads where the pointer is, and behind it only where there is a
byte. -/
theorem mem_viewReads {i : ℕ} (hi : i ∈ viewReads content v) :
    i = v.p ∨ i = v.p + 1 ∧ content v.p ≠ 0 := by
  unfold viewReads at hi
  exact mem_pair_reads hi

section Page

variable (hw : Holds content text) (hall : sizeAll (tokens text) = text.length)
include hw hall

/-- The tokens the two part at are printed at their seats all the same. -/
def SeatedAtParts (content : Mem) (text : List UInt8) : Prop :=
  ∀ ts t us u u', tokens text = ts ++ t :: us → Loop.Reaches (viewPass content) .init u →
    u.p = sizeAll ts → viewPass content u = some u' → u.p < u'.p → PartsAt ts t →
    cellOf u'.prints.dropLast = (freeCell ts).seat 20 t.item

/-- Then the console follows the grid at every head. -/
theorem shape_of_reaches (hseats : SeatedAtParts content text)
    (hv : Loop.Reaches (viewPass content) .init v) :
    ∃ ts us, tokens text = ts ++ us ∧ sizeAll ts = v.p ∧ Shape content ts v := by
  induction hv with
  | refl =>
    refine ⟨[], tokens text, rfl, rfl, .free ?_ rfl rfl⟩
    rintro ⟨-, t, ht, -⟩
    cases ht
  | @tail u v hu hpass ih =>
    obtain ⟨ts, us, htok, hsize, hshape⟩ := ih
    have h0 := (view_tokenLoop content).ne_zero hpass
    obtain ⟨t, us', rfl, ht, -⟩ := exists_next hw hall htok hsize h0
    obtain ⟨v', hpass', hstep⟩ := shape_step ht hshape
    obtain rfl : v = v' := Option.some.inj (hpass.symm.trans hpass')
    have hpos := t.size_pos
    rcases hstep with ⟨-, hp, hshape'⟩ | ⟨-, hp, hshape', -⟩ | ⟨hparts, hp, hne⟩
    · exact ⟨ts, t :: us', htok, by rw [hp]; exact hsize, hshape'⟩
    · refine ⟨ts ++ [t], us', by rw [htok, List.append_assoc]; rfl, ?_, hshape'⟩
      rw [sizeAll_append, sizeAll_cons, sizeAll_nil, hsize, hp, Nat.add_zero]
    · exact absurd (hseats ts t us' u v htok hu hsize.symm hpass (by omega) hparts) hne

/-- **Every token is printed at its seat exactly where the two part at
none.** -/
theorem seated_iff :
    (∀ ts t us u u', tokens text = ts ++ t :: us → Loop.Reaches (viewPass content) .init u →
      u.p = sizeAll ts → viewPass content u = some u' → u.p < u'.p →
      cellOf u'.prints.dropLast = (freeCell ts).seat 20 t.item) ↔
      ∀ ts t us, tokens text = ts ++ t :: us → ¬ PartsAt ts t := by
  -- the pass at a head behind the tokens, whichever of the two is known
  have hpassAt : SeatedAtParts content text → ∀ ts t us u, tokens text = ts ++ t :: us →
      Loop.Reaches (viewPass content) .init u → u.p = sizeAll ts →
      TokenAt content u.p t ∧ Shape content ts u := by
    intro hseats ts t us u htok hu hp
    obtain ⟨ts', us', htok', hsize, hshape⟩ := shape_of_reaches hw hall hseats hu
    obtain ⟨rfl, rfl⟩ := prefix_unique (htok'.symm.trans htok) (hsize.trans hp)
    have hrest := (tokens_drop htok).1
    rw [← hp] at hrest
    exact ⟨hw.tokenAt hrest.symm, hshape⟩
  constructor
  · intro hseated ts t us htok hparts
    have hseats : SeatedAtParts content text := fun ts t us u u' htok hu hp hpass hlt _ =>
      hseated ts t us u u' htok hu hp hpass hlt
    obtain ⟨u, hu, hp⟩ := (view_tokenLoop content).reaches hw Relation.ReflTransGen.refl
      (show tokens (text.drop ViewState.init.p) = ts ++ t :: us from htok)
    have hup : u.p = sizeAll ts := hp.trans (Nat.zero_add _)
    obtain ⟨ht, hshape⟩ := hpassAt hseats ts t us u htok hu hup
    obtain ⟨u', hpass, hstep⟩ := shape_step ht hshape
    have hpos := t.size_pos
    rcases hstep with ⟨hnot, -⟩ | ⟨hnot, -⟩ | ⟨-, hp', hne⟩
    · exact hnot hparts
    · exact hnot hparts
    · exact hne (hseated ts t us u u' htok hu hup hpass (by omega))
  · intro hnone ts t us u u' htok hu hp hpass hlt
    have hseats : SeatedAtParts content text := fun ts t us _ _ htok _ _ _ _ hparts =>
      absurd hparts (hnone ts t us htok)
    obtain ⟨ht, hshape⟩ := hpassAt hseats ts t us u htok hu hp
    obtain ⟨v', hpass', hstep⟩ := shape_step ht hshape
    obtain rfl : u' = v' := Option.some.inj (hpass.symm.trans hpass')
    rcases hstep with ⟨-, hp', -⟩ | ⟨-, -, -, hcell⟩ | ⟨hparts, -⟩
    · exact absurd hp' (Nat.ne_of_gt hlt)
    · exact hcell
    · exact absurd hparts (hnone ts t us htok)

end Page

/-- The token the paginator reads at a head is at its seat. -/
theorem cell_eq_seat {w : List UInt8} (hw : Holds src w)
    (hs : Loop.Reaches (dispPass src 9 20) .init s) (hpass : dispPass src 9 20 s = some s')
    (hlt : s.p < s'.p) (htok : tokens w = ts ++ t :: us) (hp : s.p = sizeAll ts) :
    s.cell = (freeCell ts).seat 20 t.item := by
  obtain ⟨hrest, hle⟩ := tokens_drop htok
  rw [← hp] at hrest hle
  obtain ⟨ts', us', htok', hsize, -, hcell⟩ := stands_of_reaches hw (by decide) hs hle
  obtain ⟨rfl, -⟩ := prefix_unique (htok'.symm.trans htok) (hsize.trans hp)
  have ht := hw.tokenAt hrest.symm
  have hrow : s.lineCount < 20 := (dispInv_of_reaches (by decide) hs).row
  rcases dispPass_token ht (dispPass_cases hpass).2.1 hrow with ⟨hstay, -⟩ | ⟨-, -, hpass'⟩
  · exact (seat_eq_cell ht hcell hstay).symm
  · obtain rfl := Option.some.inj (hpass.symm.trans hpass')
    exact absurd hlt (Nat.lt_irrefl _)

/-- **The console agrees with the paginator on exactly the pages without a
token they part at**: no line end behind a full row, and no character with
the first byte `0x80` in a row with one column left. -/
theorem setPageOnView_sameRows_iff (src content : Mem) (hnul : src maxCharsDisp = 0)
    (pageCache : List PageInfo) (page : PageInfo)
    (hadd : add pageCache src (dispSizeCalculator src maxColumnSize maxLineSize)
      = some (pageCache ++ [page])) (hcontent : Holds content page.content.chars) :
    SameRows src content page.content.chars ↔
      ∀ ts t us, tokens page.content.chars = ts ++ t :: us → ¬ PartsAt ts t := by
  obtain ⟨us₀, htext, hall, -, hfits⟩ := page_tokens hnul hadd
  have hw := holds_str hnul
  generalize page.content.chars = text at htext hall hfits hcontent
  -- a token of the page, as the paginator comes to it
  have hwindow : ∀ {ts t us}, tokens text = ts ++ t :: us →
      tokens (Mem.str src maxCharsDisp) = ts ++ t :: (us ++ us₀) := fun htok => by
    rw [htext, htok, List.append_assoc]
    rfl
  have hseat : ∀ {ts t us}, tokens text = ts ++ t :: us →
      Fits 9 20 .origin (items ts) ∧ ((freeCell ts).seat 20 t.item).row < 9 := fun htok => by
    rw [htok, items_append, fits_append] at hfits
    exact ⟨hfits.1, hfits.2.1⟩
  rw [← seated_iff hcontent hall]
  constructor
  · intro hsame ts t us u u' htok hu hp hpass hlt
    obtain ⟨hfits', hrow⟩ := hseat htok
    obtain ⟨s, hs, hsp, hcell⟩ := reaches_of_fits hw (by decide) (hwindow htok) hfits'
    have hrest := (tokens_drop (hwindow htok)).1
    rw [← hsp] at hrest
    have hcol : s.lineCount < 20 := (dispInv_of_reaches (by decide) hs).row
    have hcell' : s.cell = freeCell ts := hcell
    rw [← hcell'] at hrow ⊢
    obtain ⟨x, s', hx, hxp, hxcell, hpass', hp', -⟩ :=
      reaches_token (hw.tokenAt hrest.symm) (by decide) hcol hrow
    have hpos := t.size_pos
    rw [← hxcell]
    exact hsame.cells u u' hu hpass hlt x s' (hs.trans hx) hpass' (by omega) (by omega)
  · intro hseated
    have hseats : SeatedAtParts content text := fun ts t us u u' htok hu hp hpass hlt _ =>
      hseated ts t us u u' htok hu hp hpass hlt
    refine ⟨view_shows hcontent hall,
      fun v hv i hi => (view_tokenLoop content).reads_le hcontent hall rfl hv (mem_viewReads hi),
      ?_, ?_, ?_⟩
    · intro v v' hv hpass hlt s s' hs hpass' hlt' hp
      obtain ⟨ts, t, us, htok, hvp⟩ := exists_token_of_pass hcontent hall hv hpass
      rw [hseated ts t us v v' htok hv hvp hpass hlt]
      exact (cell_eq_seat hw hs hpass' hlt' (hwindow htok) (hp.trans hvp)).symm
    · intro v v' hv hpass hlt
      obtain ⟨ts, t, us, htok, hvp⟩ := exists_token_of_pass hcontent hall hv hpass
      rw [hseated ts t us v v' htok hv hvp hpass hlt]
      exact (hseat htok).2
    · intro v hv
      obtain ⟨ts, us, -, -, hshape⟩ := shape_of_reaches hcontent hall hseats hv
      exact hshape.col_le

/-- A page of a full row and a letter. -/
theorem setPageOnView_sameRows_iff_two_rows :
    SameRows (Mem.buffer 181 (List.replicate 21 0x61) Mem.zeros)
        (Mem.buffer 181 (List.replicate 21 0x61) Mem.zeros) (List.replicate 21 0x61) ↔
      ∀ ts t us, tokens (List.replicate 21 0x61) = ts ++ t :: us → ¬ PartsAt ts t :=
  setPageOnView_sameRows_iff (Mem.buffer 181 (List.replicate 21 0x61) Mem.zeros)
    (Mem.buffer 181 (List.replicate 21 0x61) Mem.zeros) (by decide +kernel) []
    ⟨true, ⟨List.replicate 21 0x61, fun b hb => by rw [List.eq_of_mem_replicate hb]; decide,
      by decide⟩, 21, 1⟩ (by decide +kernel)
    ⟨by decide +kernel, by decide +kernel⟩

/-- A row of 20 letters, a line end and a letter more. -/
def fullRow : List UInt8 := List.replicate 20 0x61 ++ [lf, 0x62]

/-- The paginator counts a blank row between the two, and the console shows
none: it prints the last letter in the row of the line end. -/
theorem setPageOnView_loses_row :
    dispSizeCalculator (Mem.buffer 181 fullRow Mem.zeros) maxColumnSize maxLineSize = 22 ∧
      cellOf (Loop.run (viewPass (Mem.buffer 181 fullRow Mem.zeros)) 21 .init).prints = ⟨1, 0⟩ ∧
      (Loop.run (dispPass (Mem.buffer 181 fullRow Mem.zeros) 9 20) 21 .init).cell = ⟨2, 0⟩ ∧
      ¬ SameRows (Mem.buffer 181 fullRow Mem.zeros) (Mem.buffer 181 fullRow Mem.zeros) fullRow := by
  refine ⟨by decide +kernel, by decide +kernel, by decide +kernel, fun hsame => ?_⟩
  have hv := Loop.reaches_run (viewPass (Mem.buffer 181 fullRow Mem.zeros)) 21 .init
  have hs := Loop.reaches_run (dispPass (Mem.buffer 181 fullRow Mem.zeros) 9 20) 21 .init
  have hcell := hsame.cells _ (Loop.run (viewPass (Mem.buffer 181 fullRow Mem.zeros)) 22 .init) hv
    (by decide +kernel) (by decide +kernel) _
    (Loop.run (dispPass (Mem.buffer 181 fullRow Mem.zeros) 9 20) 22 .init) hs
    (by decide +kernel) (by decide +kernel) (by decide +kernel)
  revert hcell
  decide +kernel

end Reader

end RtSpark
