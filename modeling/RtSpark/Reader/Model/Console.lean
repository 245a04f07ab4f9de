import RtSpark.Common.Grid
import RtSpark.Common.CString
import RtSpark.Common.Loop
import RtSpark.HalDef
import Mathlib.Algebra.Group.Int.Defs
/-!
# The console view of a page

`Reader::setPageOnView` prints a page between two bars. `line_size` is the
number of columns left, in 8 bits, and a row that is full is broken when
the next character comes. What the loop prints is the list of its
`rt_kprintf` calls; `cellOf` is where they leave the terminal's cursor.
-/

namespace RtSpark

namespace Reader

/-- One `rt_kprintf` of the loop. -/
inductive Print where
  /-- `"%c"` or `"%c%c"`. -/
  | chars (bytes : List UInt8)
  /-- `"\r\n"`. -/
  | rowEnd
  /-- `" \r\n"`. -/
  | paddedRowEnd
deriving DecidableEq

def Print.bytes : Print → List UInt8
  | .chars bytes => bytes
  | .rowEnd => [cr, lf]
  | .paddedRowEnd => [0x20, cr, lf]

structure ViewState where
  p : ℕ
  lineSize : UInt8
  /-- The prints so far. -/
  prints : List Print
deriving DecidableEq

/-- `line_size = MAX_LINE_SIZE`. -/
def fullLine : UInt8 := UInt8.ofNat maxLineSize

/-- The row has one column left for a character of two. `line_size - 1` is
an `int`. -/
def ViewState.lastColumn (content : Mem) (s : ViewState) : Prop :=
  0x80 < content s.p ∧ (s.lineSize.toNat : ℤ) - 1 = 0

instance (content : Mem) (s : ViewState) : Decidable (s.lastColumn content) :=
  inferInstanceAs (Decidable (_ ∧ _))

/-- `if (!line_size)`: the row that is full is broken. -/
def ViewState.breakRow (s : ViewState) : ViewState :=
  if s.lineSize = 0 then { s with lineSize := fullLine, prints := s.prints ++ [.rowEnd] } else s

/-- One pass of the loop of `setPageOnView`. -/
def viewPass (content : Mem) (s : ViewState) : Option ViewState :=
  if content s.p ≠ 0 then
    if content s.p = cr ∧ content (s.p + 1) = lf then
      some ⟨s.p + 2, fullLine, s.prints ++ [.rowEnd]⟩
    else if content s.p = lf ∨ content s.p = cr then
      some ⟨s.p + 1, fullLine, s.prints ++ [.rowEnd]⟩
    else if s.lastColumn content then
      -- the row ends and the character is not consumed
      some { s with lineSize := fullLine, prints := s.prints ++ [.paddedRowEnd] }
    else
      let s := s.breakRow
      if content s.p < 0x80 then
        some ⟨s.p + 1, s.lineSize - 1, s.prints ++ [.chars [content s.p]]⟩
      else
        some ⟨s.p + 2, s.lineSize - 2, s.prints ++ [.chars [content s.p, content (s.p + 1)]]⟩
  else
    none

def ViewState.init : ViewState := ⟨0, fullLine, []⟩

/-- The indexes of the page one pass reads, its guard included. -/
def viewReads (content : Mem) (s : ViewState) : List ℕ :=
  if content s.p = cr ∨ 0x80 ≤ content s.p ∧ ¬ s.lastColumn content then [s.p, s.p + 1] else [s.p]

/-- A bar of `MAX_LINE_SIZE` signs. -/
def viewBar : List UInt8 := List.replicate maxLineSize 0x3D

/-- What `setPageOnView` prints, its loop run for at most `passes` passes. -/
def setPageOnView (passes : ℕ) (content : Mem) : List UInt8 :=
  viewBar ++ [cr, lf] ++
    (Loop.run (viewPass content) passes .init).prints.flatMap Print.bytes ++
    [cr, lf] ++ viewBar ++ [cr, lf]

/-- Where a print leaves the cursor. -/
def printCell (c : Grid.Cell) : Print → Grid.Cell
  | .chars bytes => ⟨c.row, c.col + bytes.length⟩
  | .rowEnd => c.down
  | .paddedRowEnd => c.down

/-- The cell the cursor is at: the rows ended so far, and the columns printed
since. -/
def cellOf (prints : List Print) : Grid.Cell := prints.foldl printCell .origin

end Reader

end RtSpark
