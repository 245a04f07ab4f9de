import RtSpark.Common.Loop
import RtSpark.Common.CString
import RtSpark.HalDef
import Mathlib.Algebra.Group.Nat.Defs
/-!
# The reader's pages

`Reader.cpp` cuts a novel into pages of at most `MAX_CHARS_DISP` bytes.
`dispSizeCalculator` counts the bytes of a window that fill the text rows
of the panel, `halfWordFilter` drops a double-byte character whose second
byte the window does not hold, and `add` stores the page.

The 16-bit counters of the two loops stay below a few hundred, so they
are natural numbers here.
-/

namespace RtSpark

namespace Reader

/-! ## `Reader::HalfWordFilter` -/

structure FilterState where
  p : ℕ
  newSize : ℕ
deriving DecidableEq

def filterPass (buf : Mem) (oldSize : ℕ) (s : FilterState) : Option FilterState :=
  if s.newSize < oldSize ∧ buf s.p ≠ 0 then
    if 0x80 ≤ buf s.p ∧ buf (s.p + 1) = 0 then
      none
    else if 0x80 ≤ buf s.p then
      some { p := s.p + 2, newSize := s.newSize + 2 }
    else
      some { p := s.p + 1, newSize := s.newSize + 1 }
  else
    none

/-- The indexes of `buf` one pass reads, its guard included. -/
def filterReads (buf : Mem) (oldSize : ℕ) (s : FilterState) : List ℕ :=
  if s.newSize < oldSize then
    if 0x80 ≤ buf s.p then [s.p, s.p + 1] else [s.p]
  else
    []

def halfWordFilter (buf : Mem) (oldSize : ℕ) : ℕ :=
  (Loop.run (filterPass buf oldSize) (oldSize + 1) ⟨0, 0⟩).newSize

/-! ## `Reader::DispSizeCalculator` -/

structure DispState where
  p : ℕ
  dispNeed : ℕ
  dispLine : ℕ
  lineCount : ℕ
deriving DecidableEq

/-- The row the loop is at is displayed; the next one starts. -/
def DispState.endLine (s : DispState) : DispState :=
  { s with dispLine := s.dispLine + 1, lineCount := 0 }

/-- `if (line_count == line_size_max)`: a full row ends itself. -/
def DispState.wrap (lineSizeMax : ℕ) (s : DispState) : DispState :=
  if s.lineCount = lineSizeMax then s.endLine else s

def dispPass (src : Mem) (dispMaxLine lineSizeMax : ℕ) (s : DispState) : Option DispState :=
  if src s.p ≠ 0 ∧ s.dispLine < dispMaxLine then
    if src s.p = cr ∧ src (s.p + 1) = lf then
      some { s with p := s.p + 2, dispNeed := s.dispNeed + 2 }.endLine
    else if src s.p = lf ∨ src s.p = cr then
      some { s with p := s.p + 1, dispNeed := s.dispNeed + 1 }.endLine
    else if src s.p < 0x80 then
      some ({ s with
        p := s.p + 1
        dispNeed := s.dispNeed + 1
        lineCount := s.lineCount + 1 }.wrap lineSizeMax)
    else if s.lineCount + 1 = lineSizeMax then
      -- one column left: the row ends and the character is not consumed
      some s.endLine
    else
      some ({ s with
        p := s.p + 2
        dispNeed := s.dispNeed + 2
        lineCount := s.lineCount + 2 }.wrap lineSizeMax)
  else
    none

/-- The indexes of `src` one pass reads, its guard included: `*(p + 1)`
behind a CR only. -/
def dispReads (src : Mem) (dispMaxLine : ℕ) (s : DispState) : List ℕ :=
  if s.dispLine < dispMaxLine ∧ src s.p = cr then [s.p, s.p + 1] else [s.p]

def DispState.init : DispState := ⟨0, 0, 0, 0⟩

/-- More passes than the loop can make: a row takes at most one more than
it has columns. -/
def dispBound (dispMaxLine lineSizeMax : ℕ) : ℕ :=
  (dispMaxLine + 1) * (lineSizeMax + 1) + 1

/-- The state the layout loop of `DispSizeCalculator` ends in. -/
def dispLoop (src : Mem) (dispMaxLine lineSizeMax : ℕ) : DispState :=
  Loop.run (dispPass src dispMaxLine lineSizeMax) (dispBound dispMaxLine lineSizeMax) .init

/-- The indexes of `src` that `strncpy` reads: up to its first NUL. -/
def copyReads (src : Mem) (dispNeed : ℕ) : List ℕ :=
  List.range (min dispNeed (Mem.strnlen src dispNeed + 1))

/-- The copy in `tmp` ends at the first NUL of `src`, and `HalfWordFilter`
reads no further. -/
def dispSizeCalculator (src : Mem) (dispMaxLine lineSizeMax : ℕ) : ℕ :=
  let dispNeed := (dispLoop src dispMaxLine lineSizeMax).dispNeed
  let tmp := Mem.strncpy Mem.zeros src dispNeed
  halfWordFilter tmp dispNeed

/-! ## `Reader::Add` -/

/-- `PageInfo_t`. -/
structure PageInfo where
  status : Bool
  content : CString (maxCharsDisp + 1)
  aPageBytes : ℕ
  pageNumber : ℕ
deriving DecidableEq

/-- The page cache with the page pushed, or `none` where `Add` returns
`false` and leaves it. -/
def add (pageCache : List PageInfo) (src : Mem) (count : ℕ) : Option (List PageInfo) :=
  let buf := Mem.strncpy Mem.zeros src count
  let content := CString.strcpy (Nat.succ_pos _) buf
  if count ≠ content.strlen then
    none
  else
    some (pageCache ++ [{
      status := true
      content := content
      aPageBytes := count
      pageNumber := (pageCache.length + 1) % 2 ^ 16 }])

end Reader

end RtSpark
