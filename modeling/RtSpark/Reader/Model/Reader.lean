import RtSpark.Reader.Model.Pages
import Mathlib.Algebra.Group.Int.Defs
import Mathlib.Data.Finset.Insert
import Mathlib.Data.Finset.Card
/-!
# The reader

`Reader::Load` and what it calls, as functions of the reader's state, the
open descriptors and the outcomes of the calls into the file system. A
run that stops for want of an outcome is waiting in `read()`, which
returns `none` for it.

`offset_next` is a natural number: it follows the bytes paged so far,
which the memory of the device bounds far below what an `off_t` holds.
So is the page count `Read` returns.
-/

namespace RtSpark

namespace Reader

/-! ## What the file system answers -/

/-- What one `read()` of the pagination loop comes back with. -/
inductive ReadResult where
  | error
  /-- At most this many of the bytes stored at the offset. -/
  | bytes (count : ℕ)
deriving DecidableEq

/-- One `read()`, and the memory beyond the buffer it fills. -/
structure ReadCall where
  result : ReadResult
  beyond : Mem

/-- The outcomes of the calls one `Load` makes: the file, whose size is a
32-bit field on the volume, whether each of the three `open` calls of
`Load`, `getFileSize` and `Read` succeeds, and the reads. -/
structure LoadCalls where
  file : List UInt8
  fits : file.length < 2 ^ 32
  openLoad : Bool
  openSize : Bool
  openRead : Bool
  reads : List ReadCall

/-- `fd_alloc`: the lowest descriptor that is not open. -/
def fdAlloc (fds : Finset ℕ) : ℕ :=
  ((List.range (fds.card + 1)).find? fun fd => fd ∉ fds).getD 0

/-- A 32-bit unsigned field. -/
def toUInt32 (n : ℤ) : ℕ := (n % 2 ^ 32).toNat

/-! ## `Reader::Read` -/

structure ReadState where
  offsetNext : ℕ
  total : ℕ
  pageCache : List PageInfo
deriving DecidableEq

/-- The window a `read()` fills: the bytes it delivers, and NULs after
them. -/
def readBuf (file : List UInt8) (offset count : ℕ) (beyond : Mem) : Mem :=
  Mem.buffer (maxCharsDisp + 1) ((file.drop offset).take (min count maxCharsDisp)) beyond

/-- The body of the pagination loop: its next state, or what `Read`
returns from inside it. -/
def readPass (file : List UInt8) (c : ReadCall) (s : ReadState) : Except ℤ ReadState :=
  match c.result with
  | .error => .error (-2)
  | .bytes count =>
    let buf := readBuf file s.offsetNext count c.beyond
    let dispNeed := dispSizeCalculator buf maxColumnSize maxLineSize
    match add s.pageCache buf dispNeed with
    | none => .error (-3)
    | some pageCache => .ok {
        offsetNext := s.offsetNext + dispNeed
        total := (s.total + dispNeed) % 2 ^ 32
        pageCache := pageCache }

/-- Where the loop stands: what `Read` returned, if it did, the state, and
the outcomes it did not ask for. -/
structure ReadRun where
  ret : Option ℤ
  state : ReadState
  unread : List ReadCall

def readLoop (file : List UInt8) (fileSize : ℕ) : List ReadCall → ReadState → ReadRun
  | [], s =>
    if s.total = fileSize then ⟨some s.pageCache.length, s, []⟩ else ⟨none, s, []⟩
  | c :: cs, s =>
    if s.total = fileSize then ⟨some s.pageCache.length, s, c :: cs⟩
    else
      match readPass file c s with
      | .error e => ⟨some e, s, cs⟩
      | .ok s' => readLoop file fileSize cs s'

/-- `Read`, from the page cache it finds. It closes what it opened
wherever it returns. -/
def read (c : LoadCalls) (fileSize : ℕ) (pageCache : List PageInfo) (fds : Finset ℕ) :
    ReadRun × Finset ℕ :=
  let s₀ : ReadState := ⟨0, 0, pageCache⟩
  if c.openRead then
    let fd := fdAlloc fds
    let r := readLoop c.file fileSize c.reads s₀
    match r.ret with
    | none => (r, insert fd fds)
    | some _ => (r, (insert fd fds).erase fd)
  else
    (⟨some (-1), s₀, c.reads⟩, fds)

/-! ## `Reader::getFileSize` -/

/-- The size of the file as `off_t`, a signed 32-bit integer here. The
descriptor is not closed. -/
def getFileSize (c : LoadCalls) (fds : Finset ℕ) : ℤ × Finset ℕ :=
  if c.openSize then
    let size := (c.file.length : ℤ).bmod (2 ^ 32)
    (if 0 < size then size else 0, insert (fdAlloc fds) fds)
  else
    (-1, fds)

/-! ## `Reader::Load` -/

/-- `NovelInfo_t`. -/
structure NovelInfo where
  id : ℤ
  path : String
  name : String
  totalPages : ℕ
  fileSize : ℕ
  pagelist : List PageInfo
deriving DecidableEq

end Reader

open Reader

/-- The members of `class Reader`. -/
structure Reader where
  pageCache : List PageInfo
  novelList : List NovelInfo
  isFirst : Bool
  currnetID : ℕ
  currentPageNum : ℕ
deriving DecidableEq

namespace Reader

/-- A new reader. -/
def new : Reader := ⟨[], [], true, 0, 0⟩

def isLoad (r : Reader) (name : String) : Bool :=
  if r.novelList.isEmpty ∧ r.isFirst = false then false
  else r.novelList.any fun novel => name = novel.name

/-- What one `Load` leaves: what it returned, if it did, the reader, the
open descriptors and the read outcomes it did not ask for. -/
structure LoadRun where
  ret : Option Bool
  reader : Reader
  fds : Finset ℕ
  unread : List ReadCall

def load (r : Reader) (fds : Finset ℕ) (path name : String) (c : LoadCalls) : LoadRun :=
  if c.openLoad then
    let fd := fdAlloc fds
    let fds₁ := insert fd fds
    if r.isLoad name then
      -- the early return keeps the descriptor
      ⟨some false, r, fds₁, c.reads⟩
    else
      let (size, fds₂) := getFileSize c fds₁
      let fileSize := toUInt32 size
      let (run, fds₃) := read c fileSize r.pageCache fds₂
      match run.ret with
      | none => ⟨none, { r with pageCache := run.state.pageCache }, fds₃, run.unread⟩
      | some n =>
        let novel : NovelInfo := {
          id := (r.novelList.length : ℤ).bmod (2 ^ 16)
          path := path
          name := name
          totalPages := toUInt32 n
          fileSize := fileSize
          pagelist := run.state.pageCache }
        ⟨some true, {
          pageCache := []
          novelList := r.novelList ++ [novel]
          isFirst := false
          currnetID := 0
          currentPageNum := 0 }, fds₃.erase fd, run.unread⟩
  else
    ⟨some false, r, fds, c.reads⟩

/-! ## `Reader::Select` -/

/-- What `Select` starts from: `ID` is -1 and the two pointers are null. -/
def unselected : NovelInfo := ⟨-1, "", "", 0, 0, []⟩

def select (r : Reader) (name : String) : NovelInfo :=
  if r.isLoad name = false then unselected
  else (r.novelList.find? fun novel => name = novel.name).getD unselected

/-! ## Navigation -/

/-- `Next`, or `none` where `at()` throws. -/
def next (r : Reader) : Option Reader := do
  let currentPageNum := (r.currentPageNum + 1) % 2 ^ 16
  let novel ← r.novelList[r.currnetID]?
  if novel.pagelist.length ≤ currentPageNum then
    return { r with currentPageNum := 0 }
  else
    return { r with currentPageNum := currentPageNum }

/-- `Prev`, or `none` where `at()` throws. The index is unsigned: below
page 0 is 65535, and `<= 0` asks for page 0 itself. -/
def prev (r : Reader) : Option Reader := do
  let currentPageNum := (r.currentPageNum + (2 ^ 16 - 1)) % 2 ^ 16
  if currentPageNum ≤ 0 then
    let novel ← r.novelList[r.currnetID]?
    return { r with currentPageNum := (novel.pagelist.length + (2 ^ 16 - 1)) % 2 ^ 16 }
  else
    return { r with currentPageNum := currentPageNum }

end Reader

end RtSpark
