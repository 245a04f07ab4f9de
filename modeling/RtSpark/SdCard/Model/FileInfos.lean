import Mathlib.Data.Nat.Notation
import Mathlib.Data.Int.Notation
import Mathlib.Algebra.Group.Nat.Defs
/-!
# The infos of a file

`SD_GetFileInfos` of `hal_sdcard.cpp`. A string is the list of its bytes
before the NUL. A read outside of the argument and a store outside of an
array have no result, and the function ends in a `Fault` there.
-/

namespace RtSpark

namespace SdCard

/-- `'/'`. -/
def slash : UInt8 := 0x2F

/-- `'.'`. -/
def dot : UInt8 := 0x2E

/-- `LCD_MAX_NUM`. -/
def lcdMaxNum : Int32 := 32

/-- What the function must not do. -/
inductive Fault where
  /-- `*p` of the null pointer. -/
  | nullPointer
  /-- `*p` before the start of the argument. -/
  | beforeString
  /-- A store behind `file.path`. -/
  | path
  /-- A store behind `file.name`. -/
  | name
deriving DecidableEq

/-- `File_Info_t`. An `rt_off_t` is a long, of thirty-two bits. -/
structure FileInfo where
  path : List UInt8
  name : List UInt8
  size : Int32
  pages : Int32
  offset : Int32
deriving DecidableEq

/-- `rt_strstr`: where `s2` first begins in `s1`. -/
def rtStrstr (s2 : List UInt8) : List UInt8 → Option ℕ
  | [] => if s2 = [] then some 0 else none
  | c :: s1 =>
    if s2.length ≤ (c :: s1).length ∧ (c :: s1).take s2.length = s2 then some 0
    else (rtStrstr s2 s1).map (· + 1)

/-- `while (*p != '/') p--;` from an index of the string on. -/
def scanBack (s : List UInt8) : ℕ → Except Fault ℕ
  | 0 => if s.getD 0 0 = slash then .ok 0 else .error .beforeString
  | p + 1 => if s.getD (p + 1) 0 = slash then .ok (p + 1) else scanBack s p

/-- `rt_strcpy` into an array of `cap` bytes: the string and its NUL. -/
def rtStrcpy (cap : ℕ) (fault : Fault) (src : List UInt8) : Except Fault (List UInt8) :=
  if src.length < cap then .ok src else .error fault

/-- What the function collects of an open file, with the `st_size` of its
`fstat`. -/
def fileInfo (path : List UInt8) (stSize : Int32) : Except Fault FileInfo := do
  let filePath ← rtStrcpy 64 .path path
  let p ← (rtStrstr [dot] path).elim (.error .nullPointer) .ok
  let p ← scanBack path p
  let name ← rtStrcpy 32 .name (path.drop (p + 1))
  return { path := filePath, name := name, size := stSize, pages := stSize / lcdMaxNum + 1,
           offset := 0 }

/-- `SD_GetFileInfos`: its result, and the infos it prints. `opened` is
how many bytes the file has that `open` finds under the path; `st_size` is
an `off_t`, which keeps thirty-two bits of that. -/
def sdGetFileInfos (argv : List (List UInt8)) (opened : Option ℕ) :
    Except Fault (ℤ × Option FileInfo) :=
  match argv with
  | [_, path] =>
    match opened with
    | none => .ok (-1, none)
    | some size => (fileInfo path (Int32.ofNat size)).map fun file => (0, some file)
  | _ => .ok (1, none)

end SdCard

end RtSpark
