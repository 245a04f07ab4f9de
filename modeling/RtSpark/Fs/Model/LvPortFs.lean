import Mathlib.Data.Nat.Notation
import Mathlib.Data.Int.Notation
import Mathlib.Algebra.Group.Nat.Defs
import Mathlib.Data.List.Basic
/-!
# The file-system port of the GUI

`lv_port_fs.cpp` over the descriptor calls of `dfs_posix.c`, and the calls
of `lv_fs.c` that reach it. An open file is its bytes and one position. What
the file system under it answers is a parameter: which positions it can
take, and how much of a read or a write it carries out.
-/

namespace RtSpark

namespace Fs

/-- `struct dfs_fd`, as far as these calls use it. -/
structure OpenFile where
  content : List UInt8
  pos : ℕ
deriving DecidableEq

inductive LvFsRes where
  | ok
  | fsErr
  | notImp
  | invParam
  | unknown
deriving DecidableEq

/-! ## Descriptor calls -/

/-- `whence`. -/
def seekSet : ℕ := 0
def seekCur : ℕ := 1
def seekEnd : ℕ := 2

/-- `lseek`. The offset is a word of `off_t`, negative from the thirty-first
bit on; `seekable` is what the file system's own `lseek` accepts. -/
def lseek (seekable : List UInt8 → ℕ → Bool) (fd : OpenFile) (offset : ℕ) (whence : ℕ) :
    OpenFile × ℤ :=
  let offset :=
    if whence = seekSet then offset % 2 ^ 32
    else if whence = seekCur then (offset + fd.pos) % 2 ^ 32
    else (offset + fd.content.length) % 2 ^ 32
  if 2 ^ 31 ≤ offset then (fd, -1)
  else if seekable fd.content offset then ({ fd with pos := offset }, offset)
  else (fd, -1)

/-- `read`, where the file system carries out `got` bytes at most, or
fails. -/
def read (fd : OpenFile) (size : ℕ) (got : Option ℕ) : OpenFile × Option (List UInt8) :=
  match got with
  | none => (fd, none)
  | some got =>
    let bytes := (fd.content.drop fd.pos).take (min got size)
    ({ fd with pos := fd.pos + bytes.length }, some bytes)

/-- Bytes put over a file from a position on; a gap before it reads as
zero. -/
def overwrite (content : List UInt8) (pos : ℕ) (bytes : List UInt8) : List UInt8 :=
  if bytes = [] then content
  else
    content.take pos ++ List.replicate (pos - content.length) 0 ++ bytes ++
      content.drop (pos + bytes.length)

/-- `write`, likewise. -/
def write (fd : OpenFile) (buf : List UInt8) (got : Option ℕ) : OpenFile × Option ℕ :=
  match got with
  | none => (fd, none)
  | some got =>
    let bytes := buf.take got
    (⟨overwrite fd.content fd.pos bytes, fd.pos + bytes.length⟩, some bytes.length)

/-! ## `lv_port_fs.cpp` -/

variable (seekable : List UInt8 → ℕ → Bool)

/-- `fs_read`: the result and the bytes it put in `buf`. -/
def fsRead (f : OpenFile) (btr : ℕ) (got : Option ℕ) : OpenFile × LvFsRes × List UInt8 :=
  match read f btr got with
  | (f, none) => (f, .fsErr, [])
  | (f, some bytes) => (f, .ok, bytes)

/-- `fs_write`: the result and `*bw`. -/
def fsWrite (f : OpenFile) (buf : List UInt8) (got : Option ℕ) : OpenFile × LvFsRes × ℕ :=
  match write f buf got with
  | (f, none) => (f, .fsErr, 0)
  | (f, some cnt) => (f, .ok, cnt)

/-- `fs_seek`. The results of `lseek` are dropped, and from the end on it is
given no offset. -/
def fsSeek (f : OpenFile) (pos : UInt32) (whence : ℕ) : OpenFile × LvFsRes :=
  if whence = 0 then ((lseek seekable f pos.toNat seekSet).1, .ok)
  else if whence = 1 then ((lseek seekable f pos.toNat seekCur).1, .ok)
  else if whence = 2 then ((lseek seekable f 0 seekEnd).1, .ok)
  else (f, .unknown)

/-- `fs_tell`: the result and `*pos_p`. -/
def fsTell (f : OpenFile) : OpenFile × LvFsRes × ℕ :=
  let (f, offset) := lseek seekable f 0 seekSet
  if offset < 0 then (f, .unknown, 0) else (f, .ok, offset.toNat)

/-! ## `lv_fs.c` -/

/-- The callbacks a driver has and the size of its cache. -/
structure LvFsDrv where
  seekCb : Bool
  tellCb : Bool
  cacheSize : ℕ

/-- The driver `lv_port_fs_init` registers: `lv_fs_drv_init` leaves it
without a cache. -/
def fsDrv : LvFsDrv := ⟨true, true, 0⟩

/-- `lv_fs_seek`, without the branch of drivers that have a cache. -/
def lvFsSeek (drv : Option LvFsDrv) (f : OpenFile) (pos : UInt32) (whence : ℕ) :
    OpenFile × LvFsRes :=
  match drv with
  | none => (f, .invParam)
  | some drv => if drv.seekCb then fsSeek seekable f pos whence else (f, .notImp)

/-- `lv_fs_tell`, likewise. -/
def lvFsTell (drv : Option LvFsDrv) (f : OpenFile) : OpenFile × LvFsRes × ℕ :=
  match drv with
  | none => (f, .invParam, 0)
  | some drv => if drv.tellCb then fsTell seekable f else (f, .notImp, 0)

/-! ## Histories -/

/-- The calls on an open file; reads and writes come with what the file
system will carry out. -/
inductive FsCall where
  | read (btr : ℕ) (got : Option ℕ)
  | write (buf : List UInt8) (got : Option ℕ)
  | seek (pos : UInt32) (whence : ℕ)
  | tell

/-- The file a call leaves. -/
def fsStep (f : OpenFile) : FsCall → OpenFile
  | .read btr got => (fsRead f btr got).1
  | .write buf got => (fsWrite f buf got).1
  | .seek pos whence => (lvFsSeek seekable (some fsDrv) f pos whence).1
  | .tell => (lvFsTell seekable (some fsDrv) f).1

end Fs

end RtSpark
