import RtSpark.Time.Model.Ctime
/-!
# Time stamps in a directory entry

`dfs_elm.c` and `ff.c`: what is written into a file's entry when it is
changed, and what `stat` makes of it. A `DWORD` has 32 bits, a `WORD` 16.
-/

namespace RtSpark

namespace Time

/-- A conversion to `DWORD`. -/
def dword (i : ℤ) : ℕ := Int.toNat (i % 0x100000000)

/-- `a << k` of a `DWORD`. -/
def shl (a k : ℕ) : ℕ := a <<< k % 0x100000000

/-- `get_fattime`, where `time` gives `now`. -/
def getFattime (now : ℤ) : ℕ :=
  let tmNow := gmtimeR now
  shl (dword (tmNow.year - 80)) 25 ||| shl (dword (tmNow.mon + 1)) 21 |||
    shl (dword tmNow.mday) 16 ||| shl (dword tmNow.hour) 11 ||| shl (dword tmNow.min) 5 |||
    dword tmNow.sec / 2

/-- `st_dword`: the bytes stored, the lowest first. -/
def stDword (val : ℕ) : List ℕ :=
  [val % 256, (val >>> 8) % 256, (val >>> 8 >>> 8) % 256, (val >>> 8 >>> 8 >>> 8) % 256]

/-- `ld_word` of the bytes from `i` on. -/
def ldWord (ptr : List ℕ) (i : ℕ) : ℕ := (ptr.getD (i + 1) 0 <<< 8 ||| ptr.getD i 0) % 0x10000

/-- The broken-down time that `dfs_elm_stat` reads from `fdate` and
`ftime`. -/
def statTm (fdate ftime : ℕ) : Tm :=
  { sec := ((ftime &&& 0x1F) * 2 : ℕ)
    min := (ftime >>> 5 &&& 0x3F : ℕ)
    hour := (ftime >>> 5 >>> 6 &&& 0x1F : ℕ)
    mday := (fdate &&& 0x1F : ℕ)
    mon := (fdate >>> 5 &&& 0x0F : ℕ) - 1
    year := ((fdate >>> 5 >>> 4 &&& 0x7F : ℕ) : ℤ) + 1980 - 1900
    wday := 0, yday := 0, isdst := 0 }

/-- `st_mtime` of a file, `modTime` being what is stored at `DIR_ModTime`
of its entry: `get_fileinfo`, then `dfs_elm_stat`. -/
def stMtime (modTime : List ℕ) : ℤ :=
  (timegm (statTm (ldWord modTime 2) (ldWord modTime 0))).time

end Time

end RtSpark
