import RtSpark.Common.Loop
import Mathlib.Data.Int.Notation
import Mathlib.Logic.Function.Basic
/-!
# Calendar time

`ctime.c`: time stamps are broken down into years, months and days, put
together again, and written out. Divisions are C's, which round towards
zero. The members of `struct tm` are whole numbers here and 32-bit `int`s in
the source, so the functions are its functions where the members and the
sums made of them fit (`Tm.Fits`).
-/

namespace RtSpark

namespace Time

/-- `struct tm`, its members without their `tm_`. -/
@[ext] structure Tm where
  sec : ℤ
  min : ℤ
  hour : ℤ
  mday : ℤ
  mon : ℤ
  year : ℤ
  wday : ℤ
  yday : ℤ
  isdst : ℤ
  deriving DecidableEq

/-- What an `int` holds. -/
def FitsInt (i : ℤ) : Prop := -0x80000000 ≤ i ∧ i < 0x80000000

/-- Every member is an `int`. -/
structure Tm.Fits (t : Tm) : Prop where
  sec : FitsInt t.sec
  min : FitsInt t.min
  hour : FitsInt t.hour
  mday : FitsInt t.mday
  mon : FitsInt t.mon
  year : FitsInt t.year
  wday : FitsInt t.wday
  yday : FitsInt t.yday
  isdst : FitsInt t.isdst

/-- `EINVAL`, the error number `timegm` may set. -/
inductive Errno
  | einval
  deriving DecidableEq

/-- `__spm`: the days before a month, in a year that is not leap. -/
def spm (i : ℤ) : ℤ :=
  [0,
    31,
    31 + 28,
    31 + 28 + 31,
    31 + 28 + 31 + 30,
    31 + 28 + 31 + 30 + 31,
    31 + 28 + 31 + 30 + 31 + 30,
    31 + 28 + 31 + 30 + 31 + 30 + 31,
    31 + 28 + 31 + 30 + 31 + 30 + 31 + 31,
    31 + 28 + 31 + 30 + 31 + 30 + 31 + 31 + 30,
    31 + 28 + 31 + 30 + 31 + 30 + 31 + 31 + 30 + 31,
    31 + 28 + 31 + 30 + 31 + 30 + 31 + 31 + 30 + 31 + 30,
    31 + 28 + 31 + 30 + 31 + 30 + 31 + 31 + 30 + 31 + 30 + 31].getD (Int.toNat i) 0

/-- `__isleap`. -/
def isleap (year : ℤ) : Bool :=
  Int.tmod year 4 == 0 && (Int.tmod year 100 != 0 || Int.tmod year 400 == 0)

/-- `SPD`, the seconds of a day. -/
def spd : ℤ := 24 * 60 * 60

/-! ## Breaking down -/

/-- A pass of the search for the year: `i`, and the days left over. -/
def yearPass (s : ℤ × ℤ) : Option (ℤ × ℤ) :=
  if s.2 ≥ (if isleap s.1 then 366 else 365) then
    some (s.1 + 1, s.2 - (if isleap s.1 then 366 else 365))
  else none

/-- The search for the year, from 1970 on. -/
def yearOf (work : ℤ) : ℤ × ℤ := Loop.run yearPass (Int.toNat work + 1) (1970, work)

/-- The search for the month, from `i` downwards. -/
def monthOf (work : ℤ) : ℕ → ℕ
  | 0 => 0
  | i + 1 => if spm (i + 1 : ℕ) > work then monthOf work i else i + 1

/-- `tm_mday` and `work` once a leap day is out of the way: the 29th of
February is the day after the 28th. -/
def skipLeapDay (i work : ℤ) : ℤ × ℤ :=
  if isleap i = true ∧ work > 58 then (if work = 59 then 2 else 1, work - 1) else (1, work)

/-- The date within year `i`. -/
def dateOf (r : Tm) (i work : ℤ) : Tm :=
  let mday := (skipLeapDay i work).1
  let day := (skipLeapDay i work).2
  let mon := monthOf day 11
  { r with year := i - 1900, yday := work, mon := mon, mday := mday + (day - spm mon) }

/-- `tz_is_dst`. -/
def tzIsDst : ℤ := 0

/-- `gmtime_r`, its pointers not being null. -/
def gmtimeR (timep : ℤ) : Tm :=
  let work := Int.tmod timep spd
  let day := Int.tdiv timep spd
  let r : Tm :=
    { sec := Int.tmod work 60, min := Int.tmod (Int.tdiv work 60) 60
      hour := Int.tdiv (Int.tdiv work 60) 60
      mday := 0, mon := 0, year := 0
      wday := Int.tmod (4 + day) 7, yday := 0, isdst := 0 }
  { dateOf r (yearOf day).1 (yearOf day).2 with isdst := tzIsDst }

/-- `localtime_r`, where `tz_get` gives `tz`. -/
def localtimeR (tz t : ℤ) : Tm := gmtimeR (t + tz * 3600)

/-! ## Putting together -/

def carrySec (t : Tm) : Tm :=
  if t.sec > 60 then
    { t with min := t.min + Int.tdiv t.sec 60, sec := Int.tmod t.sec 60 } else t

def carryMin (t : Tm) : Tm :=
  if t.min ≥ 60 then
    { t with hour := t.hour + Int.tdiv t.min 60, min := Int.tmod t.min 60 } else t

def carryHour (t : Tm) : Tm :=
  if t.hour ≥ 24 then
    { t with mday := t.mday + Int.tdiv t.hour 24, hour := Int.tmod t.hour 24 } else t

def carryMon (t : Tm) : Tm :=
  if t.mon ≥ 12 then
    { t with year := t.year + Int.tdiv t.mon 12, mon := Int.tmod t.mon 12 } else t

/-- A pass of the loop over `tm_mday`. -/
def dayPass (t : Tm) : Option Tm :=
  if t.mday > spm (1 + t.mon) then
    let mday := if t.mon = 1 ∧ isleap (t.year + 1900) = true then t.mday - 1 else t.mday
    let mday := mday - spm t.mon
    if t.mon + 1 > 11 then some { t with mday := mday, mon := 0, year := t.year + 1 }
    else some { t with mday := mday, mon := t.mon + 1 }
  else none

/-- The loop over `tm_mday`. -/
def carryDay (t : Tm) : Tm := Loop.run dayPass (Int.toNat (12 * t.mday) + 1) t

/-- The days of `years` years from 1970 on. -/
def yearDays (years : ℤ) : ℤ :=
  let day := years * 365 + Int.tdiv (years + 1) 4
  if years ≥ 131 then
    -- what the centuries take off
    let century := Int.tdiv (years - 131) 100
    let day := day - (Int.shiftRight century 2 * 3 + 1)
    let rest := Int.emod century 4
    day - (if rest = 3 then rest - 1 else rest)
  else day

/-- What `timegm` gives: its value, the fields as it leaves them, and the
error number where it sets one. -/
structure Timegm where
  time : ℤ
  tm : Tm
  errno : Option Errno
  deriving DecidableEq

/-- The fields once they are carried. -/
def normalize (t : Tm) : Tm := carryDay (carryMon (carryHour (carryMin (carrySec t))))

/-- `timegm`, its pointer not being null. The years are read before
anything is carried. -/
def timegm (t : Tm) : Timegm :=
  let years := t.year - 70
  let t := normalize t
  if t.year < 70 then { time := -1, tm := t, errno := some Errno.einval }
  else
    let yday := spm t.mon + t.mday - 1 +
      (if isleap (t.year + 1900) = true ∧ t.mon > 1 then 1 else 0)
    let day := yearDays years + yday
    { time := ((day * 24 + t.hour) * 60 + t.min) * 60 + t.sec
      tm := { t with yday := yday, wday := Int.tmod (day + 4) 7 }
      errno := none }

/-- `mktime`, where `tz_get` gives `tz`. -/
def mktime (tz : ℤ) (t : Tm) : Timegm :=
  { timegm t with time := (timegm t).time - 3600 * tz }

/-! ## Writing out -/

/-- The bytes of a literal. -/
def bytes (s : String) : List UInt8 := s.toList.map fun c => c.toNat.toUInt8

def days : List UInt8 := bytes "Sun Mon Tue Wed Thu Fri Sat "

def months : List UInt8 := bytes "Jan Feb Mar Apr May Jun Jul Aug Sep Oct Nov Dec "

/-- `*(int *)(s + i)`: four bytes. -/
def int4 (s : List UInt8) (i : ℤ) : List UInt8 :=
  [s.getD (Int.toNat i) 0, s.getD (Int.toNat i + 1) 0,
    s.getD (Int.toNat i + 2) 0, s.getD (Int.toNat i + 3) 0]

/-- `num2str`. -/
def num2str (i : ℤ) : List UInt8 :=
  [UInt8.ofInt (Int.tdiv i 10 + 0x30), UInt8.ofInt (Int.tmod i 10 + 0x30)]

/-- `bs` stored at `buf + i`. -/
def store (buf : List UInt8) (i : ℕ) (bs : List UInt8) : List UInt8 :=
  buf.take i ++ bs ++ buf.drop (i + bs.length)

/-- What `asctime_r` writes behind the names: `year` is what it writes as
the year. -/
def ascRest (t : Tm) (year : ℤ) (buf : List UInt8) : List UInt8 :=
  let buf := store buf 8 (num2str t.mday)
  let buf := if buf.getD 8 0 = 0x30 then store buf 8 [0x20] else buf
  let buf := store buf 10 [0x20]
  let buf := store buf 11 (num2str t.hour)
  let buf := store buf 13 [0x3A]
  let buf := store buf 14 (num2str t.min)
  let buf := store buf 16 [0x3A]
  let buf := store buf 17 (num2str t.sec)
  let buf := store buf 19 [0x20]
  let buf := store buf 20 (num2str (Int.tdiv year 100))
  let buf := store buf 22 (num2str (Int.tmod year 100))
  let buf := store buf 24 [0x0A]
  store buf 25 [0]

/-- `asctime_r`: the 26 bytes of the buffer. -/
def asctimeR (t : Tm) : List UInt8 :=
  let buf := List.replicate 26 0
  if (days.length : ℤ) ≤ t.wday * 4 ∨ (months.length : ℤ) ≤ t.mon * 4 then
    ascRest t 2000 (store (store buf 0 (int4 days 0)) 4 (int4 months 0))
  else
    ascRest t (t.year + 1900) (store (store buf 0 (int4 days (t.wday * 4))) 4
      (int4 months (t.mon * 4)))

/-- `ctime_r`. -/
def ctimeR (tz t : ℤ) : List UInt8 := asctimeR (localtimeR tz t)

end Time

end RtSpark
