import RtSpark.Time.Model.Ctime
/-!
# The real-time clock

`drv_rtc.c`, the calendar functions of the HAL it calls, and `set_date` and
`set_time` of `rtc.c`. The calendar is held in two registers, in BCD. They
stand still here: a call is over before the clock's next second. A wait of
the HAL that runs out is an input.
-/

namespace RtSpark

namespace Time

/-- `RTC->TR` and `RTC->DR`. -/
structure RtcRegs where
  tr : ℕ
  dr : ℕ
  deriving DecidableEq

/-- How the waits of a setting call end: all in time, the wait for the
initialisation mode not, or that for the shadow registers not. -/
inductive HalWait
  | inTime
  | noInit
  | noSynchro
  deriving DecidableEq

/-- A conversion to `uint8_t`. -/
def uint8 (i : ℤ) : ℕ := Int.toNat (i % 256)

/-- A pass of the loop of `RTC_ByteToBcd2`: `bcdhigh` and `Value`. -/
def bcdPass (s : ℕ × ℕ) : Option (ℕ × ℕ) :=
  if s.2 ≥ 10 then some (s.1 + 1, s.2 - 10) else none

/-- `RTC_ByteToBcd2`. -/
def rtcByteToBcd2 (value : ℕ) : ℕ :=
  (Loop.run bcdPass (value + 1) (0, value)).1 <<< 4 % 256 |||
    (Loop.run bcdPass (value + 1) (0, value)).2

/-- `RTC_Bcd2ToByte`. -/
def rtcBcd2ToByte (value : ℕ) : ℕ := ((value &&& 0xF0) >>> 4 * 10 + (value &&& 0x0F)) % 256

/-- `RTC_TimeTypeDef`, as the driver uses it. -/
structure RtcTime where
  hours : ℕ
  minutes : ℕ
  seconds : ℕ
  deriving DecidableEq

/-- `RTC_DateTypeDef`. -/
structure RtcDate where
  weekDay : ℕ
  month : ℕ
  date : ℕ
  year : ℕ
  deriving DecidableEq

/-- `HAL_RTC_SetTime` of a binary time in the 24-hour format. -/
def halRtcSetTime (wait : HalWait) (regs : RtcRegs) (sTime : RtcTime) : RtcRegs × Bool :=
  let tmpreg := rtcByteToBcd2 sTime.hours <<< 16 ||| rtcByteToBcd2 sTime.minutes <<< 8 |||
    rtcByteToBcd2 sTime.seconds
  match wait with
  | .noInit => (regs, false)
  | .noSynchro => ({ regs with tr := tmpreg &&& 0x007F7F7F }, false)
  | .inTime => ({ regs with tr := tmpreg &&& 0x007F7F7F }, true)

/-- `HAL_RTC_GetTime` in binary. -/
def halRtcGetTime (regs : RtcRegs) : RtcTime :=
  let tmpreg := regs.tr &&& 0x007F7F7F
  { hours := rtcBcd2ToByte ((tmpreg &&& (0x00300000 ||| 0x000F0000)) >>> 16)
    minutes := rtcBcd2ToByte ((tmpreg &&& (0x00007000 ||| 0x00000F00)) >>> 8)
    seconds := rtcBcd2ToByte (tmpreg &&& (0x00000070 ||| 0x0000000F)) }

/-- `HAL_RTC_SetDate` of a binary date. A month that is in BCD already is
put right first. -/
def halRtcSetDate (wait : HalWait) (regs : RtcRegs) (sDate : RtcDate) : RtcRegs × Bool :=
  let month := if sDate.month &&& 0x10 = 0x10 then ((sDate.month &&& 0xEF) + 0x0A) % 256
    else sDate.month
  let datetmpreg := rtcByteToBcd2 sDate.year <<< 16 ||| rtcByteToBcd2 month <<< 8 |||
    rtcByteToBcd2 sDate.date ||| sDate.weekDay <<< 13
  match wait with
  | .noInit => (regs, false)
  | .noSynchro => ({ regs with dr := datetmpreg &&& 0x00FFFF3F }, false)
  | .inTime => ({ regs with dr := datetmpreg &&& 0x00FFFF3F }, true)

/-- `HAL_RTC_GetDate` in binary. -/
def halRtcGetDate (regs : RtcRegs) : RtcDate :=
  let datetmpreg := regs.dr &&& 0x00FFFF3F
  { year := rtcBcd2ToByte ((datetmpreg &&& (0x00F00000 ||| 0x000F0000)) >>> 16)
    month := rtcBcd2ToByte ((datetmpreg &&& (0x00001000 ||| 0x00000F00)) >>> 8)
    date := rtcBcd2ToByte (datetmpreg &&& (0x00000030 ||| 0x0000000F))
    weekDay := (datetmpreg &&& 0x0000E000) >>> 13 }

/-- `stm32_rtc_get_timeval`, its seconds. -/
def stm32RtcGetTimeval (regs : RtcRegs) : ℤ :=
  let sTime := halRtcGetTime regs
  let sDate := halRtcGetDate regs
  (timegm
    { sec := sTime.seconds, min := sTime.minutes, hour := sTime.hours
      mday := sDate.date, mon := (sDate.month : ℤ) - 1, year := (sDate.year : ℤ) + 100
      wday := 0, yday := 0, isdst := 0 }).time

/-- `set_rtc_time_stamp`, and whether it succeeds. -/
def setRtcTimeStamp (setTime setDate : HalWait) (regs : RtcRegs) (timeStamp : ℤ) :
    RtcRegs × Bool :=
  let tm := gmtimeR timeStamp
  if tm.year < 100 then (regs, false)
  else
    let timed := halRtcSetTime setTime regs
      { seconds := uint8 tm.sec, minutes := uint8 tm.min, hours := uint8 tm.hour }
    if timed.2 = false then (timed.1, false)
    else halRtcSetDate setDate timed.1
      { date := uint8 tm.mday, month := uint8 (tm.mon + 1), year := uint8 (tm.year - 100)
        weekDay := uint8 (tm.wday + 1) }

/-- What `set_date` and `set_time` share: without an `rtc` device they give
up, else they take the local time of `RT_DEVICE_CTRL_RTC_GET_TIME`, write
their fields over it, and pass it to `RT_DEVICE_CTRL_RTC_SET_TIME`. -/
def setLocal (rtcDevice : Bool) (waitTime waitDate : HalWait) (tz : ℤ) (regs : RtcRegs)
    (update : Tm → Tm) : RtcRegs × Bool :=
  if rtcDevice = false then (regs, false)
  else
    let tmNew := update (localtimeR tz (stm32RtcGetTimeval regs))
    setRtcTimeStamp waitTime waitDate regs (mktime tz tmNew).time

/-- `set_date`. -/
def setDate (rtcDevice : Bool) (waitTime waitDate : HalWait) (tz : ℤ) (regs : RtcRegs)
    (year month day : ℤ) : RtcRegs × Bool :=
  setLocal rtcDevice waitTime waitDate tz regs fun tmNew =>
    { tmNew with year := year - 1900, mon := month - 1, mday := day }

/-- `set_time`. -/
def setTime (rtcDevice : Bool) (waitTime waitDate : HalWait) (tz : ℤ) (regs : RtcRegs)
    (hour minute second : ℤ) : RtcRegs × Bool :=
  setLocal rtcDevice waitTime waitDate tz regs fun tmNew =>
    { tmNew with hour := hour, min := minute, sec := second }

end Time

end RtSpark
