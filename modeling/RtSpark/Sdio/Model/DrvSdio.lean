import Mathlib.Data.Nat.Notation
import Mathlib.Data.Int.Notation
import Mathlib.Algebra.Group.Nat.Defs
/-!
# SDIO commands

The part of `drv_sdio.c` that sends a command, waits for it and completes
it from the interrupt. The thread that runs `rthw_sdio_request` holds the
mutex from its first step to its last, so there is one such thread; the
interrupt may come between any two of its steps, and runs in one. A flag
of the status register carries the number of the command it was raised
for, which the hardware does not keep.
-/

namespace RtSpark

namespace Sdio

/-! ## Flags -/

/-- The bits of `sta`, `mask` and the event set that the handler and the
wait act on. -/
inductive Flag where
  | ccrcfail
  | dcrcfail
  | ctimeout
  | dtimeout
  | txunderr
  | rxoverr
  | cmdrend
  | cmdsent
  | dataend
deriving DecidableEq

def Flag.all : List Flag :=
  [.ccrcfail, .dcrcfail, .ctimeout, .dtimeout, .txunderr, .rxoverr, .cmdrend, .cmdsent, .dataend]

/-- `HW_SDIO_ERRORS`. -/
def Flag.isError : Flag → Bool
  | .cmdrend | .cmdsent | .dataend => false
  | _ => true

/-- A set of flags, each with the command it was raised for. -/
abbrev Status := Flag → Option ℕ

namespace Status

def empty : Status := fun _ => none

/-- `status & f` -/
def has (status : Status) (f : Flag) : Bool := (status f).isSome

def any (status : Status) : Bool := Flag.all.any status.has

/-- `status & HW_SDIO_ERRORS` -/
def hasErrors (status : Status) : Bool := Flag.all.any fun f => f.isError && status.has f

/-- `set | status`; a flag in both is the one of `set`. -/
def or (set status : Status) : Status := fun f => (set f).or (status f)

/-- A write to `icr`. -/
def clear (status : Status) (p : Flag → Bool) : Status :=
  fun f => if p f then none else status f

end Status

/-! ## Commands -/

/-- `RT_EOK`, `-RT_ERROR` and `-RT_ETIMEOUT`. -/
def rtEok : ℤ := 0

def errError : ℤ := -1

def errTimeout : ℤ := -2

/-- `struct rt_mmcsd_data`: the two directions of its `flags`, and whether
it has a `buf`. -/
structure Data where
  write : Bool
  read : Bool
  buf : Bool
  err : ℤ
deriving DecidableEq

/-- `struct rt_mmcsd_cmd`. -/
structure Cmd where
  flags : ℕ
  err : ℤ
  data : Option Data
deriving DecidableEq

/-- `resp_type(cmd)`. -/
def Cmd.respType (cmd : Cmd) : ℕ := cmd.flags &&& 0xF

def respNone : ℕ := 0

def respR3 : ℕ := 4

def respR4 : ℕ := 5

/-- `struct sdio_pkg`; of `buff`, whether it is set. -/
structure SdioPkg where
  cmd : Cmd
  buff : Bool
deriving DecidableEq

/-- The package of `req->cmd`. -/
def SdioPkg.ofCmd (cmd : Cmd) : SdioPkg where
  cmd := cmd
  buff := cmd.data.any Data.buf

/-- The package of `req->stop`, which has no buffer even where it has
data. -/
def SdioPkg.ofStop (cmd : Cmd) : SdioPkg where
  cmd := cmd
  buff := false

/-- Where the thread stands: what it has just done. -/
inductive Pc where
  /-- Outside `rthw_sdio_send_command`. -/
  | idle
  /-- `sdio->pkg = pkg`. -/
  | saved
  /-- The first statement under `open irq`. -/
  | opened
  /-- The second. -/
  | armed
  /-- `hw_sdio->cmd = reg_cmd`. -/
  | sent
  /-- Suspended in `rt_event_recv`. -/
  | waiting
  /-- `rt_event_recv` gave a status. -/
  | woken
  /-- `rt_event_recv` gave up. -/
  | timedOut
  /-- `rthw_sdio_wait_completed` is over. -/
  | completed
  /-- So is the wait for the data. -/
  | drained
  /-- The statement under `close irq`. -/
  | closed
deriving DecidableEq

/-- The controller works on a command from the write of its register until
its interrupts are closed. -/
def Pc.inProgress : Pc → Bool
  | .sent | .waiting | .woken | .timedOut | .completed | .drained => true
  | _ => false

end Sdio

open Sdio

/-- `struct rthw_sdio` and the registers behind it. `req` holds what of the
request is still to be sent, `status` is the local of the wait, `dpsm` the
bit of `dctrl` that starts the data path, and `cmdNo` counts the commands
sent. `nullPkg` and `nullData` record that a null `sdio->pkg` or `cmd->data`
was followed. -/
structure Sdio where
  pc : Pc
  req : List SdioPkg
  cmdNo : ℕ
  pkg : Option SdioPkg
  mask : Flag → Bool
  maskSdioit : Bool
  sta : Status
  staSdioit : Bool
  dpsm : Bool
  event : Status
  status : Status
  done : List Cmd
  wakeups : ℕ
  nullPkg : Bool
  nullData : Bool

namespace Sdio

/-- What `sdio_host_create` leaves: nothing is asked for but the card's
interrupt, which its last `rthw_sdio_irq_update` enables. -/
def hostCreate : Sdio where
  pc := .idle
  req := []
  cmdNo := 0
  pkg := none
  mask := fun _ => false
  maskSdioit := true
  sta := .empty
  staSdioit := false
  dpsm := false
  event := .empty
  status := .empty
  done := []
  wakeups := 0
  nullPkg := false
  nullData := false

/-! ## The thread -/

/-- `sdio->pkg->cmd->data`. -/
def data (sdio : Sdio) : Option Data := sdio.pkg.bind fun pkg => pkg.cmd.data

/-- `sdio->pkg = pkg`, for the next package of the request. -/
def savePkg (sdio : Sdio) (pkg : SdioPkg) (req : List SdioPkg) : Sdio :=
  { sdio with pc := .saved, req := req, cmdNo := sdio.cmdNo + 1, pkg := some pkg }

/-- `rthw_sdio_transfer_by_dma`: whether the data path is started. -/
def transferByDma (pkg : SdioPkg) : Bool :=
  match pkg.cmd.data with
  | some data => pkg.buff && !data.write && data.read
  | none => false

/-- The data registers, and the first statement under `open irq`. -/
def openIrq (sdio : Sdio) : Sdio :=
  { sdio with
    pc := .opened
    dpsm := if sdio.data.isSome then sdio.pkg.any transferByDma else sdio.dpsm
    mask := fun f => f == .cmdsent || f == .cmdrend || f.isError || sdio.mask f }

/-- `hw_sdio->mask |= HW_SDIO_IT_DATAEND`, of a command with data. -/
def openDataIrq (sdio : Sdio) : Sdio :=
  { sdio with
    pc := .armed
    mask := fun f => (sdio.data.isSome && f == .dataend) || sdio.mask f }

/-- `rt_event_recv` for any flag, with `RT_EVENT_FLAG_OR` and
`RT_EVENT_FLAG_CLEAR`. -/
def eventRecv (sdio : Sdio) : Sdio :=
  if sdio.event.any then
    { sdio with pc := .woken, status := sdio.event, event := .empty }
  else
    { sdio with pc := .waiting }

/-- `cmd->err` after the status is looked at. -/
def cmdErr (cmd : Cmd) (status : Status) : ℤ :=
  if status.hasErrors then
    if status.has .ctimeout then errTimeout
    else if status.has .ccrcfail && cmd.respType &&& (respR3 ||| respR4) != 0 then rtEok
    else errError
  else rtEok

/-- `data->err` after the status is looked at. -/
def dataErr (data : Data) (status : Status) : ℤ :=
  if status.has .dtimeout then errTimeout
  else if status.has .dcrcfail then errError
  else data.err

/-- What `rthw_sdio_wait_completed` does with the status. Only the branch
with errors looks at the data flags. -/
def waitCompleted (sdio : Sdio) : Sdio :=
  match sdio.pkg with
  | none => { sdio with pc := .completed }
  | some pkg =>
    { sdio with
      pc := .completed
      pkg := some
        { pkg with cmd :=
          { pkg.cmd with
            err := cmdErr pkg.cmd sdio.status
            data := pkg.cmd.data.map fun data =>
              { data with err := dataErr data sdio.status } } }
      -- data->err is written without a look at data
      nullData := sdio.nullData ||
        (pkg.cmd.data.isNone && (sdio.status.has .dcrcfail || sdio.status.has .dtimeout)) }

/-- A write to `cmd->err`. -/
def SdioPkg.setErr (pkg : SdioPkg) (err : ℤ) : SdioPkg :=
  { pkg with cmd := { pkg.cmd with err := err } }

/-- `rthw_sdio_wait_completed` after a time-out. -/
def waitTimedOut (sdio : Sdio) : Sdio :=
  { sdio with
    pc := .completed
    pkg := sdio.pkg.map fun pkg => pkg.setErr errTimeout }

/-- The wait for the data to be over; `busy` where it ran out of loops. -/
def drain (sdio : Sdio) (busy : Bool) : Sdio :=
  { sdio with
    pc := .drained
    pkg := sdio.pkg.map fun pkg =>
      if pkg.cmd.data.isSome && (busy || sdio.sta.hasErrors) then pkg.setErr errError
      else pkg }

/-- `close irq`, which keeps `HW_SDIO_IT_SDIOIT`. -/
def closeIrq (sdio : Sdio) : Sdio :=
  { sdio with pc := .closed, mask := fun _ => false }

/-- `sdio->pkg = RT_NULL`. -/
def clearPkg (sdio : Sdio) : Sdio :=
  { sdio with pc := .idle, pkg := none, done := sdio.done ++ sdio.pkg.toList.map SdioPkg.cmd }

/-- The next step of `rthw_sdio_request` and `rthw_sdio_send_command`. -/
def thread (sdio : Sdio) (busy : Bool) : Sdio :=
  match sdio.pc with
  | .idle =>
    match sdio.req with
    | [] => sdio
    | pkg :: req => sdio.savePkg pkg req
  | .saved => sdio.openIrq
  | .opened => sdio.openDataIrq
  | .armed => { sdio with pc := .sent }
  | .sent => sdio.eventRecv
  | .waiting => sdio
  | .woken => sdio.waitCompleted
  | .timedOut => sdio.waitTimedOut
  | .completed => sdio.drain busy
  | .drained => sdio.closeIrq
  | .closed => sdio.clearPkg

/-! ## The interrupt -/

/-- `rt_event_send`; the thread is the one that may wait. -/
def eventSend (sdio : Sdio) (set : Status) : Sdio :=
  if !set.any then sdio
  else if sdio.pc = .waiting then
    { sdio with pc := .woken, status := set.or sdio.event, event := .empty }
  else
    { sdio with event := set.or sdio.event }

/-- The branch of `HW_SDIO_IT_CMDREND` completes the command. -/
def cmdrendComplete (sdio : Sdio) : Bool :=
  match sdio.pkg with
  | some pkg => pkg.cmd.data.isNone
  | none => false

/-- The branch of `HW_SDIO_IT_CMDSENT` completes the command. -/
def cmdsentComplete (sdio : Sdio) : Bool :=
  match sdio.pkg with
  | some pkg => pkg.cmd.respType == respNone
  | none => false

/-- `complete`, at the end of `rthw_sdio_irq_process`. -/
def complete (sdio : Sdio) : Bool :=
  sdio.sta.hasErrors ||
    (sdio.sta.has .cmdrend && sdio.cmdrendComplete) ||
    (sdio.sta.has .cmdsent && sdio.cmdsentComplete) ||
    sdio.sta.has .dataend

/-- The branch of `HW_SDIO_IT_CMDSENT` follows a null `sdio->pkg`, which the
one of `HW_SDIO_IT_CMDREND` asks about. -/
def followsNull (sdio : Sdio) : Bool :=
  !sdio.sta.hasErrors && sdio.sta.has .cmdsent && sdio.pkg.isNone

/-- `HW_SDIO_IT_CMDREND` of a command that writes data. -/
def startsWrite (sdio : Sdio) : Bool :=
  !sdio.sta.hasErrors && sdio.sta.has .cmdrend && sdio.data.any Data.write

/-- The branches on the flags: what they clear, and what else they do. -/
def irqFlags (sdio : Sdio) : Sdio :=
  { sdio with
    sta := sdio.sta.clear fun f => if sdio.sta.hasErrors then f.isError else !f.isError
    dpsm := sdio.dpsm || sdio.startsWrite
    nullPkg := sdio.nullPkg || sdio.followsNull }

/-- The branch of `HW_SDIO_IT_SDIOIT`. `sdio_irq_wakeup` disables the
interrupt, as the host has `MMCSD_SUP_SDIO_IRQ`. -/
def irqSdioit (sdio : Sdio) : Sdio :=
  if sdio.staSdioit && sdio.maskSdioit then
    { sdio with staSdioit := false, maskSdioit := false, wakeups := sdio.wakeups + 1 }
  else sdio

/-- `hw_sdio->mask &= ~HW_SDIO_ERRORS`. -/
def closeErrors (sdio : Sdio) : Sdio :=
  { sdio with mask := fun f => !f.isError && sdio.mask f }

/-- The last branch; `intstatus` was read at the start. -/
def irqComplete (sdio : Sdio) (intstatus : Status) : Sdio :=
  sdio.closeErrors.eventSend intstatus

/-- `rthw_sdio_irq_process`. -/
def irqProcess (sdio : Sdio) : Sdio :=
  if sdio.complete then sdio.irqFlags.irqSdioit.irqComplete sdio.sta
  else sdio.irqFlags.irqSdioit

/-- The controller asks for the interrupt. -/
def irqPending (sdio : Sdio) : Bool :=
  (Flag.all.any fun f => sdio.mask f && sdio.sta.has f) || (sdio.maskSdioit && sdio.staSdioit)

/-! ## Steps -/

/-- What may happen next: a request, a step of the thread that serves one,
the time-out of its wait, a flag the controller or the card raises, the
interrupt, or `rthw_sdio_irq_update`. -/
inductive Act where
  | request (cmd stop : Option Cmd)
  | thread (busy : Bool)
  | timeout
  | raise (f : Flag)
  | card
  | irq
  | irqUpdate (enable : Bool)
deriving DecidableEq

/-- One step; what is not possible in a state leaves it as it is. -/
def sdioStep (sdio : Sdio) : Act → Sdio
  | .request cmd stop =>
    if sdio.pc = .idle ∧ sdio.req = [] then
      { sdio with req := cmd.toList.map .ofCmd ++ stop.toList.map .ofStop }
    else sdio
  | .thread busy => sdio.thread busy
  | .timeout => if sdio.pc = .waiting then { sdio with pc := .timedOut } else sdio
  | .raise f =>
    if sdio.pc.inProgress && sdio.mask f then
      { sdio with sta := fun g => if g = f then some sdio.cmdNo else sdio.sta g }
    else sdio
  | .card => { sdio with staSdioit := true }
  | .irq => if sdio.irqPending then sdio.irqProcess else sdio
  | .irqUpdate enable => { sdio with maskSdioit := enable }

end Sdio

end RtSpark
