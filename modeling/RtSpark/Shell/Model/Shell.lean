import RtSpark.Shell.Model.Msh
import RtSpark.Common.Text
/-!
# The line editor of the shell

`finsh_thread_entry` of `shell.c`: what it does with one character, on the
line, the history and the terminal. A `none` is an access that leaves its
array. Commands are taken to leave the shell alone; the completion of a line
comes from outside.
-/

namespace RtSpark

namespace Shell

/-- `FINSH_HISTORY_LINES`. -/
def finshHistoryLines : ℕ := 5

/-- `enum input_stat`. -/
inductive InputStat where
  | waitNormal
  | waitSpecKey
  | waitFuncKey
deriving DecidableEq

/-- `struct finsh_shell`. -/
structure FinshShell where
  stat : InputStat
  echoMode : Bool
  currentHistory : ℕ
  historyCount : ℕ
  cmdHistory : ℕ → Mem
  line : Mem
  linePosition : ℕ
  lineCurpos : ℕ

/-- What the shell sends to its terminal. -/
inductive Echo where
  | char (c : UInt8)
  | back
  | newline
  | eraseLine
  | prompt
  | candidates
deriving DecidableEq

/-- What a character makes the shell do, with the lines it executes. -/
inductive Effect (L : Type) where
  | echo (e : Echo)
  | exec (line : L)

/-- What the shell has done: itself, and its effects. A line is executed by
its pointer and its length. -/
abbrev Did (S : Type) : Type := S × List (Effect (Mem × ℕ))

namespace FinshShell

/-- The shell as its thread starts. -/
def start : FinshShell where
  stat := .waitNormal
  echoMode := true
  currentHistory := 0
  historyCount := 0
  cmdHistory := fun _ => Mem.zeros
  line := Mem.zeros
  linePosition := 0
  lineCurpos := 0

/-- `rt_uint16_t`, counted up. -/
def inc16 (n : ℕ) : ℕ := (n + 1) % 65536

/-- `rt_uint16_t`, counted down. -/
def dec16 (n : ℕ) : ℕ := (n + 65535) % 65536

/-- `"%s"` of the line from `i` on. -/
def puts (line : Mem) (i : ℕ) : Option (List (Effect (Mem × ℕ))) :=
  let n := finshCmdSize + 1 - i
  if Mem.strnlen (fun j => line (i + j)) n < n then
    some ((Mem.str (fun j => line (i + j)) n).map fun c => .echo (.char c))
  else none

/-- `line_curpos = line_position = strlen(line)`, behind the prompt and the
line on the terminal. -/
def showLine (s : FinshShell) (effects : List (Effect (Mem × ℕ))) : Option (Did FinshShell) :=
  (puts s.line 0).map fun text =>
    ({ s with
        linePosition := Mem.strnlen s.line (finshCmdSize + 1)
        lineCurpos := Mem.strnlen s.line (finshCmdSize + 1) },
      effects ++ .echo .prompt :: text)

/-- `memcmp` of `FINSH_CMD_SIZE` bytes. -/
def sameLine (a b : Mem) : Bool := (List.range finshCmdSize).all fun i => a i == b i

/-- A row of the history: cleared, and the line copied into it. -/
def historyRow (line : Mem) (length : ℕ) : Mem := fun i => if i < length then line i else 0

/-- `shell_push_history`. -/
def shellPushHistory (s : FinshShell) : Option FinshShell :=
  if s.linePosition ≠ 0 then
    if finshHistoryLines ≤ s.historyCount then
      if sameLine (s.cmdHistory (finshHistoryLines - 1)) s.line = false then
        if s.linePosition ≤ finshCmdSize then
          some { s with
            cmdHistory := fun i =>
              if i < finshHistoryLines - 1 then s.cmdHistory (i + 1)
              else historyRow s.line s.linePosition
            historyCount := finshHistoryLines
            currentHistory := finshHistoryLines }
        else none
      else some { s with currentHistory := s.historyCount }
    else if s.historyCount = 0 ∨ sameLine (s.cmdHistory (s.historyCount - 1)) s.line = false then
      if s.linePosition ≤ finshCmdSize then
        some { s with
          cmdHistory :=
            Function.update s.cmdHistory s.historyCount (historyRow s.line s.linePosition)
          historyCount := inc16 s.historyCount
          currentHistory := inc16 s.historyCount }
      else none
    else some { s with currentHistory := s.historyCount }
  else some { s with currentHistory := s.historyCount }

/-- The command of the history is copied and shown. -/
def copyHistory (s : FinshShell) : Option (Did FinshShell) :=
  if s.currentHistory < finshHistoryLines then
    showLine { s with
      line := fun i => if i < finshCmdSize then s.cmdHistory s.currentHistory i else s.line i }
      [.echo .eraseLine]
  else none

/-- The up key. -/
def keyUp (s : FinshShell) : Option (Did FinshShell) :=
  if 0 < s.currentHistory then copyHistory { s with currentHistory := s.currentHistory - 1 }
  else some ({ s with currentHistory := 0 }, [])

/-- The down key. -/
def keyDown (s : FinshShell) : Option (Did FinshShell) :=
  if s.currentHistory + 1 < s.historyCount then
    copyHistory { s with currentHistory := s.currentHistory + 1 }
  else if s.historyCount ≠ 0 then copyHistory { s with currentHistory := s.historyCount - 1 }
  else some (s, [])

/-- The left key. -/
def keyLeft (s : FinshShell) : Option (Did FinshShell) :=
  if s.lineCurpos ≠ 0 then some ({ s with lineCurpos := s.lineCurpos - 1 }, [.echo .back])
  else some (s, [])

/-- The right key. -/
def keyRight (s : FinshShell) : Option (Did FinshShell) :=
  if s.lineCurpos < s.linePosition then
    if s.lineCurpos < finshCmdSize + 1 then
      some ({ s with lineCurpos := inc16 s.lineCurpos }, [.echo (.char (s.line s.lineCurpos))])
    else none
  else some (s, [])

/-- The tab key; `complete` is what `msh_auto_complete` makes of the line. -/
def keyTab (complete : Mem → Mem) (s : FinshShell) : Option (Did FinshShell) :=
  showLine { s with line := complete s.line }
    (List.replicate s.lineCurpos (.echo .back) ++ [.echo .newline, .echo .candidates])

/-- The backspace key. -/
def keyBackspace (s : FinshShell) : Option (Did FinshShell) :=
  if s.lineCurpos = 0 then some (s, [])
  else
    let position := dec16 s.linePosition
    let curpos := s.lineCurpos - 1
    if curpos < position then
      if position < finshCmdSize + 1 then
        let line := Function.update (s.line.memmove curpos (curpos + 1) (position - curpos)) position 0
        (puts line curpos).map fun text =>
          ({ s with line := line, linePosition := position, lineCurpos := curpos },
            .echo .back :: text ++ [.echo (.char 0x20), .echo (.char 0x20), .echo .back] ++
              List.replicate (position - curpos + 1) (.echo .back))
      else none
    else if position < finshCmdSize + 1 then
      some ({ s with
          line := Function.update s.line position 0, linePosition := position, lineCurpos := curpos },
        [.echo .back, .echo (.char 0x20), .echo .back])
    else none

/-- The end of a line. -/
def keyEnter (s : FinshShell) : Option (Did FinshShell) :=
  (shellPushHistory s).map fun s =>
    ({ s with line := Mem.zeros, linePosition := 0, lineCurpos := 0 },
      (if s.echoMode = true then [.echo .newline] else []) ++
        [.exec (s.line, s.linePosition), .echo .prompt])

/-- The end of a character put in: a line that is full is cleared. -/
def advance (s : FinshShell) (position : ℕ) : FinshShell :=
  if finshCmdSize ≤ inc16 position then { s with linePosition := 0, lineCurpos := 0 }
  else { s with linePosition := inc16 position, lineCurpos := inc16 s.lineCurpos }

/-- A character put in. -/
def insertChar (s : FinshShell) (ch : UInt8) : Option (Did FinshShell) :=
  let position := if finshCmdSize ≤ s.linePosition then 0 else s.linePosition
  if s.lineCurpos < position then
    let line := Function.update
      (s.line.memmove (s.lineCurpos + 1) s.lineCurpos (position - s.lineCurpos)) s.lineCurpos ch
    (if s.echoMode = true then puts line s.lineCurpos else some []).map fun text =>
      (advance { s with line := line } position,
        text ++ List.replicate (position - s.lineCurpos) (.echo .back))
  else
    some (advance { s with line := Function.update s.line position ch } position,
      if s.echoMode = true then [.echo (.char ch)] else [])

/-- A character that is no part of a control key. -/
def key (complete : Mem → Mem) (s : FinshShell) (ch : UInt8) : Option (Did FinshShell) :=
  if ch = 0 ∨ ch = 0xFF then some (s, [])
  else if ch = 0x09 then keyTab complete s
  else if ch = 0x7F ∨ ch = 0x08 then keyBackspace s
  else if ch = cr ∨ ch = lf then keyEnter s
  else insertChar s ch

/-- What `finsh_thread_entry` does with a character. -/
def finshThreadEntry (complete : Mem → Mem) (s : FinshShell) (ch : UInt8) :
    Option (Did FinshShell) :=
  if ch = 0x1B then some ({ s with stat := .waitSpecKey }, [])
  else
    match s.stat with
    | .waitSpecKey =>
      if ch = 0x5B then some ({ s with stat := .waitFuncKey }, [])
      else key complete { s with stat := .waitNormal } ch
    | .waitFuncKey =>
      if ch = 0x41 then keyUp { s with stat := .waitNormal }
      else if ch = 0x42 then keyDown { s with stat := .waitNormal }
      else if ch = 0x44 then keyLeft { s with stat := .waitNormal }
      else if ch = 0x43 then keyRight { s with stat := .waitNormal }
      else key complete { s with stat := .waitNormal } ch
    | .waitNormal => key complete s ch

/-- The characters one after the other, and all that they make it do. -/
def run (complete : Mem → Mem) : FinshShell → List UInt8 → Option (Did FinshShell)
  | s, [] => some (s, [])
  | s, ch :: chs =>
    (finshThreadEntry complete s ch).bind fun r =>
      (run complete r.1 chs).map fun r' => (r'.1, r.2 ++ r'.2)

end FinshShell

end Shell

end RtSpark
