import RtSpark.Common.CString
import RtSpark.Common.Loop
import Mathlib.Logic.Function.Basic
/-!
# The command shell

`msh.c`: a line is split into arguments in place, by writing NULs behind
them, and the command its first word names is called with them. The table of
commands and what runs as a script come from outside.
-/

namespace RtSpark

namespace Shell

/-- `FINSH_ARG_MAX`. -/
def finshArgMax : ℕ := 10

/-- `FINSH_CMD_SIZE`. -/
def finshCmdSize : ℕ := 80

/-- `'"'`. -/
def quote : UInt8 := 0x22

/-- `'\\'`. -/
def backslash : UInt8 := 0x5C

/-- `' '` or `'\t'`. -/
def isBlank (c : UInt8) : Bool := c == 0x20 || c == 0x09

/-! ## Splitting -/

/-- What `msh_split` keeps. `ptr` is `cmd + position` throughout, `argv` are
offsets from `cmd`, and `tooMany` says that it has complained. -/
structure Split where
  cmd : Mem
  position : ℕ
  argv : List ℕ
  tooMany : Bool

namespace Split

/-- Strip a blank. -/
def stripPass (length : ℕ) (s : Split) : Option Split :=
  if isBlank (s.cmd s.position) = true ∧ s.position < length then
    some { s with cmd := Function.update s.cmd s.position 0, position := s.position + 1 }
  else none

/-- Skip a character of a string, or an escaped quote. -/
def stringPass (length : ℕ) (s : Split) : Option Split :=
  if s.cmd s.position ≠ quote ∧ s.position < length then
    if s.cmd s.position = backslash ∧ s.cmd (s.position + 1) = quote then
      some { s with position := s.position + 1 + 1 }
    else some { s with position := s.position + 1 }
  else none

/-- Skip a character of a word. -/
def wordPass (length : ℕ) (s : Split) : Option Split :=
  if isBlank (s.cmd s.position) = false ∧ s.position < length then
    some { s with position := s.position + 1 }
  else none

/-- One of the inner loops. -/
def skip (pass : ℕ → Split → Option Split) (length : ℕ) (s : Split) : Split :=
  Loop.run (pass length) length s

/-- `argv[argc] = ptr; argc++`. -/
def push (s : Split) : Split := { s with argv := s.argv ++ [s.position] }

/-- `ptr++; position++`. -/
def next (s : Split) : Split := { s with position := s.position + 1 }

/-- `*ptr = '\0'`. -/
def terminate (s : Split) : Split := { s with cmd := Function.update s.cmd s.position 0 }

/-- The loop of `msh_split`; the bound is on its passes. -/
def loop (length : ℕ) : ℕ → Split → Split
  | 0, s => s
  | n + 1, s =>
    if s.position < length then
      let s := skip stripPass length s
      if finshArgMax ≤ s.argv.length then { s with tooMany := true }
      else if length ≤ s.position then s
      else if s.cmd s.position = quote then
        let s := skip stringPass length s.next.push
        if length ≤ s.position then s else loop length n s.terminate.next
      else
        let s := skip wordPass length s.push
        if length ≤ s.position then s else loop length n s
    else s

end Split

/-- `msh_split`. -/
def mshSplit (cmd : Mem) (length : ℕ) : Split := Split.loop length length ⟨cmd, 0, [], false⟩

/-! ## Executing -/

/-- `strncmp(name, cmd, size) == 0`. -/
def strncmpEq : List UInt8 → Mem → ℕ → Bool
  | _, _, 0 => true
  | [], cmd, _ + 1 => cmd 0 == 0
  | c :: name, cmd, size + 1 => c == cmd 0 && strncmpEq name (fun i => cmd (i + 1)) size

/-- `msh_get_cmd`, over the names of the table and what they call. -/
def mshGetCmd {F : Type*} (table : List (List UInt8 × F)) (cmd : Mem) (size : ℕ) : Option F :=
  (table.find? fun index => strncmpEq index.1 cmd size && index.1.getD size 0 == 0).map Prod.snd

/-- What a line comes to. -/
inductive Outcome (F : Type*) where
  | empty
  | called (cmdFunc : F) (args : Split)
  | script
  | notFound (cmd : Mem)

/-- The size of the first word. -/
def cmd0Size (cmd : Mem) (length : ℕ) : ℕ :=
  Loop.run (fun i => if isBlank (cmd i) = false ∧ i < length then some (i + 1) else none) length 0

/-- `_msh_exec_cmd`; `none` is `-RT_ERROR`. -/
def mshExecCmd {F : Type*} (table : List (List UInt8 × F)) (cmd : Mem) (length : ℕ) :
    Option (F × Split) :=
  let size := cmd0Size cmd length
  if size = 0 then none
  else
    match mshGetCmd table cmd size with
    | none => none
    | some cmdFunc =>
      let s := mshSplit cmd length
      if s.argv.length = 0 then none else some (cmdFunc, s)

/-- Where the blanks before the command end. -/
def trim (cmd : Mem) (length : ℕ) : ℕ :=
  Loop.run (fun i => if i < length ∧ isBlank (cmd i) = true then some (i + 1) else none) length 0

/-- The command as it is complained of: up to its first space. -/
def truncate (cmd : Mem) : Mem :=
  Function.update cmd
    (Loop.run (fun i => if cmd i ≠ 0x20 ∧ cmd i ≠ 0 then some (i + 1) else none)
      (finshCmdSize + 1) 0) 0

/-- `msh_exec`; `script` stands for `msh_exec_script`. -/
def mshExec {F : Type*} (table : List (List UInt8 × F)) (script : Mem → ℕ → Bool) (line : Mem)
    (length : ℕ) : Outcome F :=
  let start := trim line length
  let cmd : Mem := fun i => line (start + i)
  if length - start = 0 then .empty
  else
    match mshExecCmd table cmd (length - start) with
    | some (cmdFunc, args) => .called cmdFunc args
    | none => if script cmd (length - start) = true then .script else .notFound (truncate cmd)

/-! ## Completion -/

/-- `str_common`. -/
def strCommon : List UInt8 → List UInt8 → ℕ
  | c :: str1, d :: str2 => if c = d then strCommon str1 str2 + 1 else 0
  | _, _ => 0

/-- One command in the loop of `msh_auto_complete`: `name_ptr` and
`min_length`. -/
def completeName (line : Mem) (size : ℕ) (s : Option (List UInt8) × ℕ) (cmdName : List UInt8) :
    Option (List UInt8) × ℕ :=
  if strncmpEq cmdName line size = true then
    let s := if s.2 = 0 then (some cmdName, cmdName.length) else s
    let length := strCommon (s.1.getD []) cmdName
    if length < s.2 then (s.1, length) else s
  else s

/-- The last space, but not in the first place. -/
def lastSpace (line : Mem) : ℕ → Option ℕ
  | 0 => none
  | i + 1 => if line (i + 1) = 0x20 then some (i + 1) else lastSpace line i

/-- `msh_auto_complete` on the array of a line; `path` stands for
`msh_auto_complete_path`, from the character it is given on. -/
def mshAutoComplete (names : List (List UInt8)) (path : ℕ → Mem → Mem) (line : Mem) : Mem :=
  if line 0 = 0 then line
  else
    let line :=
      match lastSpace line (line.strnlen (finshCmdSize + 1)) with
      | none => line
      | some i => path (i + 1) line
    let r := names.foldl (completeName line (line.strnlen (finshCmdSize + 1))) (none, 0)
    match r.1 with
    | none => line
    | some name => line.strncpy (fun i => name.getD i 0) r.2

end Shell

end RtSpark
