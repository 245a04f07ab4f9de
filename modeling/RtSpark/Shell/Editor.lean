import RtSpark.Shell.Line
import RtSpark.Common.LineEditor
import Mathlib.Data.List.Forall2
/-!
# The shell is a line editor

What a character means depends on the ones before it, since a control key is
three of them; `press` says which key it completes. `Edits` relates the shell
to an editor of lines, and `shell_follows` that over any run in which no line
fills its array, the shell prints what the editor calls for and executes just
the lines entered in it.
-/

namespace RtSpark

namespace Shell

open FinshShell

open Editor (Key)

/-! ## Keys -/

/-- The key a character stands for; `f` is what a line is completed to. -/
def plain (f : List UInt8 → List UInt8) (w : List UInt8) (ch : UInt8) : Option (Key UInt8) :=
  if ch = 0 ∨ ch = 0xFF then none
  else if ch = 0x09 then some (.replace (f w))
  else if ch = 0x7F ∨ ch = 0x08 then some .rubout
  else if ch = cr ∨ ch = lf then some .enter
  else some (.char ch)

/-- The key a character completes, and what is waited for then. -/
def press (f : List UInt8 → List UInt8) (stat : InputStat) (w : List UInt8) (ch : UInt8) :
    InputStat × Option (Key UInt8) :=
  if ch = 0x1B then (.waitSpecKey, none)
  else
    match stat with
    | .waitSpecKey => if ch = 0x5B then (.waitFuncKey, none) else (.waitNormal, plain f w ch)
    | .waitFuncKey =>
      (.waitNormal,
        if ch = 0x41 then some .up
        else if ch = 0x42 then some .down
        else if ch = 0x44 then some .left
        else if ch = 0x43 then some .right
        else plain f w ch)
    | .waitNormal => (.waitNormal, plain f w ch)

/-- What the shell does with a key. -/
def perform (complete : Mem → Mem) (s : FinshShell) : Option (Key UInt8) → Option (Did FinshShell)
  | none => some (s, [])
  | some (.char c) => insertChar s c
  | some .rubout => keyBackspace s
  | some .left => keyLeft s
  | some .right => keyRight s
  | some .up => keyUp s
  | some .down => keyDown s
  | some (.replace _) => keyTab complete s
  | some .enter => keyEnter s

variable {complete : Mem → Mem} {f : List UInt8 → List UInt8} {s s' : FinshShell}
  {e : Editor UInt8} {k : Key UInt8} {c ch : UInt8} {w : List UInt8} {echo : Bool}

theorem key_eq (f : List UInt8 → List UInt8) (w : List UInt8) :
    key complete s ch = perform complete s (plain f w ch) := by
  unfold key plain
  split_ifs <;> rfl

/-- **A character does what its key does.** -/
theorem finshThreadEntry_eq (f : List UInt8 → List UInt8) (w : List UInt8) :
    finshThreadEntry complete s ch =
      perform complete { s with stat := (press f s.stat w ch).1 } (press f s.stat w ch).2 := by
  obtain ⟨stat, echoMode, current, count, rows, line, position, curpos⟩ := s
  unfold finshThreadEntry press
  by_cases hesc : ch = 0x1B
  · rw [if_pos hesc, if_pos hesc]
    rfl
  · rw [if_neg hesc, if_neg hesc]
    cases stat with
    | waitNormal => exact key_eq f w
    | waitSpecKey =>
      dsimp only
      split_ifs
      · rfl
      · exact key_eq f w
    | waitFuncKey =>
      dsimp only
      split_ifs <;> first | rfl | exact key_eq f w

/-- A character put in is no NUL, and a completion is that of the line. -/
def Typed (f : List UInt8 → List UInt8) (w : List UInt8) : Key UInt8 → Prop
  | .char c => c ≠ 0
  | .replace v => v = f w
  | _ => True

theorem typed_plain (h : plain f w ch = some k) : Typed f w k := by
  unfold plain at h
  split_ifs at h with h0
  · obtain rfl := Option.some.inj h
    exact rfl
  · obtain rfl := Option.some.inj h
    trivial
  · obtain rfl := Option.some.inj h
    trivial
  · obtain rfl := Option.some.inj h
    exact fun hz => h0 (Or.inl hz)

theorem typed_press {stat : InputStat} (h : (press f stat w ch).2 = some k) : Typed f w k := by
  unfold press at h
  by_cases hesc : ch = 0x1B
  · rw [if_pos hesc] at h
    cases h
  · rw [if_neg hesc] at h
    cases stat with
    | waitNormal => exact typed_plain h
    | waitSpecKey =>
      dsimp only at h
      split_ifs at h
      exact typed_plain h
    | waitFuncKey =>
      dsimp only at h
      split_ifs at h <;> first | (obtain rfl := Option.some.inj h; trivial) | exact typed_plain h

/-! ## The shell and the editor -/

/-- **What links the shell to the editor.** -/
structure Edits (s : FinshShell) (e : Editor UInt8) : Prop where
  line : Padded (finshCmdSize + 1) s.line e.text
  position : s.linePosition = e.text.length
  curpos : s.lineCurpos = e.before.length
  count : s.historyCount = e.history.length
  le : e.history.length ≤ finshHistoryLines
  current : s.currentHistory = e.current
  current_le : e.current ≤ e.history.length
  rows : ∀ i (hi : i < e.history.length), Padded finshCmdSize (s.cmdHistory i) e.history[i]

/-- What a key makes the terminal show. -/
def echoed (echo : Bool) (e : Editor UInt8) : Key UInt8 → List Echo
  | .char c =>
    (if echo = true then (c :: e.after).map .char else []) ++ List.replicate e.after.length .back
  | .rubout =>
    if e.before = [] then []
    else if e.after = [] then [.back, .char 0x20, .back]
    else .back :: e.after.map .char ++ [.char 0x20, .char 0x20, .back] ++
      List.replicate (e.after.length + 1) .back
  | .left => if e.before = [] then [] else [.back]
  | .right => (e.after.take 1).map .char
  | .up => if 0 < e.current then .eraseLine :: .prompt :: (e.step finshHistoryLines .up).text.map .char
    else []
  | .down => if e.history = [] then []
    else .eraseLine :: .prompt :: (e.step finshHistoryLines .down).text.map .char
  | .replace w =>
    List.replicate e.before.length .back ++ [.newline, .candidates, .prompt] ++ w.map .char
  | .enter => []

/-- What a key makes the shell do. -/
def output (echo : Bool) (e : Editor UInt8) : Key UInt8 → List (Effect (List UInt8))
  | .enter =>
    (if echo = true then [.echo .newline] else []) ++ [.exec e.text, .echo .prompt]
  | k => (echoed echo e k).map .echo

/-- An effect of the shell, in the terms of the editor: a line executed is a
string in its array. -/
inductive Means : Effect (Mem × ℕ) → Effect (List UInt8) → Prop
  | echo (x : Echo) : Means (.echo x) (.echo x)
  | exec {m : Mem} {w : List UInt8} : Padded (finshCmdSize + 1) m w →
      Means (.exec (m, w.length)) (.exec w)

/-- The key finds room. -/
def Fits (e : Editor UInt8) : Key UInt8 → Prop
  | .char _ => e.text.length + 1 < finshCmdSize
  | .replace w => w.length < finshCmdSize
  | _ => True

instance (e : Editor UInt8) (k : Key UInt8) : Decidable (Fits e k) := by
  cases k <;> unfold Fits <;> infer_instance

/-- What completing a line may do to its array. -/
def Completes (complete : Mem → Mem) (f : List UInt8 → List UInt8) : Prop :=
  ∀ m w, Padded (finshCmdSize + 1) m w → (f w).length < finshCmdSize →
    Padded (finshCmdSize + 1) (complete m) (f w)

/-- The shell does with a key what the editor does. -/
def Follows (s : FinshShell) (e : Editor UInt8) (k : Key UInt8) (r : Option (Did FinshShell)) :
    Prop :=
  ∃ s' effects, r = some (s', effects) ∧ Edits s' (e.step finshHistoryLines k) ∧
    s'.stat = s.stat ∧ s'.echoMode = s.echoMode ∧
    List.Forall₂ Means effects (output s.echoMode e k)

/-- What is only echoed is the same on both sides. -/
theorem means_of_eq {effects : List (Effect (Mem × ℕ))} {es : List Echo}
    (h : effects = es.map .echo) : List.Forall₂ Means effects (es.map .echo) := by
  subst h
  induction es with
  | nil => exact List.Forall₂.nil
  | cons x es ih => exact List.Forall₂.cons (Means.echo x) ih

/-- Where only the line and its positions change. -/
theorem Edits.edit {line : Mem} {before after : List UInt8} (h : Edits s e)
    (hline : Padded (finshCmdSize + 1) line (before ++ after)) :
    Edits { s with
        line := line
        linePosition := (before ++ after).length
        lineCurpos := before.length }
      { e with before := before, after := after } :=
  ⟨hline, rfl, rfl, h.count, h.le, h.current, h.current_le, h.rows⟩

/-- A line that is shown, with the cursor behind it. -/
theorem showLine_padded {line : Mem} (effects : List (Effect (Mem × ℕ)))
    (hline : Padded (finshCmdSize + 1) line w) :
    showLine { s with line := line } effects =
      some ({ s with line := line, linePosition := w.length, lineCurpos := w.length },
        effects ++ .echo .prompt :: w.map fun c => .echo (.char c)) := by
  have hputs : puts line 0 = some (w.map fun c => .echo (.char c)) :=
    puts_padded (u := []) hline
  have hlen := hline.strnlen (Nat.lt_succ_of_lt hline.short)
  unfold showLine
  dsimp only
  rw [hputs, hlen]
  rfl

/-- The end of a character put in, where there is room. -/
theorem advance_eq {u v : List UInt8} (hcur : s.lineCurpos = u.length)
    (hfit : (u ++ v).length + 1 < finshCmdSize) (c : UInt8) :
    advance s (u ++ v).length =
      { s with linePosition := (u ++ [c] ++ v).length, lineCurpos := (u ++ [c]).length } := by
  have hsize : finshCmdSize < 65536 := by decide
  have hu : u.length ≤ (u ++ v).length := by
    rw [List.length_append]
    exact Nat.le_add_right _ _
  have h1 : inc16 (u ++ v).length = (u ++ v).length + 1 := Nat.mod_eq_of_lt (by omega)
  have h2 : inc16 s.lineCurpos = u.length + 1 := by
    rw [hcur]
    exact Nat.mod_eq_of_lt (by omega)
  unfold advance
  rw [h1, h2, if_neg (by omega)]
  simp only [List.length_append, List.length_singleton, Nat.add_right_comm]

theorem follows_char (h : Edits s e) (hc : c ≠ 0) (hfit : e.text.length + 1 < finshCmdSize) :
    Follows s e (.char c) (insertChar s c) := by
  obtain ⟨u, v, history, current, entered⟩ := e
  have hpos : s.linePosition = (u ++ v).length := h.position
  have hcur : s.lineCurpos = u.length := h.curpos
  have hins := Padded.insert (u := u) (v := v) h.line hfit hc
  change (u ++ v).length + 1 < finshCmdSize at hfit
  have hedit := h.edit hins
  unfold insertChar
  dsimp only
  rw [if_neg (show ¬ finshCmdSize ≤ s.linePosition by omega), hpos, hcur]
  cases v with
  | nil =>
    have hmove : s.line.memmove (u.length + 1) u.length ([] : List UInt8).length = s.line :=
      funext fun i => if_neg fun hcon => absurd hcon.2 (Nat.not_lt.2 hcon.1)
    rw [hmove] at hedit
    rw [if_neg (by simp), advance_eq rfl hfit c, List.append_nil]
    refine ⟨_, _, rfl, hedit, rfl, rfl, ?_⟩
    show List.Forall₂ Means (if s.echoMode = true then [.echo (.char c)] else [])
      (((if s.echoMode = true then [Echo.char c] else []) ++ []).map .echo)
    split_ifs
    · exact means_of_eq rfl
    · exact List.Forall₂.nil
  | cons d rest =>
    have hputs : puts (Function.update (s.line.memmove (u.length + 1) u.length (d :: rest).length)
        u.length c) u.length = some ((c :: d :: rest).map fun c => .echo (.char c)) := by
      refine puts_padded (u := u) (v := c :: d :: rest) ?_
      rw [List.append_assoc] at hins
      exact hins
    have hdiff : (u ++ d :: rest).length - u.length = (d :: rest).length := by
      rw [List.length_append, Nat.add_sub_cancel_left]
    rw [if_pos (by simp), hdiff, hputs, advance_eq rfl hfit c]
    have hmeans : List.Forall₂ Means
        ((if s.echoMode = true then (c :: d :: rest).map fun c => .echo (.char c) else []) ++
          List.replicate (d :: rest).length (.echo .back))
        (((if s.echoMode = true then (c :: d :: rest).map Echo.char else []) ++
          List.replicate (d :: rest).length Echo.back).map .echo) := by
      refine means_of_eq ?_
      split_ifs <;> simp
    refine ⟨_, _, ?_, hedit, rfl, rfl, hmeans⟩
    split_ifs <;> rfl

theorem follows_rubout (h : Edits s e) : Follows s e .rubout (keyBackspace s) := by
  obtain ⟨before, v, history, current, entered⟩ := e
  rcases List.eq_nil_or_concat' before with rfl | ⟨u, c, rfl⟩
  · have hcur : s.lineCurpos = 0 := h.curpos
    unfold keyBackspace
    rw [if_pos hcur]
    exact ⟨s, [], rfl, h, rfl, rfl, List.Forall₂.nil⟩
  · have hpos : s.linePosition = (u ++ [c] ++ v).length := h.position
    have hcur : s.lineCurpos = (u ++ [c]).length := h.curpos
    have hpad := Padded.erase (u := u) (v := v) h.line
    have hshort : (u ++ [c] ++ v).length < finshCmdSize := h.line.short
    have hsize : finshCmdSize < 65536 := by decide
    have hedit := h.edit hpad
    simp only [List.length_append, List.length_singleton] at hpos hcur hshort
    have hdec : dec16 s.linePosition = u.length + v.length := by
      unfold dec16
      omega
    have hback : s.lineCurpos - 1 = u.length := by omega
    rw [Follows, Editor.step_rubout_concat]
    unfold keyBackspace
    dsimp only
    rw [if_neg (by omega), hdec, hback, Nat.add_sub_cancel_left]
    rw [List.length_append] at hedit
    cases v with
    | nil =>
      have hmove : s.line.memmove u.length (u.length + 1) ([] : List UInt8).length = s.line :=
        funext fun i => if_neg fun hcon => absurd hcon.2 (Nat.not_lt.2 hcon.1)
      rw [hmove] at hedit
      rw [if_neg (by simp), if_pos (by rw [List.length_nil]; omega)]
      refine ⟨_, _, rfl, hedit, rfl, rfl, ?_⟩
      show List.Forall₂ Means _ ((echoed s.echoMode _ .rubout).map .echo)
      refine means_of_eq ?_
      simp [echoed]
    | cons d rest =>
      rw [if_pos (by rw [List.length_cons]; omega), if_pos (by omega), puts_padded hpad]
      refine ⟨_, _, rfl, hedit, rfl, rfl, ?_⟩
      show List.Forall₂ Means _ ((echoed s.echoMode _ .rubout).map .echo)
      refine means_of_eq ?_
      simp [echoed]

theorem follows_left (h : Edits s e) : Follows s e .left (keyLeft s) := by
  obtain ⟨before, v, history, current, entered⟩ := e
  rcases List.eq_nil_or_concat' before with rfl | ⟨u, c, rfl⟩
  · have hcur : s.lineCurpos = 0 := h.curpos
    unfold keyLeft
    rw [if_neg fun hne => hne hcur]
    exact ⟨s, [], rfl, h, rfl, rfl, List.Forall₂.nil⟩
  · have hpos : s.linePosition = (u ++ [c] ++ v).length := h.position
    have hcur : s.lineCurpos = (u ++ [c]).length := h.curpos
    have hline : Padded (finshCmdSize + 1) s.line (u ++ c :: v) := by
      rw [List.append_cons]
      exact h.line
    rw [List.length_append, List.length_singleton] at hcur
    rw [Follows, Editor.step_left_concat]
    unfold keyLeft
    rw [if_pos (by omega), show s.lineCurpos - 1 = u.length by omega]
    refine ⟨_, _, rfl, ⟨hline, ?_, rfl, h.count, h.le, h.current, h.current_le, h.rows⟩, rfl, rfl, ?_⟩
    · show s.linePosition = (u ++ c :: v).length
      rw [hpos, List.append_assoc]
      rfl
    · show List.Forall₂ Means _ ((echoed s.echoMode _ .left).map .echo)
      refine means_of_eq ?_
      simp [echoed]

theorem follows_right (h : Edits s e) : Follows s e .right (keyRight s) := by
  obtain ⟨u, after, history, current, entered⟩ := e
  have hcur : s.lineCurpos = u.length := h.curpos
  have hpos : s.linePosition = (u ++ after).length := h.position
  have hshort : (u ++ after).length < finshCmdSize := h.line.short
  cases after with
  | nil =>
    rw [List.append_nil] at hpos
    unfold keyRight
    rw [if_neg (by omega)]
    exact ⟨s, [], rfl, h, rfl, rfl, List.Forall₂.nil⟩
  | cons c v =>
    have hchar : s.line u.length = c := by
      have := (Mem.at_append.1 h.line.text).2
      rw [Nat.zero_add] at this
      exact this.1
    have hline : Padded (finshCmdSize + 1) s.line (u ++ [c] ++ v) := by
      rw [← List.append_cons]
      exact h.line
    have hsize : finshCmdSize < 65536 := by decide
    have hcur' : inc16 s.lineCurpos = (u ++ [c]).length := by
      rw [List.length_append] at hshort
      rw [hcur, List.length_append, List.length_singleton]
      exact Nat.mod_eq_of_lt (by omega)
    rw [List.length_append, List.length_cons] at hpos hshort
    unfold keyRight
    rw [if_pos (by omega), if_pos (by omega), hcur', hcur, hchar]
    refine ⟨_, _, rfl, ⟨hline, ?_, rfl, h.count, h.le, h.current, h.current_le, h.rows⟩, rfl, rfl, ?_⟩
    · show s.linePosition = (u ++ [c] ++ v).length
      simp only [List.length_append, List.length_singleton]
      omega
    · show List.Forall₂ Means _ ((echoed s.echoMode _ .right).map .echo)
      exact means_of_eq rfl

/-! ## The history -/

/-- A line of the history is copied and shown. -/
theorem copyHistory_eq (h : Edits s e) {i : ℕ} (hi : i < e.history.length) :
    ∃ s', copyHistory { s with currentHistory := i } = some (s', .echo .eraseLine :: .echo .prompt ::
        (e.history[i]).map fun c => .echo (.char c)) ∧
      Edits s' (e.revisit i) ∧ s'.stat = s.stat ∧ s'.echoMode = s.echoMode := by
  have hrow := h.rows i hi
  have hline := padded_copyHistory hrow h.line.last
  have hle := h.le
  have hget : e.history.getD i [] = e.history[i] := by
    rw [List.getD_eq_getElem?_getD, List.getElem?_eq_getElem hi, Option.getD_some]
  have htext : (e.revisit i).text = e.history[i] := by
    show e.history.getD i [] ++ [] = _
    rw [List.append_nil, hget]
  unfold copyHistory
  rw [if_pos (show i < finshHistoryLines by omega), showLine_padded _ hline]
  refine ⟨_, rfl, ⟨?_, ?_, ?_, h.count, h.le, rfl, Nat.le_of_lt hi, h.rows⟩, rfl, rfl⟩
  · rw [htext]
    exact hline
  · rw [htext]
  · show _ = (e.history.getD i []).length
    rw [hget]

/-- What calling up a line makes the terminal show. -/
theorem means_revisit {i : ℕ} (hi : i < e.history.length) :
    List.Forall₂ Means (.echo .eraseLine :: .echo .prompt ::
        (e.history[i]).map fun c => .echo (.char c))
      ((Echo.eraseLine :: Echo.prompt :: (e.revisit i).text.map Echo.char).map .echo) := by
  refine means_of_eq ?_
  have hget : e.history.getD i [] = e.history[i] := by
    rw [List.getD_eq_getElem?_getD, List.getElem?_eq_getElem hi, Option.getD_some]
  rw [show (e.revisit i).text = e.history.getD i [] ++ [] from rfl, List.append_nil, hget]
  simp

theorem follows_up (h : Edits s e) : Follows s e .up (keyUp s) := by
  have hcur := h.current
  have hle := h.current_le
  unfold keyUp
  by_cases h0 : 0 < e.current
  · have hi : e.current - 1 < e.history.length := by omega
    have hstep : e.step finshHistoryLines .up = e.revisit (e.current - 1) := if_pos h0
    obtain ⟨s', hs', hedits, hstat, hecho⟩ := copyHistory_eq h hi
    rw [if_pos (by omega), hcur]
    refine ⟨s', _, hs', hstep ▸ hedits, hstat, hecho, ?_⟩
    have hout : output s.echoMode e .up =
        (Echo.eraseLine :: Echo.prompt :: (e.revisit (e.current - 1)).text.map Echo.char).map
          .echo := by
      rw [← hstep]
      exact congrArg _ (if_pos h0)
    rw [hout]
    exact means_revisit hi
  · have hstep : e.step finshHistoryLines .up = e := if_neg h0
    have hout : output s.echoMode e .up = [] := congrArg (List.map Effect.echo) (if_neg h0)
    have hzero : s.currentHistory = 0 := by omega
    rw [if_neg (by omega), ← hzero]
    refine ⟨s, [], rfl, ?_, rfl, rfl, ?_⟩
    · rw [hstep]
      exact h
    · rw [hout]
      exact List.Forall₂.nil

theorem follows_down (h : Edits s e) : Follows s e .down (keyDown s) := by
  have hcur := h.current
  have hcount := h.count
  unfold keyDown
  by_cases hnil : e.history = []
  · have hlen : e.history.length = 0 := List.length_eq_zero_iff.2 hnil
    have hstep : e.step finshHistoryLines .down = e :=
      (if_neg (by omega)).trans (if_neg fun hne => hne hnil)
    have hout : output s.echoMode e .down = [] := congrArg (List.map Effect.echo) (if_pos hnil)
    rw [if_neg (by omega), if_neg fun hne => hne (hcount.trans hlen)]
    refine ⟨s, [], rfl, ?_, rfl, rfl, ?_⟩
    · rw [hstep]
      exact h
    · rw [hout]
      exact List.Forall₂.nil
  · have hpos : 0 < e.history.length := List.length_pos_iff.2 hnil
    -- the line called up, whichever it is
    have hline : ∀ i, i < e.history.length → e.step finshHistoryLines .down = e.revisit i →
        Follows s e .down (copyHistory { s with currentHistory := i }) := fun i hi hstep => by
      obtain ⟨s', hs', hedits, hstat, hecho⟩ := copyHistory_eq h hi
      refine ⟨s', _, hs', hstep ▸ hedits, hstat, hecho, ?_⟩
      have hout : output s.echoMode e .down =
          (Echo.eraseLine :: Echo.prompt :: (e.revisit i).text.map Echo.char).map .echo := by
        rw [← hstep]
        exact congrArg _ (if_neg hnil)
      rw [hout]
      exact means_revisit hi
    by_cases hnext : e.current + 1 < e.history.length
    · rw [if_pos (by omega), hcur]
      exact hline _ hnext (if_pos hnext)
    · rw [if_neg (by omega), if_pos (by omega), show s.historyCount - 1 = e.history.length - 1 by omega]
      exact hline _ (by omega) ((if_neg hnext).trans (if_pos hnil))

theorem follows_replace (hcomplete : Completes complete f) (h : Edits s e)
    (hfit : (f e.text).length < finshCmdSize) :
    Follows s e (.replace (f e.text)) (keyTab complete s) := by
  have hline := hcomplete s.line e.text h.line hfit
  have hcur := h.curpos
  have htext : (e.load (f e.text)).text = f e.text := List.append_nil _
  unfold keyTab
  rw [showLine_padded _ hline, hcur]
  refine ⟨_, _, rfl, ⟨?_, ?_, rfl, h.count, h.le, h.current, h.current_le, h.rows⟩, rfl, rfl, ?_⟩
  · exact htext.symm ▸ hline
  · exact (congrArg List.length htext).symm
  · show List.Forall₂ Means _ ((echoed s.echoMode e (.replace (f e.text))).map .echo)
    refine means_of_eq ?_
    simp [echoed]

/-- What pushing a line to the history leaves. -/
structure Pushed (s s' : FinshShell) (ws : List (List UInt8)) : Prop where
  line : s'.line = s.line
  position : s'.linePosition = s.linePosition
  stat : s'.stat = s.stat
  echoMode : s'.echoMode = s.echoMode
  count : s'.historyCount = ws.length
  current : s'.currentHistory = ws.length
  rows : ∀ i (hi : i < ws.length), Padded finshCmdSize (s'.cmdHistory i) ws[i]

/-- **The history of the shell is that of the editor.** -/
theorem shellPushHistory_eq (h : Edits s e) : ∃ s', shellPushHistory s = some s' ∧
    Pushed s s' (Editor.lastOf finshHistoryLines (Editor.remember e.history e.text)) := by
  have hpos := h.position
  have hcount := h.count
  have hle := h.le
  have hrows := h.rows
  have hrow := padded_historyRow h.line
  have hshort := h.line.short
  -- where nothing is remembered, only the position in the history changes
  have hkept : Editor.remember e.history e.text = e.history →
      shellPushHistory s = some { s with currentHistory := s.historyCount } →
      ∃ s', shellPushHistory s = some s' ∧
        Pushed s s' (Editor.lastOf finshHistoryLines (Editor.remember e.history e.text)) :=
    fun hrem hs => by
      rw [hrem, Editor.lastOf_of_le hle]
      exact ⟨_, hs, rfl, rfl, rfl, rfl, hcount, hcount, hrows⟩
  by_cases hnil : e.text = []
  · have h0 : s.linePosition = 0 := by
      rw [hpos, hnil]
      rfl
    exact hkept (if_pos (Or.inl hnil)) (if_neg fun hne => hne h0)
  · have h0 : s.linePosition ≠ 0 := by
      rw [hpos]
      exact fun hz => hnil (List.length_eq_zero_iff.1 hz)
    -- the last line of the history against the one there is
    have hsame : ∀ i (hi : i + 1 = e.history.length),
        sameLine (s.cmdHistory i) s.line = true ↔ e.history.getLast? = some e.text := fun i hi => by
      have hline : Padded finshCmdSize s.line e.text :=
        ⟨h.line.text, fun j hj hlt => h.line.zeros j hj (by omega), h.line.noNul, hshort⟩
      rw [sameLine_iff (hrows i (by omega)) hline, List.getLast?_eq_getElem?,
        show e.history.length - 1 = i by omega, List.getElem?_eq_getElem (by omega),
        Option.some.injEq]
    by_cases hlast : e.history.getLast? = some e.text
    · have hrem : Editor.remember e.history e.text = e.history := if_pos (Or.inr hlast)
      obtain ⟨n, hn⟩ : ∃ n, n + 1 = e.history.length := by
        refine ⟨e.history.length - 1, ?_⟩
        have : e.history ≠ [] := fun hc => by
          rw [hc] at hlast
          cases hlast
        have := List.length_pos_iff.2 this
        omega
      refine hkept hrem ((if_pos h0).trans ?_)
      rw [hcount]
      by_cases hfull : finshHistoryLines ≤ e.history.length
      · rw [if_pos hfull, if_neg]
        rw [(hsame (finshHistoryLines - 1) (by simp only [finshHistoryLines] at *; omega)).2 hlast]
        exact Bool.noConfusion
      · rw [if_neg hfull, if_neg]
        rw [(hsame (e.history.length - 1) (by omega)).2 hlast]
        rintro (hz | hz)
        · omega
        · exact Bool.noConfusion hz
    · have hrem : Editor.remember e.history e.text = e.history ++ [e.text] :=
        if_neg fun hc => hc.elim hnil hlast
      have hdiffer : ∀ i, i + 1 = e.history.length → sameLine (s.cmdHistory i) s.line = false :=
        fun i hi => Bool.eq_false_iff.2 fun hc => hlast ((hsame i hi).1 hc)
      rw [hrem]
      unfold shellPushHistory
      rw [if_pos h0, hcount]
      by_cases hfull : finshHistoryLines ≤ e.history.length
      · -- the oldest line makes room
        have hlen : e.history.length = finshHistoryLines := by omega
        have hlast' : Editor.lastOf finshHistoryLines (e.history ++ [e.text]) =
            (e.history ++ [e.text]).drop 1 := by
          unfold Editor.lastOf
          rw [List.length_append, hlen, List.length_singleton, Nat.add_sub_cancel_left]
        have hlen' : ((e.history ++ [e.text]).drop 1).length = finshHistoryLines := by
          rw [List.length_drop, List.length_append, List.length_singleton, hlen,
            Nat.add_sub_cancel]
        rw [if_pos hfull, if_pos (hdiffer _ (by rw [hlen]; rfl)), if_pos (by omega), hlast']
        refine ⟨_, rfl, rfl, rfl, rfl, rfl, hlen'.symm, hlen'.symm, fun i hi => ?_⟩
        rw [hlen'] at hi
        rw [List.getElem_drop]
        dsimp only
        by_cases hi' : i < finshHistoryLines - 1
        · rw [if_pos hi', List.getElem_append_left (by omega)]
          simp only [Nat.add_comm 1]
          exact hrows (i + 1) (by omega)
        · rw [if_neg hi', List.getElem_append_right (by omega), hpos]
          simpa using hrow
      · have hlast' : Editor.lastOf finshHistoryLines (e.history ++ [e.text]) =
            e.history ++ [e.text] :=
          Editor.lastOf_of_le (by rw [List.length_append, List.length_singleton]; omega)
        have hlen' : (e.history ++ [e.text]).length = inc16 e.history.length := by
          rw [List.length_append, List.length_singleton]
          have hsmall : finshHistoryLines < 65535 := by decide
          exact (Nat.mod_eq_of_lt (by omega)).symm
        have hor : e.history.length = 0 ∨
            sameLine (s.cmdHistory (e.history.length - 1)) s.line = false := by
          by_cases hz : e.history.length = 0
          · exact Or.inl hz
          · exact Or.inr (hdiffer _ (by omega))
        rw [if_neg hfull, if_pos hor, if_pos (by omega), hlast']
        refine ⟨_, rfl, rfl, rfl, rfl, rfl, hlen'.symm, hlen'.symm, fun i hi => ?_⟩
        dsimp only
        rw [List.length_append, List.length_singleton] at hi
        by_cases hi' : i < e.history.length
        · rw [Function.update_of_ne (by omega), List.getElem_append_left hi']
          exact hrows i hi'
        · obtain rfl : i = e.history.length := by omega
          rw [Function.update_self, List.getElem_append_right (le_refl _), hpos]
          simpa using hrow

theorem follows_enter (h : Edits s e) : Follows s e .enter (keyEnter s) := by
  obtain ⟨s', hs', hpush⟩ := shellPushHistory_eq h
  unfold keyEnter
  rw [hs']
  refine ⟨_, _, rfl, ⟨padded_zeros _, rfl, rfl, hpush.count, Editor.length_lastOf_le _,
    hpush.current, le_refl _, hpush.rows⟩, hpush.stat, hpush.echoMode, ?_⟩
  have hexec : Means (.exec (s'.line, s'.linePosition)) (.exec e.text) := by
    rw [hpush.line, hpush.position, h.position]
    exact Means.exec h.line
  rw [hpush.echoMode]
  show List.Forall₂ Means _ ((if s.echoMode = true then [.echo .newline] else []) ++
    [.exec e.text, .echo .prompt])
  refine List.rel_append ?_ (List.Forall₂.cons hexec (List.Forall₂.cons (Means.echo _)
    List.Forall₂.nil))
  split_ifs
  · exact List.Forall₂.cons (Means.echo _) List.Forall₂.nil
  · exact List.Forall₂.nil

/-! ## Runs -/

/-- A shell in the terms of the editor: what it waits for, and the editor. -/
structure Typing where
  stat : InputStat
  editor : Editor UInt8

namespace Typing

/-- Nothing typed yet. -/
def start : Typing := ⟨.waitNormal, Editor.start⟩

/-- The key a character completes. -/
def key (f : List UInt8 → List UInt8) (t : Typing) (ch : UInt8) : Option (Key UInt8) :=
  (press f t.stat t.editor.text ch).2

/-- A character typed. -/
def step (f : List UInt8 → List UInt8) (t : Typing) (ch : UInt8) : Typing where
  stat := (press f t.stat t.editor.text ch).1
  editor :=
    match t.key f ch with
    | none => t.editor
    | some k => t.editor.step finshHistoryLines k

/-- What it makes the shell do. -/
def does (f : List UInt8 → List UInt8) (echo : Bool) (t : Typing) (ch : UInt8) :
    List (Effect (List UInt8)) :=
  match t.key f ch with
  | none => []
  | some k => output echo t.editor k

/-- What some characters make it do, one after the other. -/
def doesAll (f : List UInt8 → List UInt8) (echo : Bool) : Typing → List UInt8 →
    List (Effect (List UInt8))
  | _, [] => []
  | t, ch :: chs => t.does f echo ch ++ doesAll f echo (t.step f ch) chs

/-- The line does not fill its array. -/
def HasRoom (f : List UInt8 → List UInt8) (t : Typing) (ch : UInt8) : Prop :=
  match t.key f ch with
  | none => True
  | some k => Fits t.editor k

instance (f : List UInt8 → List UInt8) (t : Typing) (ch : UInt8) : Decidable (t.HasRoom f ch) := by
  unfold HasRoom
  cases t.key f ch <;> infer_instance

end Typing

theorem edits_start : Edits FinshShell.start Editor.start where
  line := padded_zeros _
  position := rfl
  curpos := rfl
  count := rfl
  le := Nat.zero_le _
  current := rfl
  current_le := le_refl _
  rows i hi := absurd hi (Nat.not_lt_zero i)

/-- **Every key.** -/
theorem follows (hcomplete : Completes complete f) (h : Edits s e) (htyped : Typed f e.text k)
    (hfit : Fits e k) : Follows s e k (perform complete s (some k)) := by
  cases k with
  | char c => exact follows_char h htyped hfit
  | rubout => exact follows_rubout h
  | left => exact follows_left h
  | right => exact follows_right h
  | up => exact follows_up h
  | down => exact follows_down h
  | replace w =>
    obtain rfl : w = f e.text := htyped
    exact follows_replace hcomplete h hfit
  | enter => exact follows_enter h

/-- **Every character.** -/
theorem finshThreadEntry_follows {t : Typing} (hcomplete : Completes complete f)
    (h : Edits s t.editor) (hstat : s.stat = t.stat) (hroom : t.HasRoom f ch) :
    ∃ s' effects, finshThreadEntry complete s ch = some (s', effects) ∧
      Edits s' (t.step f ch).editor ∧ s'.stat = (t.step f ch).stat ∧ s'.echoMode = s.echoMode ∧
      List.Forall₂ Means effects (t.does f s.echoMode ch) := by
  have hedits : Edits { s with stat := (press f t.stat t.editor.text ch).1 } t.editor :=
    ⟨h.line, h.position, h.curpos, h.count, h.le, h.current, h.current_le, h.rows⟩
  rw [finshThreadEntry_eq f t.editor.text, hstat]
  unfold Typing.HasRoom at hroom
  unfold Typing.step Typing.does
  cases hkey : t.key f ch with
  | none =>
    rw [show (press f t.stat t.editor.text ch).2 = none from hkey]
    exact ⟨_, [], rfl, hedits, rfl, rfl, List.Forall₂.nil⟩
  | some k =>
    rw [hkey] at hroom
    rw [show (press f t.stat t.editor.text ch).2 = some k from hkey]
    obtain ⟨s', effects, hs', he, hst, hecho, hmeans⟩ :=
      follows hcomplete hedits (typed_press hkey) hroom
    exact ⟨s', effects, hs', he, hst, hecho, hmeans⟩

/-- Every run, from any state on. -/
theorem run_follows {t : Typing} {chs : List UInt8} (hcomplete : Completes complete f)
    (h : Edits s t.editor) (hstat : s.stat = t.stat)
    (hroom : Run.AlongRun (Typing.step f) (fun t ch _ => t.HasRoom f ch) t chs) :
    ∃ s' effects, FinshShell.run complete s chs = some (s', effects) ∧
      Edits s' (Run.stateAfter (Typing.step f) t chs).editor ∧ s'.echoMode = s.echoMode ∧
      List.Forall₂ Means effects (t.doesAll f s.echoMode chs) := by
  induction chs generalizing s t with
  | nil => exact ⟨s, [], rfl, h, rfl, List.Forall₂.nil⟩
  | cons ch chs ih =>
    obtain ⟨s₁, effects₁, hs₁, he₁, hst₁, hecho₁, hmeans₁⟩ :=
      finshThreadEntry_follows hcomplete h hstat hroom.1
    obtain ⟨s₂, effects₂, hs₂, he₂, hecho₂, hmeans₂⟩ := ih he₁ hst₁ hroom.2
    refine ⟨s₂, effects₁ ++ effects₂, ?_, he₂, hecho₂.trans hecho₁, ?_⟩
    · rw [FinshShell.run, hs₁, Option.bind_some, hs₂]
      rfl
    · rw [Typing.doesAll]
      rw [hecho₁] at hmeans₂
      exact List.rel_append hmeans₁ hmeans₂

/-- The line an effect executes. -/
def Effect.line? {L : Type} : Effect L → Option L
  | .echo _ => none
  | .exec line => some line

theorem filterMap_echo (es : List Echo) :
    (es.map (Effect.echo (L := List UInt8))).filterMap Effect.line? = [] := by
  induction es with
  | nil => rfl
  | cons x es ih => exact ih

theorem output_of_ne (hk : k ≠ .enter) (echo : Bool) :
    output echo e k = (echoed echo e k).map .echo := by
  cases k <;> first | rfl | exact absurd rfl hk

/-- What a key makes the shell execute is what it enters. -/
theorem entered_step (echo : Bool) (e : Editor UInt8) (k : Key UInt8) :
    (e.step finshHistoryLines k).entered =
      e.entered ++ (output echo e k).filterMap Effect.line? := by
  by_cases hk : k = .enter
  · subst hk
    show e.entered ++ [e.text] = _
    unfold output
    split_ifs <;> rfl
  · rw [output_of_ne hk, filterMap_echo, (Editor.step_history _ e hk).2, List.append_nil]

/-- What the shell executes is what is entered. -/
theorem entered_doesAll (echo : Bool) (t : Typing) (chs : List UInt8) :
    (Run.stateAfter (Typing.step f) t chs).editor.entered =
      t.editor.entered ++ (t.doesAll f echo chs).filterMap Effect.line? := by
  induction chs generalizing t with
  | nil => exact (List.append_nil _).symm
  | cons ch chs ih =>
    have hstep : (t.step f ch).editor.entered =
        t.editor.entered ++ (t.does f echo ch).filterMap Effect.line? := by
      unfold Typing.step Typing.does
      cases t.key f ch with
      | none => exact (List.append_nil _).symm
      | some k => exact entered_step echo t.editor k
    rw [Run.stateAfter_cons, ih, hstep, Typing.doesAll, List.filterMap_append, List.append_assoc]

/-- **The shell is a line editor.** In every run of characters in which no
line fills its array, no access leaves an array, the shell prints what the
editor calls for and executes the lines entered in it, each a string of its
length, and its history holds the last five of them, without empty lines and
without repetitions. -/
theorem shell_follows (hcomplete : Completes complete f) (chs : List UInt8)
    (hroom : Run.AlongRun (Typing.step f) (fun t ch _ => t.HasRoom f ch) Typing.start chs) :
    let e := (Run.stateAfter (Typing.step f) Typing.start chs).editor
    ∃ s effects, FinshShell.run complete FinshShell.start chs = some (s, effects) ∧ Edits s e ∧
      List.Forall₂ Means effects (Typing.start.doesAll f true chs) ∧
      (Typing.start.doesAll f true chs).filterMap Effect.line? = e.entered ∧
      e.history = Editor.lastOf finshHistoryLines (e.entered.foldl Editor.remember []) := by
  obtain ⟨s, effects, hs, hedits, -, hmeans⟩ := run_follows hcomplete edits_start rfl hroom
  refine ⟨s, effects, hs, hedits, hmeans, (entered_doesAll true Typing.start chs).symm, ?_⟩
  -- the editor has taken the keys, and nothing else
  have hkeys : ∃ ks, (Run.stateAfter (Typing.step f) Typing.start chs).editor =
      Run.stateAfter (Editor.step finshHistoryLines) Editor.start ks := by
    refine Run.invariant (I := fun t : Typing => ∃ ks, t.editor =
      Run.stateAfter (Editor.step finshHistoryLines) Editor.start ks) ⟨[], rfl⟩ fun t ch _ ih => ?_
    obtain ⟨ks, hks⟩ := ih
    unfold Typing.step
    cases t.key f ch with
    | none => exact ⟨ks, hks⟩
    | some k =>
      refine ⟨ks ++ [k], ?_⟩
      rw [Run.stateAfter_append, ← hks]
      rfl
  obtain ⟨ks, hks⟩ := hkeys
  rw [hks]
  exact Editor.history_eq (by decide) ks

/-- `lx`, the left key, the backspace key, `s` and the end of the line, which
leaves `sx`; and the up key. -/
theorem shell_follows_sx :
    let chs : List UInt8 := [0x6C, 0x78, 0x1B, 0x5B, 0x44, 0x08, 0x73, 0x0D, 0x1B, 0x5B, 0x41]
    ∃ s effects, FinshShell.run id FinshShell.start chs = some (s, effects) ∧
      List.Forall₂ Means effects (Typing.start.doesAll id true chs) ∧
      (Typing.start.doesAll id true chs).filterMap Effect.line? = [[0x73, 0x78]] := by
  intro chs
  obtain ⟨s, effects, hs, -, hmeans, hlines, -⟩ :=
    shell_follows (f := id) (fun _ _ h _ => h) chs (by decide)
  exact ⟨s, effects, hs, hmeans, hlines.trans (by decide)⟩

end Shell

end RtSpark
