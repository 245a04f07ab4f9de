import RtSpark.Shell.Editor
import RtSpark.Common.TerminalRow
/-!
# What the terminal shows

The shell edits a line in its array and prints what makes the same of it on
the terminal. `Displays` says that the row of the cursor shows the prompt and
the line, the cursor in its place, and nothing behind it; every key keeps it,
so the line seen is the line that is executed.
-/

namespace RtSpark

namespace Shell

open Editor (Key)

variable {complete : Mem → Mem} {f : List UInt8 → List UInt8} {e : Editor UInt8} {k : Key UInt8}
  {row : TerminalRow UInt8} {prompt : List UInt8} {rest : List UInt8 → List UInt8}

/-- What an effect does to the row of the cursor. The terminal has a cell for
every character; candidates stand on rows of their own, and a command leaves
`rest` of the line it is given. -/
def display {L : Type} (prompt : List UInt8) (rest : L → List UInt8) (row : TerminalRow UInt8) :
    Effect L → TerminalRow UInt8
  | .echo (.char c) => row.put c
  | .echo .back => row.back
  | .echo .newline => .empty
  | .echo .eraseLine => .empty
  | .echo .prompt => row.write prompt
  | .echo .candidates => .empty
  | .exec line => ⟨rest line, []⟩

/-- What is done, one behind the other. -/
def displayAll {L : Type} (prompt : List UInt8) (rest : L → List UInt8) (row : TerminalRow UInt8)
    (effects : List (Effect L)) : TerminalRow UInt8 := effects.foldl (display prompt rest) row

/-- **The row shows the editor's line**, behind the prompt, with the cursor
in its place and blanks behind it. -/
def Displays (prompt : List UInt8) (row : TerminalRow UInt8) (e : Editor UInt8) : Prop :=
  ∃ before n, row.left = before ++ prompt ++ e.before ∧
    row.right = e.after ++ List.replicate n 0x20

theorem displayAll_append {L : Type} (prompt : List UInt8) (rest : L → List UInt8)
    (row : TerminalRow UInt8) (es es' : List (Effect L)) :
    displayAll prompt rest row (es ++ es') =
      displayAll prompt rest (displayAll prompt rest row es) es' :=
  List.foldl_append

theorem displayAll_chars (prompt : List UInt8) (rest : List UInt8 → List UInt8)
    (row : TerminalRow UInt8) (w : List UInt8) :
    displayAll prompt rest row ((w.map Echo.char).map .echo) = row.write w := by
  induction w generalizing row with
  | nil => rfl
  | cons c w ih => exact ih (row.put c)

theorem displayAll_backs (prompt : List UInt8) (rest : List UInt8 → List UInt8)
    (row : TerminalRow UInt8) (n : ℕ) :
    displayAll prompt rest row ((List.replicate n Echo.back).map .echo) = row.backs n := by
  induction n generalizing row with
  | zero => rfl
  | succ n ih => exact ih row.back

/-- A fresh row with the prompt and a line. -/
theorem displays_prompt (prompt before w : List UInt8) (h : List (List UInt8)) (i : ℕ)
    (es : List (List UInt8)) :
    Displays prompt ⟨before ++ prompt ++ w, []⟩ ⟨w, [], h, i, es⟩ :=
  ⟨before, 0, rfl, rfl⟩

theorem displays_char (h : Displays prompt row e) (c : UInt8) :
    Displays prompt (displayAll prompt rest row (output true e (.char c)))
      (e.step finshHistoryLines (.char c)) := by
  obtain ⟨before, n, hleft, hright⟩ := h
  obtain ⟨l, r⟩ := row
  obtain ⟨u, v, history, current, entered⟩ := e
  dsimp only at hleft hright
  subst hleft hright
  refine ⟨before, n - 1, ?_⟩
  show _ ∧ _
  rw [show output true ⟨u, v, history, current, entered⟩ (.char c) =
    ((c :: v).map Echo.char).map .echo ++ (List.replicate v.length Echo.back).map .echo from
      List.map_append]
  rw [displayAll_append, displayAll_chars, displayAll_backs, TerminalRow.write_eq,
    List.append_cons, TerminalRow.backs_append]
  refine ⟨List.append_assoc .., ?_⟩
  show v ++ (v ++ List.replicate n 0x20).drop (v.length + 1) = v ++ List.replicate (n - 1) 0x20
  rw [← List.drop_drop, List.drop_left, List.drop_replicate]

theorem displays_rubout (h : Displays prompt row e) :
    Displays prompt (displayAll prompt rest row (output true e .rubout))
      (e.step finshHistoryLines .rubout) := by
  obtain ⟨before, n, hleft, hright⟩ := h
  obtain ⟨l, r⟩ := row
  obtain ⟨w, v, history, current, entered⟩ := e
  dsimp only at hleft hright
  subst hleft hright
  rcases List.eq_nil_or_concat' w with rfl | ⟨u, c, rfl⟩
  · exact ⟨before, n, rfl, rfl⟩
  · rw [Editor.step_rubout_concat]
    have hne : u ++ [c] ≠ [] := List.append_ne_nil_of_right_ne_nil _ (List.cons_ne_nil _ _)
    cases v with
    | nil =>
      have hout : output true ⟨u ++ [c], [], history, current, entered⟩ .rubout =
          [.echo .back, .echo (.char 0x20), .echo .back] := by
        simp [output, echoed]
      rw [hout]
      refine ⟨before, n + 1, ?_⟩
      show ((TerminalRow.back ⟨before ++ prompt ++ (u ++ [c]), _⟩).put 0x20).back.left = _ ∧
        ((TerminalRow.back ⟨before ++ prompt ++ (u ++ [c]), _⟩).put 0x20).back.right = _
      rw [← List.append_assoc, TerminalRow.back_concat, TerminalRow.put, TerminalRow.back_concat]
      exact ⟨rfl, rfl⟩
    | cons d v =>
      have hout : output true ⟨u ++ [c], d :: v, history, current, entered⟩ .rubout =
          [.echo .back] ++ ((d :: v ++ [0x20, 0x20]).map Echo.char).map .echo ++
            (List.replicate (d :: v ++ [0x20, 0x20]).length Echo.back).map .echo := by
        simp [output, echoed, List.replicate_succ]
      rw [hout, displayAll_append, displayAll_append, displayAll_chars, displayAll_backs]
      refine ⟨before, 2 + (n - 1), ?_⟩
      have hback : displayAll prompt rest
          ⟨before ++ prompt ++ (u ++ [c]), d :: v ++ List.replicate n 0x20⟩ [.echo .back] =
            ⟨before ++ prompt ++ u, c :: (d :: v ++ List.replicate n 0x20)⟩ := by
        show TerminalRow.back _ = _
        rw [← List.append_assoc, TerminalRow.back_concat]
      rw [hback, TerminalRow.write_eq, TerminalRow.backs_append]
      refine ⟨rfl, ?_⟩
      show d :: v ++ [0x20, 0x20] ++ _ = d :: v ++ List.replicate (2 + (n - 1)) 0x20
      have hdrop : (c :: (d :: v ++ List.replicate n 0x20)).drop (d :: v ++ [0x20, 0x20]).length =
          List.replicate (n - 1) 0x20 := by
        rw [List.length_append, show (d :: v).length + [(0x20 : UInt8), 0x20].length =
          ((d :: v).length + 1) + 1 from rfl, List.drop_succ_cons, ← List.drop_drop, List.drop_left,
          List.drop_replicate]
      rw [hdrop, List.append_assoc, List.replicate_add]
      rfl

theorem displays_left (h : Displays prompt row e) :
    Displays prompt (displayAll prompt rest row (output true e .left))
      (e.step finshHistoryLines .left) := by
  obtain ⟨before, n, hleft, hright⟩ := h
  obtain ⟨l, r⟩ := row
  obtain ⟨w, v, history, current, entered⟩ := e
  dsimp only at hleft hright
  subst hleft hright
  rcases List.eq_nil_or_concat' w with rfl | ⟨u, c, rfl⟩
  · exact ⟨before, n, rfl, rfl⟩
  · have hout : output true ⟨u ++ [c], v, history, current, entered⟩ .left = [.echo .back] := by
      simp [output, echoed]
    rw [Editor.step_left_concat, hout]
    refine ⟨before, n, ?_⟩
    show (TerminalRow.back ⟨before ++ prompt ++ (u ++ [c]), _⟩).left = _ ∧
      (TerminalRow.back ⟨before ++ prompt ++ (u ++ [c]), _⟩).right = _
    rw [← List.append_assoc, TerminalRow.back_concat]
    exact ⟨rfl, rfl⟩

theorem displays_right (h : Displays prompt row e) :
    Displays prompt (displayAll prompt rest row (output true e .right))
      (e.step finshHistoryLines .right) := by
  obtain ⟨before, n, hleft, hright⟩ := h
  obtain ⟨l, r⟩ := row
  obtain ⟨u, v, history, current, entered⟩ := e
  dsimp only at hleft hright
  subst hleft hright
  cases v with
  | nil => exact ⟨before, n, rfl, rfl⟩
  | cons c v => exact ⟨before, n, List.append_assoc .., rfl⟩

/-- A line that is shown on a row of its own. -/
theorem displays_fresh (row : TerminalRow UInt8) (es : List Echo) (w : List UInt8)
    (hes : displayAll prompt rest row (es.map .echo) = .empty) (h : List (List UInt8)) (i : ℕ)
    (entered : List (List UInt8)) :
    Displays prompt
      (displayAll prompt rest row ((es ++ Echo.prompt :: w.map Echo.char).map .echo))
      ⟨w, [], h, i, entered⟩ := by
  rw [List.map_append, displayAll_append, hes]
  show Displays prompt (displayAll prompt rest (TerminalRow.empty.write prompt) _) _
  rw [displayAll_chars, TerminalRow.empty, TerminalRow.write_eq, TerminalRow.write_eq]
  simp only [List.drop_nil]
  exact displays_prompt prompt [] w h i entered

theorem displays_up (h : Displays prompt row e) :
    Displays prompt (displayAll prompt rest row (output true e .up))
      (e.step finshHistoryLines .up) := by
  by_cases h0 : 0 < e.current
  · have hstep : e.step finshHistoryLines .up = e.revisit (e.current - 1) := if_pos h0
    have hout : output true e .up =
        ([Echo.eraseLine] ++ Echo.prompt :: (e.revisit (e.current - 1)).text.map Echo.char).map
          .echo := by
      rw [← hstep]
      exact congrArg _ (if_pos h0)
    rw [hstep, hout, show (e.revisit (e.current - 1)).text = e.history.getD (e.current - 1) [] from
      List.append_nil _]
    exact displays_fresh row [.eraseLine] _ rfl _ _ _
  · rw [show e.step finshHistoryLines .up = e from if_neg h0,
      show output true e .up = [] from congrArg (List.map Effect.echo) (if_neg h0)]
    exact h

theorem displays_down (h : Displays prompt row e) :
    Displays prompt (displayAll prompt rest row (output true e .down))
      (e.step finshHistoryLines .down) := by
  by_cases hnil : e.history = []
  · have hlen : e.history.length = 0 := List.length_eq_zero_iff.2 hnil
    rw [show e.step finshHistoryLines .down = e from
        (if_neg (by omega)).trans (if_neg fun hne => hne hnil),
      show output true e .down = [] from congrArg (List.map Effect.echo) (if_pos hnil)]
    exact h
  · obtain ⟨i, hstep⟩ : ∃ i, e.step finshHistoryLines .down = e.revisit i := by
      by_cases hnext : e.current + 1 < e.history.length
      · exact ⟨_, if_pos hnext⟩
      · exact ⟨_, (if_neg hnext).trans (if_pos hnil)⟩
    have hout : output true e .down =
        ([Echo.eraseLine] ++ Echo.prompt :: (e.revisit i).text.map Echo.char).map .echo := by
      rw [← hstep]
      exact congrArg _ (if_neg hnil)
    rw [hstep, hout, show (e.revisit i).text = e.history.getD i [] from List.append_nil _]
    exact displays_fresh row [.eraseLine] _ rfl _ _ _

theorem displays_replace (row : TerminalRow UInt8) (e : Editor UInt8) (w : List UInt8) :
    Displays prompt (displayAll prompt rest row (output true e (.replace w)))
      (e.step finshHistoryLines (.replace w)) := by
  have hout : output true e (.replace w) =
      ((List.replicate e.before.length Echo.back ++ [Echo.newline, Echo.candidates]) ++
        Echo.prompt :: w.map Echo.char).map .echo := by
    simp [output, echoed]
  rw [hout]
  refine displays_fresh row _ w ?_ _ _ _
  rw [List.map_append, displayAll_append]
  rfl

theorem displays_enter (row : TerminalRow UInt8) (e : Editor UInt8) :
    Displays prompt (displayAll prompt rest row (output true e .enter))
      (e.step finshHistoryLines .enter) := by
  show Displays prompt ((TerminalRow.mk (rest e.text) []).write prompt) _
  rw [TerminalRow.write_eq]
  exact ⟨rest e.text, 0, (List.append_nil _).symm, List.drop_nil⟩

/-- **Every key keeps the row right.** -/
theorem Displays.step (h : Displays prompt row e) (k : Key UInt8) :
    Displays prompt (displayAll prompt rest row (output true e k)) (e.step finshHistoryLines k) := by
  cases k with
  | char c => exact displays_char h c
  | rubout => exact displays_rubout h
  | left => exact displays_left h
  | right => exact displays_right h
  | up => exact displays_up h
  | down => exact displays_down h
  | replace w => exact displays_replace row e w
  | enter => exact displays_enter row e

theorem displays_doesAll {t : Typing} (h : Displays prompt row t.editor) (chs : List UInt8) :
    Displays prompt (displayAll prompt rest row (t.doesAll f true chs))
      (Run.stateAfter (Typing.step f) t chs).editor := by
  induction chs generalizing row t with
  | nil => exact h
  | cons ch chs ih =>
    rw [Typing.doesAll, displayAll_append, Run.stateAfter_cons]
    refine ih ?_
    unfold Typing.does Typing.step
    cases t.key f ch with
    | none => exact h
    | some k => exact h.step k

/-- A line as the shell gives it to `msh_exec`: so many bytes from a pointer. -/
def lineOf (line : Mem × ℕ) : List UInt8 := (List.range line.2).map line.1

theorem Padded.lineOf {size : ℕ} {m : Mem} {w : List UInt8} (h : Padded size m w) :
    Shell.lineOf (m, w.length) = w := by
  refine List.ext_getElem (by simp [Shell.lineOf]) fun i hi hi' => ?_
  simpa [Shell.lineOf] using h.get hi'

/-- What the shell does and what the editor calls for look the same. -/
theorem displayAll_means {es : List (Effect (Mem × ℕ))} {es' : List (Effect (List UInt8))}
    (h : List.Forall₂ Means es es') (row : TerminalRow UInt8) :
    displayAll prompt (fun line => rest (lineOf line)) row es = displayAll prompt rest row es' := by
  induction h generalizing row with
  | nil => rfl
  | cons hx _ ih =>
    cases hx with
    | echo x =>
      cases x <;> exact ih _
    | exec hpad =>
      show displayAll prompt _ ⟨rest (lineOf _), []⟩ _ = displayAll prompt rest ⟨rest _, []⟩ _
      rw [hpad.lineOf]
      exact ih _

/-- **What is seen is what is executed.** In every run of characters in which
no line fills its array, the row of the cursor shows the prompt and the line
the shell holds, with the cursor where the next character goes and nothing
but blanks behind the line. -/
theorem terminal_shows (hcomplete : Completes complete f) (prompt : List UInt8)
    (rest : List UInt8 → List UInt8) (chs : List UInt8)
    (hroom : Run.AlongRun (Typing.step f) (fun t ch _ => t.HasRoom f ch) Typing.start chs) :
    ∃ s effects before n, FinshShell.run complete FinshShell.start chs = some (s, effects) ∧
      displayAll prompt (fun line => rest (lineOf line)) ⟨prompt, []⟩ effects =
        ⟨before ++ prompt ++ (lineOf (s.line, s.linePosition)).take s.lineCurpos,
          (lineOf (s.line, s.linePosition)).drop s.lineCurpos ++ List.replicate n 0x20⟩ := by
  obtain ⟨s, effects, hs, hedits, -, hmeans⟩ := run_follows hcomplete edits_start rfl hroom
  change List.Forall₂ Means effects (Typing.start.doesAll f true chs) at hmeans
  have hstart : Displays prompt ⟨prompt, []⟩ Typing.start.editor :=
    ⟨[], 0, (List.append_nil _).symm, rfl⟩
  have hshows : Displays prompt
      (displayAll prompt rest ⟨prompt, []⟩ (Typing.start.doesAll f true chs))
      (Run.stateAfter (Typing.step f) Typing.start chs).editor := displays_doesAll hstart chs
  obtain ⟨before, n, hleft, hright⟩ := hshows
  have hline : lineOf (s.line, s.linePosition) =
      (Run.stateAfter (Typing.step f) Typing.start chs).editor.text := by
    rw [hedits.position]
    exact hedits.line.lineOf
  refine ⟨s, effects, before, n, hs, ?_⟩
  rw [displayAll_means hmeans, hline, hedits.curpos, Editor.text, List.take_left, List.drop_left,
    ← hleft, ← hright]

/-- `lx`, the left key, the backspace key and `s`. -/
theorem terminal_shows_sx :
    ∃ s effects before n, FinshShell.run id FinshShell.start
        [0x6C, 0x78, 0x1B, 0x5B, 0x44, 0x08, 0x73] = some (s, effects) ∧
      displayAll [0x3E] (fun _ => []) ⟨[0x3E], []⟩ effects =
        ⟨before ++ [0x3E] ++ (lineOf (s.line, s.linePosition)).take s.lineCurpos,
          (lineOf (s.line, s.linePosition)).drop s.lineCurpos ++ List.replicate n 0x20⟩ :=
  terminal_shows (f := id) (fun _ _ h _ => h) [0x3E] (fun _ => [])
    [0x6C, 0x78, 0x1B, 0x5B, 0x44, 0x08, 0x73] (by decide)

end Shell

end RtSpark
