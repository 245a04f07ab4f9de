import RtSpark.Shell.Editor
import Mathlib.Data.List.Induction
/-!
# The arrays of the shell

Whatever is typed, even over the end of the line, the cursor stays within the
line, the line within its array and the history within its rows, and a full
line is discarded. One key can break this: a full line is discarded by its
positions only, and a completion counts what stands in the array. The last
section follows the shell from there to an access far behind its array.
-/

namespace RtSpark

namespace Shell

open FinshShell

/-- **What keeps the shell in its arrays.** -/
structure InBounds (s : FinshShell) : Prop where
  curpos : s.lineCurpos ≤ s.linePosition
  position : s.linePosition < finshCmdSize
  last : s.line finshCmdSize = 0
  count : s.historyCount ≤ finshHistoryLines
  current : s.currentHistory ≤ s.historyCount
  rows : ∀ i, i < s.historyCount → (s.cmdHistory i).strnlen finshCmdSize < finshCmdSize

/-- A key that is done, in bounds. -/
def Stays (r : Option (Did FinshShell)) : Prop :=
  ∃ s effects, r = some (s, effects) ∧ InBounds s

variable {complete : Mem → Mem} {s : FinshShell} {ch : UInt8} {line : Mem} {i n : ℕ}

/-- A NUL ends a string at the latest. -/
theorem strnlen_le_of_nul (h : line i = 0) : line.strnlen n ≤ i := by
  by_contra hcon
  exact Mem.ne_zero_of_lt_strnlen (Nat.lt_of_not_le hcon) h

theorem exists_puts (h : line finshCmdSize = 0) (hi : i ≤ finshCmdSize) :
    ∃ text, puts line i = some text := by
  have hlen : Mem.strnlen (fun j => line (i + j)) (finshCmdSize + 1 - i) ≤ finshCmdSize - i :=
    strnlen_le_of_nul (by rw [Nat.add_sub_cancel' hi]; exact h)
  exact ⟨_, if_pos (by omega)⟩

theorem InBounds.edit {position curpos : ℕ} (h : InBounds s) (hcur : curpos ≤ position)
    (hpos : position < finshCmdSize) (hline : line finshCmdSize = 0) :
    InBounds { s with line := line, linePosition := position, lineCurpos := curpos } :=
  ⟨hcur, hpos, hline, h.count, h.current, h.rows⟩

theorem InBounds.setLine (h : InBounds s) (hline : line finshCmdSize = 0) :
    InBounds { s with line := line } :=
  h.edit h.curpos h.position hline

theorem finshCmdSize_pos : 0 < finshCmdSize := by decide

/-- A line that is shown, and is no longer than a line may be. -/
theorem stays_showLine (effects : List (Effect (Mem × ℕ))) (h : InBounds s)
    (hline : line finshCmdSize = 0) (hlen : line.strnlen (finshCmdSize + 1) < finshCmdSize) :
    Stays (showLine { s with line := line } effects) := by
  obtain ⟨text, htext⟩ := exists_puts hline (Nat.zero_le _)
  unfold showLine
  rw [htext]
  exact ⟨_, _, rfl, h.edit (le_refl _) hlen hline⟩

theorem stays_copyHistory (h : InBounds s) (hi : i < s.historyCount) :
    Stays (copyHistory { s with currentHistory := i }) := by
  have hrow := h.rows i hi
  have hcount := h.count
  have hnul := Mem.zero_of_strnlen_lt hrow
  unfold copyHistory
  rw [if_pos (show i < finshHistoryLines by omega)]
  have hlen : Mem.strnlen (fun j => if j < finshCmdSize then s.cmdHistory i j else s.line j)
      (finshCmdSize + 1) < finshCmdSize :=
    lt_of_le_of_lt (strnlen_le_of_nul (i := (s.cmdHistory i).strnlen finshCmdSize)
      ((if_pos hrow).trans hnul)) hrow
  exact stays_showLine (s := { s with currentHistory := i }) _
    ⟨h.curpos, h.position, h.last, h.count, Nat.le_of_lt hi, h.rows⟩
    ((if_neg (Nat.lt_irrefl _)).trans h.last) hlen

theorem stays_up (h : InBounds s) : Stays (keyUp s) := by
  have hcur := h.current
  unfold keyUp
  split_ifs with h0
  · exact stays_copyHistory h (by omega)
  · exact ⟨_, [], rfl, h.curpos, h.position, h.last, h.count, Nat.zero_le _, h.rows⟩

theorem stays_down (h : InBounds s) : Stays (keyDown s) := by
  unfold keyDown
  split_ifs with hnext h0
  · exact stays_copyHistory h hnext
  · exact stays_copyHistory h (by omega)
  · exact ⟨s, [], rfl, h⟩

theorem stays_left (h : InBounds s) : Stays (keyLeft s) := by
  have hcur := h.curpos
  unfold keyLeft
  split_ifs
  · exact ⟨_, _, rfl, show s.lineCurpos - 1 ≤ s.linePosition by omega, h.position, h.last, h.count,
      h.current, h.rows⟩
  · exact ⟨s, [], rfl, h⟩

theorem stays_right (h : InBounds s) : Stays (keyRight s) := by
  have hpos := h.position
  have hsize : finshCmdSize < 65536 := by decide
  unfold keyRight
  split_ifs with hlt hsmall
  · have hinc : inc16 s.lineCurpos = s.lineCurpos + 1 := Nat.mod_eq_of_lt (by omega)
    refine ⟨_, _, rfl, ?_, hpos, h.last, h.count, h.current, h.rows⟩
    show inc16 s.lineCurpos ≤ s.linePosition
    rw [hinc]
    exact hlt
  · omega
  · exact ⟨s, [], rfl, h⟩

theorem stays_backspace (h : InBounds s) : Stays (keyBackspace s) := by
  have hcur := h.curpos
  have hpos := h.position
  have hsize : finshCmdSize < 65536 := by decide
  unfold keyBackspace
  by_cases h0 : s.lineCurpos = 0
  · rw [if_pos h0]
    exact ⟨s, [], rfl, h⟩
  · have hdec : dec16 s.linePosition = s.linePosition - 1 := by
      unfold dec16
      omega
    rw [if_neg h0, hdec]
    dsimp only
    split_ifs with hmid hin hin'
    · have hlast : Function.update (s.line.memmove (s.lineCurpos - 1) (s.lineCurpos - 1 + 1)
          (s.linePosition - 1 - (s.lineCurpos - 1))) (s.linePosition - 1) 0 finshCmdSize = 0 := by
        rw [Function.update_of_ne (by omega), Mem.memmove_of_ge (by omega), h.last]
      obtain ⟨text, htext⟩ := exists_puts hlast (show s.lineCurpos - 1 ≤ finshCmdSize by omega)
      rw [htext]
      exact ⟨_, _, rfl, h.edit (by omega) (by omega) hlast⟩
    · omega
    · refine ⟨_, _, rfl, h.edit (by omega) (by omega) ?_⟩
      rw [Function.update_of_ne (by omega), h.last]
    · omega

/-- A line that is copied to the history ends in its row. -/
theorem strnlen_historyRow (hn : n < finshCmdSize) :
    (historyRow line n).strnlen finshCmdSize < finshCmdSize :=
  lt_of_le_of_lt (strnlen_le_of_nul (i := n) (if_neg (Nat.lt_irrefl n))) hn

theorem exists_shellPushHistory (h : InBounds s) : ∃ s', shellPushHistory s = some s' ∧
    InBounds { s' with line := Mem.zeros, linePosition := 0, lineCurpos := 0 } := by
  have hpos := h.position
  have hcount := h.count
  have hkeep : InBounds { s with
      currentHistory := s.historyCount, line := Mem.zeros, linePosition := 0, lineCurpos := 0 } :=
    ⟨le_refl _, finshCmdSize_pos, rfl, h.count, le_refl _, h.rows⟩
  unfold shellPushHistory
  split_ifs with h0 hfull hsame hroom hdiffer hroom'
  · refine ⟨_, rfl, le_refl _, finshCmdSize_pos, rfl, le_refl _, le_refl _, fun i hi => ?_⟩
    dsimp only at hi ⊢
    split_ifs with hi'
    · exact h.rows (i + 1) (by omega)
    · exact strnlen_historyRow hpos
  · omega
  · exact ⟨_, rfl, hkeep⟩
  · have hsmall : finshHistoryLines < 65535 := by decide
    have hinc : inc16 s.historyCount = s.historyCount + 1 := Nat.mod_eq_of_lt (by omega)
    refine ⟨_, rfl, le_refl _, finshCmdSize_pos, rfl, ?_, le_refl _, fun i hi => ?_⟩
    · show inc16 s.historyCount ≤ finshHistoryLines
      omega
    · change i < inc16 s.historyCount at hi
      show (Function.update s.cmdHistory s.historyCount _ i).strnlen finshCmdSize < finshCmdSize
      by_cases hi' : i = s.historyCount
      · rw [hi', Function.update_self]
        exact strnlen_historyRow hpos
      · rw [Function.update_of_ne hi']
        exact h.rows i (by omega)
  · omega
  · exact ⟨_, rfl, hkeep⟩
  · exact ⟨_, rfl, hkeep⟩

theorem stays_enter (h : InBounds s) : Stays (keyEnter s) := by
  obtain ⟨s', hs', hbounds⟩ := exists_shellPushHistory h
  unfold keyEnter
  rw [hs']
  exact ⟨_, _, rfl, hbounds⟩

theorem inBounds_advance (h : InBounds s) (hpos : n < finshCmdSize) (hcur : s.lineCurpos ≤ n) :
    InBounds (advance s n) := by
  have hsize : finshCmdSize < 65536 := by decide
  have h1 : inc16 n = n + 1 := Nat.mod_eq_of_lt (by omega)
  have h2 : inc16 s.lineCurpos = s.lineCurpos + 1 := Nat.mod_eq_of_lt (by omega)
  unfold advance
  rw [h1, h2]
  split_ifs
  · exact ⟨le_refl _, finshCmdSize_pos, h.last, h.count, h.current, h.rows⟩
  · exact ⟨Nat.succ_le_succ hcur, by dsimp only; omega, h.last, h.count, h.current, h.rows⟩

theorem stays_insertChar (h : InBounds s) : Stays (insertChar s ch) := by
  have hcur := h.curpos
  have hpos := h.position
  unfold insertChar
  dsimp only
  rw [if_neg (Nat.not_le.2 hpos)]
  split_ifs with hmid hecho hecho'
  · have hlast : Function.update (s.line.memmove (s.lineCurpos + 1) s.lineCurpos
        (s.linePosition - s.lineCurpos)) s.lineCurpos ch finshCmdSize = 0 := by
      rw [Function.update_of_ne (by omega), Mem.memmove_of_ge (by omega), h.last]
    obtain ⟨text, htext⟩ := exists_puts hlast (show s.lineCurpos ≤ finshCmdSize by omega)
    rw [htext]
    exact ⟨_, _, rfl, inBounds_advance (h.setLine hlast) hpos hcur⟩
  · refine ⟨_, _, rfl, inBounds_advance (h.setLine ?_) hpos hcur⟩
    rw [Function.update_of_ne (by omega), Mem.memmove_of_ge (by omega), h.last]
  all_goals
    refine ⟨_, _, rfl, inBounds_advance (h.setLine ?_) hpos hcur⟩
    rw [Function.update_of_ne (by omega), h.last]

/-- What a completion has to leave for the shell to go on. -/
def TabOk (complete : Mem → Mem) (s : FinshShell) : Prop :=
  (complete s.line).strnlen (finshCmdSize + 1) < finshCmdSize ∧ complete s.line finshCmdSize = 0

theorem stays_key (h : InBounds s) (htab : ch = 0x09 → TabOk complete s) :
    Stays (key complete s ch) := by
  unfold key
  split_ifs with hskip ht
  · exact ⟨s, [], rfl, h⟩
  · exact stays_showLine _ h (htab ht).2 (htab ht).1
  · exact stays_backspace h
  · exact stays_enter h
  · exact stays_insertChar h

/-- **Every character.** -/
theorem stays_finshThreadEntry (h : InBounds s) (htab : ch = 0x09 → TabOk complete s) :
    Stays (finshThreadEntry complete s ch) := by
  have hstat : ∀ stat, InBounds { s with stat := stat } := fun stat =>
    ⟨h.curpos, h.position, h.last, h.count, h.current, h.rows⟩
  unfold finshThreadEntry
  by_cases hesc : ch = 0x1B
  · rw [if_pos hesc]
    exact ⟨_, [], rfl, hstat _⟩
  · rw [if_neg hesc]
    cases s.stat with
    | waitNormal => exact stays_key h htab
    | waitSpecKey =>
      dsimp only
      split_ifs
      · exact ⟨_, [], rfl, hstat _⟩
      · exact stays_key (hstat _) htab
    | waitFuncKey =>
      dsimp only
      split_ifs
      · exact stays_up (hstat _)
      · exact stays_down (hstat _)
      · exact stays_left (hstat _)
      · exact stays_right (hstat _)
      · exact stays_key (hstat _) htab

theorem inBounds_start : InBounds FinshShell.start :=
  ⟨le_refl _, by decide, rfl, Nat.zero_le _, le_refl _, fun i hi => absurd hi (Nat.not_lt_zero i)⟩

theorem run_append (complete : Mem → Mem) (s : FinshShell) (chs chs' : List UInt8) :
    FinshShell.run complete s (chs ++ chs') =
      (FinshShell.run complete s chs).bind fun r =>
        (FinshShell.run complete r.1 chs').map fun r' => (r'.1, r.2 ++ r'.2) := by
  induction chs generalizing s with
  | nil =>
    rw [List.nil_append, FinshShell.run, Option.bind_some]
    cases FinshShell.run complete s chs' <;> rfl
  | cons ch chs ih =>
    rw [List.cons_append, FinshShell.run, FinshShell.run]
    cases finshThreadEntry complete s ch with
    | none => rfl
    | some r =>
      rw [Option.bind_some, Option.bind_some, ih]
      cases FinshShell.run complete r.1 chs with
      | none => rfl
      | some r' =>
        rw [Option.bind_some, Option.map_some, Option.bind_some, Option.map_map]
        congr 1
        funext r''
        exact congrArg _ (List.append_assoc ..).symm

/-- **The shell stays in its arrays.** In every run, over the ends of lines
and of the history, in which each completion leaves a line shorter than the
array allows, every access is in bounds. -/
theorem shell_in_bounds (complete : Mem → Mem) (chs : List UInt8)
    (htab : ∀ pre rest s effects, chs = pre ++ 0x09 :: rest →
      FinshShell.run complete FinshShell.start pre = some (s, effects) → TabOk complete s) :
    ∃ s effects, FinshShell.run complete FinshShell.start chs = some (s, effects) ∧ InBounds s := by
  induction chs using List.reverseRecOn with
  | nil => exact ⟨_, [], rfl, inBounds_start⟩
  | append_singleton chs ch ih =>
    obtain ⟨s, effects, hs, hbounds⟩ := ih fun pre rest s effects hpre hrun =>
      htab pre (rest ++ [ch]) s effects (by rw [hpre, List.append_assoc]; rfl) hrun
    have hstays : Stays (finshThreadEntry complete s ch) :=
      stays_finshThreadEntry hbounds fun hch => htab chs [] s effects (by rw [hch]) hs
    obtain ⟨s', effects', hs', hbounds'⟩ := hstays
    refine ⟨s', effects ++ (effects' ++ []), ?_, hbounds'⟩
    rw [run_append, hs, Option.bind_some, FinshShell.run, hs', Option.bind_some]
    rfl

/-- `l` and the tab key, which completes it to `ls`; then two hundred times
`a`, over the ends of two lines. -/
theorem shell_in_bounds_long :
    let complete : Mem → Mem := fun line => Function.update (Function.update line 1 0x73) 2 0
    ∃ s effects, FinshShell.run complete FinshShell.start
        (0x6C :: 0x09 :: List.replicate 200 0x61) = some (s, effects) ∧ InBounds s := by
  intro complete
  refine shell_in_bounds complete _ fun pre rest s effects hsplit hrun => ?_
  -- the one tab comes after the `l`
  rcases pre with _ | ⟨c, _ | ⟨c', pre⟩⟩
  · cases hsplit
  · obtain rfl : 0x6C = c := (List.cons.inj hsplit).1
    have hline : some (Function.update Mem.zeros 0 0x6C) = some s.line :=
      congrArg (Option.map fun r : Did FinshShell => r.1.line) hrun
    unfold TabOk
    rw [← Option.some.inj hline]
    decide +kernel
  · have hmem : (0x09 : UInt8) ∈ List.replicate 200 0x61 := by
      rw [(List.cons.inj (List.cons.inj hsplit).2).2]
      exact List.mem_append_right _ (List.mem_cons_self ..)
    exact absurd (List.eq_of_mem_replicate hmem) (by decide)

/-! ## Behind the array -/

/-- A printable character. -/
def Printable (c : UInt8) : Prop := 0x20 ≤ c ∧ c < 0x7F

instance (c : UInt8) : Decidable (Printable c) := inferInstanceAs (Decidable (_ ∧ _))

/-- Where no control key is waited for. -/
theorem finshThreadEntry_normal (hstat : s.stat = .waitNormal) (hesc : ch ≠ 0x1B) :
    finshThreadEntry complete s ch = key complete s ch := by
  unfold finshThreadEntry
  rw [if_neg hesc, hstat]

theorem finshThreadEntry_printable (hstat : s.stat = .waitNormal) (hch : Printable ch) :
    finshThreadEntry complete s ch = insertChar s ch := by
  have hne : ∀ x : UInt8, ¬ Printable x → ch ≠ x := fun x hx heq => hx (heq ▸ hch)
  rw [finshThreadEntry_normal hstat (hne _ (by decide))]
  unfold key
  rw [if_neg (not_or.2 ⟨hne _ (by decide), hne _ (by decide)⟩), if_neg (hne _ (by decide)),
    if_neg (not_or.2 ⟨hne _ (by decide), hne _ (by decide)⟩),
    if_neg (not_or.2 ⟨hne _ (by decide), hne _ (by decide)⟩)]

/-- The shell with some characters typed, up to a full line. -/
structure Filled (s : FinshShell) (w : List UInt8) : Prop where
  stat : s.stat = .waitNormal
  text : s.line.At 0 w
  last : s.line finshCmdSize = 0
  position : s.linePosition = w.length % finshCmdSize
  curpos : s.lineCurpos = w.length % finshCmdSize

/-- Characters are put in one behind the other, and the full line stays in
the array. -/
theorem exists_filled (complete : Mem → Mem) (w : List UInt8) (hlen : w.length ≤ finshCmdSize)
    (hw : ∀ c ∈ w, Printable c) :
    ∃ s effects, FinshShell.run complete FinshShell.start w = some (s, effects) ∧ Filled s w := by
  induction w using List.reverseRecOn with
  | nil => exact ⟨_, [], rfl, rfl, trivial, rfl, rfl, rfl⟩
  | append_singleton w c ih =>
    rw [List.length_append, List.length_singleton] at hlen
    obtain ⟨s, effects, hs, h⟩ := ih (by omega) fun x hx => hw x (List.mem_append_left _ hx)
    have hc : Printable c := hw c (List.mem_append_right _ (List.mem_singleton_self c))
    have hsize : finshCmdSize < 65536 := by decide
    have hpos := h.position
    have hcur := h.curpos
    rw [Nat.mod_eq_of_lt (by omega)] at hpos hcur
    have hinc : inc16 w.length = w.length + 1 := Nat.mod_eq_of_lt (by omega)
    have hinsert : ∃ s' effects', insertChar s c = some (s', effects') ∧ Filled s' (w ++ [c]) := by
      unfold insertChar
      dsimp only
      rw [if_neg (show ¬ finshCmdSize ≤ s.linePosition by omega),
        if_neg (show ¬ s.lineCurpos < s.linePosition by omega), hpos]
      refine ⟨_, _, rfl, ?_⟩
      have hline : Mem.At (Function.update s.line w.length c) 0 (w ++ [c]) :=
        Mem.at_append.2 ⟨h.text.update (Or.inr (by omega)) c, by
          rw [Nat.zero_add]
          exact Mem.at_update_self⟩
      have hlast : Function.update s.line w.length c finshCmdSize = 0 := by
        rw [Function.update_of_ne (by omega), h.last]
      unfold advance
      rw [hinc]
      split_ifs with hfull
      · have hmod : (w ++ [c]).length % finshCmdSize = 0 := by
          rw [List.length_append, List.length_singleton, show w.length + 1 = finshCmdSize by omega,
            Nat.mod_self]
        exact ⟨h.stat, hline, hlast, hmod.symm, hmod.symm⟩
      · have hmod : (w ++ [c]).length % finshCmdSize = w.length + 1 := by
          rw [List.length_append, List.length_singleton, Nat.mod_eq_of_lt (by omega)]
        refine ⟨h.stat, hline, hlast, hmod.symm, ?_⟩
        show inc16 s.lineCurpos = _
        rw [hcur, hinc, hmod]
    obtain ⟨s', effects', hs', h'⟩ := hinsert
    refine ⟨s', effects ++ (effects' ++ []), ?_, h'⟩
    rw [run_append, hs, Option.bind_some, FinshShell.run,
      finshThreadEntry_printable h.stat hc, hs', Option.bind_some]
    rfl

/-- A completion that leaves the full line counts all of it: the tab key puts
both positions behind the line. -/
theorem exists_tab_filled {w : List UInt8} (h : Filled s w) (hlen : w.length = finshCmdSize)
    (hnul : ∀ c ∈ w, c ≠ 0) (hcomplete : ∀ m : Mem, m.StringAt 0 w → complete m = m) :
    ∃ effects, finshThreadEntry complete s 0x09 =
      some ({ s with linePosition := finshCmdSize, lineCurpos := finshCmdSize }, effects) := by
  have hstring : s.line.StringAt 0 w := ⟨h.text, by rw [Nat.zero_add, hlen]; exact h.last⟩
  have hstrlen : s.line.strnlen (finshCmdSize + 1) = finshCmdSize := by
    rw [hstring.strnlen hnul (by omega), hlen]
  obtain ⟨text, htext⟩ := exists_puts h.last (Nat.zero_le _)
  refine ⟨List.replicate s.lineCurpos (.echo .back) ++ [.echo .newline, .echo .candidates] ++
    .echo .prompt :: text, ?_⟩
  rw [finshThreadEntry_normal h.stat (by decide)]
  show keyTab complete s = _
  unfold keyTab showLine
  rw [hcomplete _ hstring]
  dsimp only
  rw [htext, hstrlen]
  rfl

/-- The backspace key takes the one character there is, and leaves the cursor
where it was but for one. -/
theorem keyBackspace_one (hpos : s.linePosition = 1) (hcur : s.lineCurpos ≠ 0) :
    keyBackspace s = some ({ s with
        line := Function.update s.line 0 0, linePosition := 0, lineCurpos := s.lineCurpos - 1 },
      [.echo .back, .echo (.char 0x20), .echo .back]) := by
  have hdec : dec16 1 = 0 := by decide
  unfold keyBackspace
  rw [if_neg hcur, hpos, hdec, if_neg (Nat.not_lt_zero _), if_pos (Nat.succ_pos _)]

/-- On an empty line with the cursor behind it the backspace key leaves the
array: the position is counted down from zero. -/
theorem keyBackspace_behind (hpos : s.linePosition = 0) (hcur : s.lineCurpos ≠ 0)
    (hsmall : s.lineCurpos < 65536) : keyBackspace s = none := by
  have hdec : dec16 0 = 65535 := by decide
  have hsize : finshCmdSize + 1 < 65535 := by decide
  unfold keyBackspace
  rw [if_neg hcur, hpos, hdec, if_pos (by omega), if_neg (by omega)]

/-- **A full line, the tab key, one more character and the backspace key
twice** move what lies behind the array: a completion that leaves the full
line in it counts all of it, the next character takes the place of the first,
and the cursor stays behind the line. The first backspace leaves the line
empty with the cursor at its end; the second counts the position down from
zero, and would move 65456 bytes within the 81 of the array. -/
theorem shell_leaves_array (w : List UInt8) (d : UInt8) (hlen : w.length = finshCmdSize)
    (hw : ∀ c ∈ w, Printable c) (hd : Printable d)
    (hcomplete : ∀ m : Mem, m.StringAt 0 w → complete m = m) :
    ∃ s effects,
      FinshShell.run complete FinshShell.start (w ++ [0x09, d, 0x08]) = some (s, effects) ∧
      s.linePosition = 0 ∧ s.lineCurpos = finshCmdSize ∧
      dec16 s.linePosition - (s.lineCurpos - 1) = 65456 ∧
      FinshShell.run complete FinshShell.start (w ++ [0x09, d, 0x08, 0x08]) = none := by
  obtain ⟨s, effects, hs, h⟩ := exists_filled complete w (Nat.le_of_eq hlen) hw
  have hnul : ∀ c ∈ w, c ≠ 0 := fun c hc h0 => absurd (hw c hc) (by rw [h0]; decide)
  obtain ⟨effects', htab⟩ := exists_tab_filled h hlen hnul hcomplete
  -- the character is put in where the line begins, and the cursor moves on
  have hinsert : insertChar { s with linePosition := finshCmdSize, lineCurpos := finshCmdSize } d =
      some ({ s with line := Function.update s.line 0 d, linePosition := 1, lineCurpos := 81 },
        if s.echoMode = true then [.echo (.char d)] else []) := rfl
  have hback : ∀ t : FinshShell, t.stat = .waitNormal →
      finshThreadEntry complete t 0x08 = keyBackspace t := fun t ht =>
    finshThreadEntry_normal ht (by decide)
  set t : FinshShell :=
    { s with
      line := Function.update (Function.update s.line 0 d) 0 0, linePosition := 0,
      lineCurpos := 80 }
  have hfirst : ∃ effects, FinshShell.run complete FinshShell.start (w ++ [0x09, d, 0x08]) =
      some (t, effects) := by
    rw [run_append, hs, Option.bind_some, FinshShell.run, htab, Option.bind_some, FinshShell.run,
      finshThreadEntry_printable (by exact h.stat) hd, hinsert, Option.bind_some, FinshShell.run,
      hback _ (by exact h.stat), keyBackspace_one rfl (Nat.succ_ne_zero 80)]
    exact ⟨_, rfl⟩
  obtain ⟨effects, hfirst⟩ := hfirst
  have hmove : dec16 0 - (80 - 1) = 65456 := by decide
  have hsecond : keyBackspace t = none :=
    keyBackspace_behind rfl (Nat.succ_ne_zero 79) (show 80 < 65536 by omega)
  refine ⟨t, effects, hfirst, rfl, rfl, hmove, ?_⟩
  rw [show w ++ [0x09, d, 0x08, 0x08] = (w ++ [0x09, d, 0x08]) ++ [0x08] by simp, run_append,
    hfirst, Option.bind_some, FinshShell.run, hback t h.stat, hsecond]
  rfl

/-- Eighty times `a`. -/
theorem shell_leaves_array_a :
    ∃ s effects,
      FinshShell.run id FinshShell.start (List.replicate 80 0x61 ++ [0x09, 0x62, 0x08]) =
        some (s, effects) ∧ s.linePosition = 0 ∧ s.lineCurpos = finshCmdSize ∧
      dec16 s.linePosition - (s.lineCurpos - 1) = 65456 ∧
      FinshShell.run id FinshShell.start (List.replicate 80 0x61 ++ [0x09, 0x62, 0x08, 0x08]) =
        none :=
  shell_leaves_array (List.replicate 80 0x61) 0x62 List.length_replicate
    (fun c hc => by rw [List.eq_of_mem_replicate hc]; decide) (by decide) fun _ _ => rfl

end Shell

end RtSpark
