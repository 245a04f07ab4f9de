import RtSpark.Shell.Split
/-!
# What a line calls

`msh_exec` on a line that is a string: the command is the first run of
characters that are no blanks, it is looked up by its whole name, and it is
called with the words of the line.
-/

namespace RtSpark

namespace Shell

variable {F : Type*} {table : List (List UInt8 × F)} {m : Mem}
  {length n p : ℕ} {w v name : List UInt8}

/-- The command a line names. -/
def command (w : List UInt8) : List UInt8 := (w.dropWhile isBlank).takeWhile (!isBlank ·)

/-- The function of a command. -/
def lookup (table : List (List UInt8 × F)) (name : List UInt8) : Option F :=
  (table.find? fun index => index.1 = name).map Prod.snd

/-- A loop that goes on while the characters are of a kind. -/
theorem run_scan (P : UInt8 → Bool) (pass : ℕ → Option ℕ)
    (hpass : ∀ i, i ≤ length → pass i = if P (m i) = true ∧ i < length then some (i + 1) else none)
    (hat : m.At p w) (hlen : p + w.length = length) (hn : w.length ≤ n) :
    Loop.run pass n p = p + (w.takeWhile P).length := by
  induction w generalizing p n with
  | nil =>
    rw [List.length_nil] at hlen
    exact Loop.run_of_none ((hpass p (by omega)).trans (if_neg fun hc => by omega)) n
  | cons c w ih =>
    obtain ⟨hc, hrest⟩ := Mem.at_cons.1 hat
    rw [List.length_cons] at hlen hn
    have heq := hpass p (by omega)
    by_cases hP : P c = true
    · obtain ⟨n, rfl⟩ : ∃ k, n = k + 1 := ⟨n - 1, by omega⟩
      rw [if_pos ⟨by rw [hc]; exact hP, by omega⟩] at heq
      rw [Loop.run_succ_of_some heq, ih hrest (by omega) (by omega), List.takeWhile_cons_of_pos hP,
        List.length_cons]
      omega
    · rw [if_neg fun hcon => hP (by rw [← hc]; exact hcon.1)] at heq
      rw [Loop.run_of_none heq, List.takeWhile_cons_of_neg hP]
      rfl

/-- As many characters as a word has are those of the word. -/
theorem strncmpEq_iff (hat : m.At 0 v) (hv : ∀ c ∈ v, c ≠ 0) :
    strncmpEq name m v.length = true ↔ v <+: name := by
  induction v generalizing name m with
  | nil =>
    rw [strncmpEq.eq_def]
    exact iff_of_true rfl List.nil_prefix
  | cons d v ih =>
    obtain ⟨hd, hrest⟩ := Mem.at_cons.1 hat
    have hd0 := hv d (List.mem_cons_self ..)
    have hshift : Mem.At (fun i => m (i + 1)) 0 v := by
      simp only [Nat.add_comm _ 1]
      rw [Mem.at_shift]
      exact hrest
    cases name with
    | nil => simp [strncmpEq, hd, hd0]
    | cons c name =>
      rw [List.length_cons, strncmpEq, Bool.and_eq_true, beq_iff_eq, hd, List.cons_prefix_cons,
        ih hshift fun x hx => hv x (List.mem_cons_of_mem _ hx), eq_comm]

/-- **A name is matched whole**: its first characters against the word, and
its end against the word's. -/
theorem strncmpEq_end_iff (hat : m.At 0 v) (hv : ∀ c ∈ v, c ≠ 0) (hname : ∀ c ∈ name, c ≠ 0) :
    (strncmpEq name m v.length && name.getD v.length 0 == 0) = true ↔ name = v := by
  rw [Bool.and_eq_true, strncmpEq_iff hat hv, beq_iff_eq]
  constructor
  · rintro ⟨⟨rest, rfl⟩, hend⟩
    cases rest with
    | nil => exact List.append_nil v
    | cons c rest =>
      rw [List.getD_eq_getElem?_getD, List.getElem?_append_right (le_refl _), Nat.sub_self] at hend
      exact absurd hend (hname c (List.mem_append_right _ (List.mem_cons_self ..)))
  · rintro rfl
    exact ⟨List.prefix_refl _, by simp⟩

theorem mshGetCmd_eq (hat : m.At 0 v) (hv : ∀ c ∈ v, c ≠ 0)
    (hnames : ∀ index ∈ table, ∀ c ∈ index.1, c ≠ 0) :
    mshGetCmd table m v.length = lookup table v := by
  unfold mshGetCmd lookup
  congr 1
  induction table with
  | nil => rfl
  | cons index table ih =>
    have hhead := strncmpEq_end_iff hat hv (hnames index (List.mem_cons_self ..))
    have hrest := ih fun i hi => hnames i (List.mem_cons_of_mem _ hi)
    rw [List.find?_cons, List.find?_cons, hrest]
    by_cases h : index.1 = v
    · rw [hhead.2 h, decide_eq_true h]
    · rw [Bool.eq_false_iff.2 fun hc => h (hhead.1 hc), decide_eq_false h]

/-- What `_msh_exec_cmd` does with a line that opens with a word. -/
theorem mshExecCmd_eq (h : m.StringAt 0 w) (hw : ∀ c ∈ w, c ≠ 0)
    (hnames : ∀ index ∈ table, ∀ c ∈ index.1, c ≠ 0) (hne : w.takeWhile (!isBlank ·) ≠ []) :
    mshExecCmd table m w.length =
      (lookup table (w.takeWhile (!isBlank ·))).map fun f => (f, mshSplit m w.length) := by
  have hsize : cmd0Size m w.length = (w.takeWhile (!isBlank ·)).length := by
    have := run_scan (!isBlank ·)
      (fun i => if isBlank (m i) = false ∧ i < w.length then some (i + 1) else none)
      (fun i _ => by simp) h.1 (Nat.zero_add _) (le_refl _)
    rwa [Nat.zero_add] at this
  have hat : m.At 0 (w.takeWhile (!isBlank ·)) := by
    have := h.1
    rw [← List.takeWhile_append_dropWhile (p := (!isBlank ·)) (l := w)] at this
    exact (Mem.at_append.1 this).1
  have hcmd := mshGetCmd_eq hat (fun c hc => hw c (List.takeWhile_subset _ hc)) hnames
  have hargs := (splits_mshSplit h).args
  have hargc : (mshSplit m w.length).argv.length ≠ 0 := by
    obtain ⟨c, rest, rfl⟩ : ∃ c rest, w = c :: rest := by
      cases w with
      | nil => exact absurd rfl hne
      | cons c rest => exact ⟨c, rest, rfl⟩
    have hb : isBlank c = false := by
      by_contra hcon
      rw [List.takeWhile_cons_of_neg (by simpa using hcon)] at hne
      exact hne rfl
    rw [hargs.length_eq, List.length_take]
    by_cases hq : c = quote
    · rw [hq, show quote = mshQuoting.quote from rfl, Quoting.words_quote, List.length_cons]
      simp [finshArgMax]
    · rw [Quoting.words_plain hb hq, List.length_cons]
      simp [finshArgMax]
  unfold mshExecCmd
  dsimp only
  rw [hsize, if_neg fun hc => hne (List.length_eq_zero_iff.1 hc), hcmd]
  cases lookup table (w.takeWhile (!isBlank ·)) with
  | none => rfl
  | some f => exact if_neg hargc

/-- **What a line calls.** On a line of blanks nothing happens; where the
table has the command, its function is called with the first ten words of the
line as its arguments; where it has not, and there is no script of that name,
the line is complained of up to its first space, as long as it is no longer
than a line of the shell. -/
theorem mshExec_eq (script : Mem → ℕ → Bool) (hnames : ∀ index ∈ table, ∀ c ∈ index.1, c ≠ 0)
    (h : m.StringAt 0 w) (hw : ∀ c ∈ w, c ≠ 0) :
    (w.dropWhile isBlank = [] → mshExec table script m w.length = .empty) ∧
      (w.dropWhile isBlank ≠ [] →
        (∀ f, lookup table (command w) = some f →
          ∃ args, mshExec table script m w.length = .called f args ∧
            List.Forall₂ args.cmd.StringAt args.argv ((mshQuoting.words w).take finshArgMax)) ∧
        (lookup table (command w) = none → w.length ≤ finshCmdSize →
          mshExec table script m w.length = .script ∨
            ∃ cmd, mshExec table script m w.length = .notFound cmd ∧
              cmd.StringAt 0 ((w.dropWhile isBlank).takeWhile (· ≠ 0x20)))) := by
  have htrim : trim m w.length = (w.takeWhile isBlank).length := by
    have := run_scan isBlank
      (fun i => if i < w.length ∧ isBlank (m i) = true then some (i + 1) else none)
      (fun i _ => if_congr and_comm rfl rfl) h.1 (Nat.zero_add _) (le_refl _)
    rwa [Nat.zero_add] at this
  have hsplit : w = w.takeWhile isBlank ++ w.dropWhile isBlank :=
    List.takeWhile_append_dropWhile.symm
  have hrest : w.length - (w.takeWhile isBlank).length = (w.dropWhile isBlank).length := by
    have := congrArg List.length hsplit
    rw [List.length_append] at this
    omega
  have hcmd : Mem.StringAt (fun i => m ((w.takeWhile isBlank).length + i)) 0
      (w.dropWhile isBlank) := by
    rw [hsplit] at h
    have hdrop := h.drop
    rw [Nat.zero_add] at hdrop
    exact ⟨Mem.at_shift.2 hdrop.1, by rw [Nat.zero_add]; exact hdrop.2⟩
  have hnul : ∀ c ∈ w.dropWhile isBlank, c ≠ 0 := fun c hc =>
    hw c ((List.dropWhile_suffix isBlank).subset hc)
  have hshort : w.length ≤ finshCmdSize → (w.dropWhile isBlank).length ≤ finshCmdSize :=
    le_trans (List.length_dropWhile_le _ _)
  have hfirst := List.head?_dropWhile_not isBlank w
  unfold mshExec command
  dsimp only
  rw [htrim, hrest, ← show mshQuoting.words (w.dropWhile isBlank) = mshQuoting.words w from
    Quoting.words_dropWhile mshQuoting w]
  generalize w.dropWhile isBlank = v at *
  generalize (fun i => m ((w.takeWhile isBlank).length + i)) = cmd at *
  refine ⟨fun hnil => if_pos (by rw [hnil]; rfl), fun hne => ?_⟩
  have hword : v.takeWhile (!isBlank ·) ≠ [] := by
    obtain ⟨c, rest, rfl⟩ := List.exists_cons_of_ne_nil hne
    have hb : isBlank c = false := by simpa using hfirst
    rw [List.takeWhile_cons_of_pos (by rw [hb]; rfl)]
    exact List.cons_ne_nil _ _
  rw [if_neg fun hc => hne (List.length_eq_zero_iff.1 hc), mshExecCmd_eq hcmd hnul hnames hword]
  constructor
  · intro f hf
    rw [hf]
    exact ⟨mshSplit cmd v.length, rfl, (splits_mshSplit hcmd).args⟩
  · intro hnone hlen
    have hle := hshort hlen
    rw [hnone]
    by_cases hscript : script cmd v.length = true
    · exact Or.inl (if_pos hscript)
    · refine Or.inr ⟨truncate cmd, if_neg hscript, ?_⟩
      -- the complaint ends at the first space, or with the line
      have hend : Loop.run (fun i => if cmd i ≠ 0x20 ∧ cmd i ≠ 0 then some (i + 1) else none)
          (finshCmdSize + 1) 0 = (v.takeWhile (· ≠ 0x20)).length := by
        have hat := Mem.at_iff.1 hcmd.1
        have hscan : ∀ i, i ≤ v.length →
            (if cmd i ≠ 0x20 ∧ cmd i ≠ 0 then some (i + 1) else none) =
              if decide (cmd i ≠ 0x20) = true ∧ i < v.length then some (i + 1) else none := by
          intro i hi
          refine if_congr ?_ rfl rfl
          rw [decide_eq_true_iff]
          refine and_congr_right fun _ => ?_
          rcases Nat.lt_or_eq_of_le hi with hlt | rfl
          · have := hat i hlt
            rw [Nat.zero_add] at this
            rw [this]
            exact iff_of_true (hnul _ (List.getElem_mem hlt)) hlt
          · have := hcmd.2
            rw [Nat.zero_add] at this
            exact iff_of_false (fun hc => hc this) (Nat.lt_irrefl _)
        have := run_scan (· ≠ 0x20) _ hscan hcmd.1 (Nat.zero_add _)
          (show v.length ≤ finshCmdSize + 1 by omega)
        rwa [Nat.zero_add] at this
      unfold truncate
      rw [hend]
      have hpre := hcmd.1
      rw [← List.takeWhile_append_dropWhile (p := (· ≠ 0x20)) (l := v)] at hpre
      refine ⟨(Mem.at_append.1 hpre).1.update (Or.inr (by rw [Nat.zero_add])) 0, ?_⟩
      rw [Nat.zero_add]
      exact Function.update_self ..

/-! ## Lines that are written -/

theorem command_line {args : List (List UInt8)} (hname : mshQuoting.Plain name) :
    command (mshQuoting.line 0x20 (name :: args)) = name := by
  obtain ⟨c, v, rfl⟩ := List.exists_cons_of_ne_nil hname.1
  have hblank := hname.2.2
  have hrest : ∃ rest, mshQuoting.line 0x20 ((c :: v) :: args) = (c :: v) ++ rest ∧
      ∀ d ∈ rest.head?, isBlank d = true := by
    cases args with
    | nil =>
      refine ⟨[], ?_, by simp⟩
      rw [Quoting.line, Quoting.write, if_pos hname, List.append_nil]
    | cons arg args =>
      refine ⟨0x20 :: mshQuoting.line 0x20 (arg :: args), ?_, ?_⟩
      · rw [Quoting.line, Quoting.write, if_pos hname]
      · intro d hd
        obtain rfl : (0x20 : UInt8) = d := Option.some.inj hd
        rfl
  obtain ⟨rest, hline, hhead⟩ := hrest
  have hc : isBlank c = false := hblank c (List.mem_cons_self ..)
  have hstop : rest.takeWhile (!isBlank ·) = [] := by
    cases rest with
    | nil => rfl
    | cons d rest => exact List.takeWhile_cons_of_neg (by rw [hhead d rfl]; exact Bool.noConfusion)
  unfold command
  rw [hline, List.cons_append, List.dropWhile_cons_of_neg (by rw [hc]; exact Bool.noConfusion),
    ← List.cons_append, List.takeWhile_append_of_pos, hstop, List.append_nil]
  intro d hd
  rw [show isBlank d = false from hblank d hd]
  rfl

/-- **A line that is written is obeyed.** A command with at most nine
arguments, written with quotes where they are needed, is called with just
these, however long the line is. -/
theorem mshExec_line {args : List (List UInt8)} {f : F} (script : Mem → ℕ → Bool)
    (hnames : ∀ index ∈ table, ∀ c ∈ index.1, c ≠ 0) (hname : mshQuoting.Plain name)
    (hargs : ∀ w ∈ args, mshQuoting.Plain w ∨ mshQuoting.Quotable w)
    (hcount : (name :: args).length ≤ finshArgMax) (hf : lookup table name = some f)
    (h : m.StringAt 0 (mshQuoting.line 0x20 (name :: args)))
    (hnul : ∀ c ∈ mshQuoting.line 0x20 (name :: args), c ≠ 0) :
    ∃ s, mshExec table script m (mshQuoting.line 0x20 (name :: args)).length = .called f s ∧
      List.Forall₂ s.cmd.StringAt s.argv (name :: args) := by
  have hcommand : command (mshQuoting.line 0x20 (name :: args)) = name := command_line hname
  have hne : (mshQuoting.line 0x20 (name :: args)).dropWhile isBlank ≠ [] := fun hnil => by
    rw [command, hnil] at hcommand
    exact hname.1 hcommand.symm
  have hwords : mshQuoting.words (mshQuoting.line 0x20 (name :: args)) = name :: args := by
    refine Quoting.words_line rfl _ fun w hw => ?_
    rcases List.mem_cons.1 hw with rfl | hw
    · exact Or.inl hname
    · exact hargs w hw
  obtain ⟨s, hs, hstrings⟩ :=
    ((mshExec_eq script hnames h hnul).2 hne).1 f (by rw [hcommand]; exact hf)
  rw [hwords, List.take_of_length_le hcount] at hstrings
  exact ⟨s, hs, hstrings⟩

set_option maxRecDepth 4000 in
/-- `ls "a b" x`, as it is written. -/
theorem mshExec_line_ls :
    ∃ s, mshExec [([0x6C, 0x73], ())] (fun _ _ => false)
        (fun i => (mshQuoting.line 0x20 [[0x6C, 0x73], [0x61, 0x20, 0x62], [0x78]]).getD i 0) 10 =
          .called () s ∧
      List.Forall₂ s.cmd.StringAt s.argv [[0x6C, 0x73], [0x61, 0x20, 0x62], [0x78]] := by
  have hnames : ∀ index ∈ [(([0x6C, 0x73] : List UInt8), ())], ∀ c ∈ index.1, c ≠ 0 := by simp
  have hname : mshQuoting.Plain [0x6C, 0x73] := by decide
  have hargs : ∀ w ∈ [[0x61, 0x20, 0x62], [0x78]], mshQuoting.Plain w ∨ mshQuoting.Quotable w := by
    decide
  have htext : Mem.StringAt
      (fun i => (mshQuoting.line 0x20 [[0x6C, 0x73], [0x61, 0x20, 0x62], [0x78]]).getD i 0) 0
      (mshQuoting.line 0x20 [[0x6C, 0x73], [0x61, 0x20, 0x62], [0x78]]) := by
    rw [show mshQuoting.line 0x20 [[0x6C, 0x73], [0x61, 0x20, 0x62], [0x78]] =
      [0x6C, 0x73, 0x20, 0x22, 0x61, 0x20, 0x62, 0x22, 0x20, 0x78] from by decide]
    simp [Mem.StringAt]
  exact mshExec_line (fun _ _ => false) hnames hname hargs (by decide) (by decide) htext (by decide)

end Shell

end RtSpark
