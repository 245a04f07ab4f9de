import RtSpark.Shell.Exec
import RtSpark.Shell.Display
/-!
# Completing a line

`msh_auto_complete` puts into the line what the commands that open with it
have in common. With it, and with `msh_exec` behind the end of a line, the
shell is put together in `shell_obeys`.
-/

namespace RtSpark

namespace Shell

variable {names : List (List UInt8)} {m : Mem} {w v name c : List UInt8} {k n : ℕ}

/-! ## Common beginnings -/

/-- Up to where two strings are the same, they have every beginning in
common. -/
theorem take_isPrefix_iff (hk : k ≤ w.length) : w.take k <+: v ↔ k ≤ strCommon w v := by
  induction w generalizing v k with
  | nil =>
    obtain rfl := Nat.le_zero.1 hk
    exact iff_of_true List.nil_prefix (Nat.zero_le _)
  | cons c w ih =>
    cases k with
    | zero => exact iff_of_true List.nil_prefix (Nat.zero_le _)
    | succ k =>
      cases v with
      | nil =>
        rw [List.take_succ_cons, List.prefix_nil, strCommon]
        · exact iff_of_false (List.cons_ne_nil _ _) (Nat.not_succ_le_zero _)
        · simp
      | cons d v =>
        rw [List.take_succ_cons, List.cons_prefix_cons, strCommon]
        split_ifs with heq
        · rw [ih (Nat.le_of_succ_le_succ hk), and_iff_right heq]
          exact Nat.succ_le_succ_iff.symm
        · exact iff_of_false (fun hc => heq hc.1) (Nat.not_succ_le_zero _)

/-- How many characters of `name` all of `ws` have in common with it, and at
most `k`. -/
def commonLength (name : List UInt8) (ws : List (List UInt8)) (k : ℕ) : ℕ :=
  ws.foldl (fun k w => min k (strCommon name w)) k

theorem le_commonLength_iff {ws : List (List UInt8)} :
    n ≤ commonLength name ws k ↔ n ≤ k ∧ ∀ w ∈ ws, n ≤ strCommon name w := by
  induction ws generalizing k with
  | nil => simp [commonLength]
  | cons w ws ih =>
    show n ≤ commonLength name ws (min k (strCommon name w)) ↔ _
    rw [ih, Nat.le_min, List.forall_mem_cons, and_assoc]

/-- What a line is completed to by the names that open with it. -/
def completion (names : List (List UInt8)) (w : List UInt8) : List UInt8 :=
  match names.filter (w.isPrefixOf ·) with
  | [] => w
  | name :: ws => name.take (commonLength name ws name.length)

/-- **The longest common beginning.** -/
theorem completion_spec (h : ∃ name ∈ names, w <+: name) :
    w <+: completion names w ∧ (∀ name ∈ names, w <+: name → completion names w <+: name) ∧
      ∀ c, (∀ name ∈ names, w <+: name → c <+: name) → c <+: completion names w := by
  have hmem : ∀ name, name ∈ names.filter (w.isPrefixOf ·) ↔ name ∈ names ∧ w <+: name :=
    fun name => by rw [List.mem_filter, List.isPrefixOf_iff_prefix]
  unfold completion
  cases hfilter : names.filter (w.isPrefixOf ·) with
  | nil =>
    obtain ⟨name, hname, hw⟩ := h
    have := (hmem name).2 ⟨hname, hw⟩
    rw [hfilter] at this
    exact absurd this (List.not_mem_nil)
  | cons name ws =>
    rw [hfilter] at hmem
    have hfirst : w <+: name := ((hmem name).1 (List.mem_cons_self ..)).2
    have hlen : commonLength name ws name.length ≤ name.length :=
      (le_commonLength_iff.1 (le_refl _)).1
    -- any common beginning is one of the name found first
    have hgreatest : ∀ c, (∀ name ∈ names, w <+: name → c <+: name) →
        c <+: name.take (commonLength name ws name.length) := fun c hc => by
      have hin := hc name ((hmem name).1 (List.mem_cons_self ..)).1 hfirst
      have htake : name.take c.length = c := (List.prefix_iff_eq_take.1 hin).symm
      have hle : c.length ≤ commonLength name ws name.length := by
        refine le_commonLength_iff.2 ⟨hin.length_le, fun x hx => ?_⟩
        have hx' := (hmem x).1 (List.mem_cons_of_mem _ hx)
        rw [← take_isPrefix_iff hin.length_le, htake]
        exact hc x hx'.1 hx'.2
      rw [← htake]
      exact List.take_prefix_take_left hle
    refine ⟨hgreatest w fun _ _ hw => hw, fun x hx hwx => ?_, hgreatest⟩
    rcases List.mem_cons.1 ((hmem x).2 ⟨hx, hwx⟩) with rfl | hmem'
    · exact List.take_prefix _ _
    · rw [take_isPrefix_iff hlen]
      exact (le_commonLength_iff.1 (le_refl _)).2 x hmem'

theorem completion_of_none (h : ¬ ∃ name ∈ names, w <+: name) : completion names w = w := by
  have hnil : names.filter (w.isPrefixOf ·) = [] := List.filter_eq_nil_iff.2 fun name hname hw =>
    h ⟨name, hname, List.isPrefixOf_iff_prefix.1 hw⟩
  unfold completion
  rw [hnil]

/-! ## The loop over the commands -/

theorem length_le_strCommon (h : w <+: name) (h' : w <+: v) : w.length ≤ strCommon name v := by
  rw [← take_isPrefix_iff h.length_le, ← List.prefix_iff_eq_take.1 h]
  exact h'

/-- From the first name on the loop only lowers the length. -/
theorem foldl_completeName (hat : m.At 0 w) (hw : ∀ c ∈ w, c ≠ 0) (hne : w ≠ [])
    (hname : w <+: name) (hk : w.length ≤ k) :
    names.foldl (completeName m w.length) (some name, k) =
      (some name, commonLength name (names.filter (w.isPrefixOf ·)) k) := by
  have hpos : 0 < w.length := List.length_pos_iff.2 hne
  induction names generalizing k with
  | nil => rfl
  | cons v names ih =>
    rw [List.foldl_cons]
    by_cases hv : w <+: v
    · have hlow := length_le_strCommon hname hv
      have hstep : completeName m w.length (some name, k) v =
          (some name, min k (strCommon name v)) := by
        unfold completeName
        rw [if_pos ((strncmpEq_iff hat hw).2 hv)]
        simp only [if_neg (show ¬ k = 0 by omega)]
        show (if strCommon name v < k then (some name, strCommon name v) else (some name, k)) = _
        split_ifs
        · rw [Nat.min_eq_right (by omega)]
        · rw [Nat.min_eq_left (by omega)]
      rw [hstep, ih (by omega), List.filter_cons_of_pos (List.isPrefixOf_iff_prefix.2 hv)]
      rfl
    · have hstep : completeName m w.length (some name, k) v = (some name, k) :=
        if_neg fun hc => hv ((strncmpEq_iff hat hw).1 hc)
      rw [hstep, ih hk, List.filter_cons_of_neg fun hc => hv (List.isPrefixOf_iff_prefix.1 hc)]

/-- **What the loop finds.** -/
theorem foldl_completeName_eq (hat : m.At 0 w) (hw : ∀ c ∈ w, c ≠ 0) (hne : w ≠ []) :
    names.foldl (completeName m w.length) (none, 0) =
      match names.filter (w.isPrefixOf ·) with
      | [] => (none, 0)
      | name :: ws => (some name, commonLength name ws name.length) := by
  have hpos : 0 < w.length := List.length_pos_iff.2 hne
  induction names with
  | nil => rfl
  | cons v names ih =>
    rw [List.foldl_cons]
    by_cases hv : w <+: v
    · have hstep : completeName m w.length (none, 0) v = (some v, v.length) := by
        have hself : v.length ≤ strCommon v v := length_le_strCommon List.prefix_rfl List.prefix_rfl
        unfold completeName
        rw [if_pos ((strncmpEq_iff hat hw).2 hv)]
        show (if strCommon v v < v.length then (some v, strCommon v v) else (some v, v.length)) = _
        rw [if_neg (by omega)]
      rw [hstep, foldl_completeName hat hw hne hv hv.length_le,
        List.filter_cons_of_pos (List.isPrefixOf_iff_prefix.2 hv)]
    · have hstep : completeName m w.length (none, 0) v = (none, 0) :=
        if_neg fun hc => hv ((strncmpEq_iff hat hw).1 hc)
      rw [hstep, ih, List.filter_cons_of_neg fun hc => hv (List.isPrefixOf_iff_prefix.1 hc)]

/-! ## The line -/

/-- The commands alone. -/
theorem padded_completion (hnames : ∀ name ∈ names, ∀ c ∈ name, c ≠ 0)
    (h : Padded (finshCmdSize + 1) m w) (hne : w ≠ [])
    (hshort : (completion names w).length < finshCmdSize) :
    Padded (finshCmdSize + 1)
      (match (names.foldl (completeName m w.length) (none, 0)).1 with
        | none => m
        | some name => m.strncpy (fun i => name.getD i 0)
            (names.foldl (completeName m w.length) (none, 0)).2)
      (completion names w) := by
  rw [foldl_completeName_eq h.text h.noNul hne]
  by_cases hsome : ∃ name ∈ names, w <+: name
  · obtain ⟨hw, -, -⟩ := completion_spec hsome
    unfold completion at hshort hw ⊢
    cases hfilter : names.filter (w.isPrefixOf ·) with
    | nil =>
      rw [hfilter] at hshort
      exact h
    | cons name ws =>
      rw [hfilter] at hshort hw
      dsimp only at hshort hw ⊢
      have hmem : name ∈ names := (List.mem_filter.1 (hfilter ▸ List.mem_cons_self ..)).1
      have hlen : commonLength name ws name.length ≤ name.length :=
        (le_commonLength_iff.1 (le_refl _)).1
      generalize commonLength name ws name.length = k at *
      have htake : (name.take k).length = k := List.length_take_of_le hlen
      have hwk : w.length ≤ k := htake ▸ hw.length_le
      -- the characters that are copied
      have hcopy : ∀ i, i < k → m.strncpy (fun i => name.getD i 0) k i = name.getD i 0 :=
        fun i hi => Mem.strncpy_of_ne_zero hi fun j hj => by
          have hj' : j < name.length := by omega
          show name.getD j 0 ≠ 0
          rw [List.getD_eq_getElem?_getD, List.getElem?_eq_getElem hj', Option.getD_some]
          exact hnames name hmem _ (List.getElem_mem hj')
      refine ⟨Mem.at_iff.2 fun i hi => ?_, fun i hi hlt => ?_, fun c hc => ?_, hshort⟩
      · rw [htake] at hi
        rw [Nat.zero_add, hcopy i hi, List.getElem_take, List.getD_eq_getElem?_getD,
          List.getElem?_eq_getElem (by omega), Option.getD_some]
      · rw [htake] at hi
        rw [Mem.strncpy, if_neg (Nat.not_lt.2 hi)]
        exact h.zeros i (by omega) hlt
      · exact hnames name hmem c (List.mem_of_mem_take hc)
  · have hnil : names.filter (w.isPrefixOf ·) = [] :=
      List.filter_eq_nil_iff.2 fun name hname hw =>
        hsome ⟨name, hname, List.isPrefixOf_iff_prefix.1 hw⟩
    rw [completion_of_none hsome, hnil]
    exact h

/-- What `msh_auto_complete_path` may do to the array of a line: it leaves
`g` of the line, which is not empty where the line is not. -/
structure PathCompletes (path : ℕ → Mem → Mem) (g : ℕ → List UInt8 → List UInt8) : Prop where
  padded : ∀ i m w, Padded (finshCmdSize + 1) m w → (g i w).length < finshCmdSize →
    Padded (finshCmdSize + 1) (path i m) (g i w)
  ne_nil : ∀ i w, w ≠ [] → g i w ≠ []

/-- What a line is completed to: by a path behind its last space, if it has
one, and by the commands. -/
def completionLine (names : List (List UInt8)) (g : ℕ → List UInt8 → List UInt8)
    (w : List UInt8) : List UInt8 :=
  if w = [] then w
  else completion names
    (match lastSpace (fun i => w.getD i 0) w.length with
      | none => w
      | some i => g (i + 1) w)

theorem prefix_completion (names : List (List UInt8)) (w : List UInt8) :
    w <+: completion names w := by
  by_cases hsome : ∃ name ∈ names, w <+: name
  · exact (completion_spec hsome).1
  · exact (completion_of_none hsome).symm ▸ List.prefix_rfl

/-- The array has its spaces where the line has them. -/
theorem lastSpace_eq (h : Padded (finshCmdSize + 1) m w) (hn : n ≤ w.length) :
    lastSpace m n = lastSpace (fun i => w.getD i 0) n := by
  induction n with
  | zero => rfl
  | succ n ih =>
    have hsame : m (n + 1) = w.getD (n + 1) 0 := by
      rcases Nat.lt_or_eq_of_le hn with hlt | heq
      · rw [h.get hlt, List.getD_eq_getElem?_getD, List.getElem?_eq_getElem hlt, Option.getD_some]
      · have hshort := h.short
        rw [h.zeros (n + 1) (by omega) (by omega), List.getD_eq_getElem?_getD,
          List.getElem?_eq_none (by omega)]
        rfl
    rw [lastSpace, lastSpace, hsame, ih (by omega)]

/-- **A line is completed in its array.** -/
theorem completes_mshAutoComplete {path : ℕ → Mem → Mem} {g : ℕ → List UInt8 → List UInt8}
    (hnames : ∀ name ∈ names, ∀ c ∈ name, c ≠ 0) (hpath : PathCompletes path g) :
    Completes (mshAutoComplete names path) (completionLine names g) := by
  intro m w h hshort
  unfold mshAutoComplete
  by_cases hnil : w = []
  · subst hnil
    have h0 : m 0 = 0 := h.zeros 0 (Nat.le_refl 0) (Nat.zero_lt_succ _)
    rw [if_pos h0]
    exact h
  · have hpos : 0 < w.length := List.length_pos_iff.2 hnil
    have hfirst : m 0 ≠ 0 := by
      rw [h.get hpos]
      exact h.noNul _ (List.getElem_mem hpos)
    have hline : completionLine names g w = completion names
        (match lastSpace (fun i => w.getD i 0) w.length with
          | none => w
          | some i => g (i + 1) w) := if_neg hnil
    rw [if_neg hfirst, h.strnlen (Nat.lt_succ_of_lt h.short), lastSpace_eq h (le_refl _)]
    rw [hline] at hshort ⊢
    generalize lastSpace (fun i => w.getD i 0) w.length = space at hshort ⊢
    cases space with
    | none =>
      dsimp only at hshort ⊢
      rw [h.strnlen (Nat.lt_succ_of_lt h.short)]
      exact padded_completion hnames h hnil hshort
    | some i =>
      dsimp only at hshort ⊢
      have hle := (prefix_completion names (g (i + 1) w)).length_le
      have hpad := hpath.padded (i + 1) m w h (by omega)
      rw [hpad.strnlen (Nat.lt_succ_of_lt hpad.short)]
      exact padded_completion hnames hpad (hpath.ne_nil _ w hnil) hshort

/-- **What the tab key completes a command to.** A word with no space in it
becomes the longest beginning that the commands that open with it have in
common, in its array, and stays as it is where there is no such command. -/
theorem mshAutoComplete_spec (path : ℕ → Mem → Mem) (hnames : ∀ name ∈ names, ∀ c ∈ name, c ≠ 0)
    (hshort : ∀ name ∈ names, name.length < finshCmdSize)
    (h : Padded (finshCmdSize + 1) m w) (hne : w ≠ []) (hspace : ∀ c ∈ w, c ≠ 0x20) :
    ∃ v, Padded (finshCmdSize + 1) (mshAutoComplete names path m) v ∧ w <+: v ∧
      (∀ name ∈ names, w <+: name → v <+: name) ∧
      ((∃ name ∈ names, w <+: name) →
        ∀ c, (∀ name ∈ names, w <+: name → c <+: name) → c <+: v) ∧
      ((¬ ∃ name ∈ names, w <+: name) → v = w) := by
  have hnone : ∀ n, n ≤ w.length → lastSpace m n = none := by
    intro n
    induction n with
    | zero => exact fun _ => rfl
    | succ n ih =>
      intro hn
      have hne' : m (n + 1) ≠ 0x20 := by
        rcases Nat.lt_or_eq_of_le hn with hlt | heq
        · rw [h.get hlt]
          exact hspace _ (List.getElem_mem hlt)
        · have := h.short
          rw [h.zeros (n + 1) (by omega) (by omega)]
          decide
      rw [lastSpace, if_neg hne']
      exact ih (by omega)
  have hpos : 0 < w.length := List.length_pos_iff.2 hne
  have hfirst : m 0 ≠ 0 := by
    rw [h.get hpos]
    exact h.noNul _ (List.getElem_mem hpos)
  have hlen := h.strnlen (Nat.lt_succ_of_lt h.short)
  have hline : (completion names w).length < finshCmdSize := by
    by_cases hsome : ∃ name ∈ names, w <+: name
    · obtain ⟨name, hname, hw⟩ := hsome
      have := ((completion_spec ⟨name, hname, hw⟩).2.1 name hname hw).length_le
      have := hshort name hname
      omega
    · rw [completion_of_none hsome]
      exact h.short
  refine ⟨completion names w, ?_, prefix_completion names w, ?_, ?_, completion_of_none⟩
  · unfold mshAutoComplete
    rw [if_neg hfirst, hlen, hnone _ (le_refl _)]
    dsimp only
    rw [hlen]
    exact padded_completion hnames h hne hline
  · exact fun name hname hw => (completion_spec ⟨name, hname, hw⟩).2.1 name hname hw
  · exact fun hsome => (completion_spec hsome).2.2

/-- `l`, with `li` and `lia` in the table. -/
theorem mshAutoComplete_spec_l :
    ∃ v, Padded (finshCmdSize + 1)
        (mshAutoComplete [[0x6C, 0x69], [0x6C, 0x69, 0x61]] (fun _ m => m)
          (fun i => [0x6C].getD i 0)) v ∧
      ∀ name ∈ ([[0x6C, 0x69], [0x6C, 0x69, 0x61]] : List (List UInt8)), [0x6C] <+: name →
        v <+: name := by
  have hpad : Padded (finshCmdSize + 1) (fun i => [0x6C].getD i 0) [0x6C] := by
    refine ⟨by simp, fun i hi _ => ?_, by simp, by decide⟩
    obtain ⟨i, rfl⟩ := Nat.exists_eq_add_of_le' hi
    rfl
  obtain ⟨v, hv, -, hall, -⟩ := mshAutoComplete_spec (fun _ m => m)
    (show ∀ name ∈ ([[0x6C, 0x69], [0x6C, 0x69, 0x61]] : List (List UInt8)), ∀ c ∈ name, c ≠ 0 by
      simp)
    (by simp [finshCmdSize]) hpad (List.cons_ne_nil _ _) (by simp)
  exact ⟨v, hv, hall⟩

/-! ## The shell put together -/

variable {F : Type*} {table : List (List UInt8 × F)} {script : Mem → ℕ → Bool}

/-- What a line has to come to. -/
def Obeys (table : List (List UInt8 × F)) (w : List UInt8) : Outcome F → Prop
  | .empty => w.dropWhile isBlank = []
  | .called f args => w.dropWhile isBlank ≠ [] ∧ lookup table (command w) = some f ∧
      List.Forall₂ args.cmd.StringAt args.argv ((mshQuoting.words w).take finshArgMax)
  | .script => w.dropWhile isBlank ≠ [] ∧ lookup table (command w) = none
  | .notFound cmd => w.dropWhile isBlank ≠ [] ∧ lookup table (command w) = none ∧
      cmd.StringAt 0 ((w.dropWhile isBlank).takeWhile (· ≠ 0x20))

/-- A line is obeyed. -/
theorem obeys_mshExec (script : Mem → ℕ → Bool) (hnames : ∀ index ∈ table, ∀ c ∈ index.1, c ≠ 0)
    (h : m.StringAt 0 w) (hw : ∀ c ∈ w, c ≠ 0) (hlen : w.length ≤ finshCmdSize) :
    Obeys table w (mshExec table script m w.length) := by
  obtain ⟨hempty, hline⟩ := mshExec_eq script hnames h hw
  by_cases hnil : w.dropWhile isBlank = []
  · rw [hempty hnil]
    exact hnil
  · obtain ⟨hcalled, hother⟩ := hline hnil
    cases hlookup : lookup table (command w) with
    | some f =>
      obtain ⟨args, hargs, hstrings⟩ := hcalled f hlookup
      rw [hargs]
      exact ⟨hnil, hlookup, hstrings⟩
    | none =>
      rcases hother hlookup hlen with hscript | ⟨cmd, hcmd, hstring⟩
      · rw [hscript]
        exact ⟨hnil, hlookup⟩
      · rw [hcmd]
        exact ⟨hnil, hlookup, hstring⟩

/-- The lines executed, each as it stands in its array. -/
theorem lines_means {es : List (Effect (Mem × ℕ))} {es' : List (Effect (List UInt8))}
    (h : List.Forall₂ Means es es') :
    List.Forall₂ (fun line w => Padded (finshCmdSize + 1) line.1 w ∧ line.2 = w.length)
      (es.filterMap Effect.line?) (es'.filterMap Effect.line?) := by
  induction h with
  | nil => exact List.Forall₂.nil
  | cons hx _ ih =>
    cases hx with
    | echo x => exact ih
    | exec hpad => exact List.Forall₂.cons ⟨hpad, rfl⟩ ih

/-- **The shell obeys the lines that are entered.** With the commands of the
table to complete and to look up, in every run of characters in which no line
fills its array, `msh_exec` is given the lines entered, in their order, and
does with each what it says. -/
theorem shell_obeys {path : ℕ → Mem → Mem} {g : ℕ → List UInt8 → List UInt8}
    (script : Mem → ℕ → Bool) (hnames : ∀ index ∈ table, ∀ c ∈ index.1, c ≠ 0)
    (hpath : PathCompletes path g) (chs : List UInt8)
    (hroom : Run.AlongRun (Typing.step (completionLine (table.map Prod.fst) g))
      (fun t ch _ => t.HasRoom (completionLine (table.map Prod.fst) g) ch) Typing.start chs) :
    ∃ s effects,
      FinshShell.run (mshAutoComplete (table.map Prod.fst) path) FinshShell.start chs =
        some (s, effects) ∧
      List.Forall₂ (fun line w => Obeys table w (mshExec table script line.1 line.2))
        (effects.filterMap Effect.line?)
        (Run.stateAfter (Typing.step (completionLine (table.map Prod.fst) g))
          Typing.start chs).editor.entered := by
  have hcomplete : Completes (mshAutoComplete (table.map Prod.fst) path)
      (completionLine (table.map Prod.fst) g) := by
    refine completes_mshAutoComplete (fun name hname => ?_) hpath
    obtain ⟨index, hindex, rfl⟩ := List.mem_map.1 hname
    exact hnames index hindex
  obtain ⟨s, effects, hs, -, -, hmeans⟩ := run_follows hcomplete edits_start rfl hroom
  have hlines := (entered_doesAll (f := completionLine (table.map Prod.fst) g) true Typing.start
    chs).symm
  refine ⟨s, effects, hs, ?_⟩
  rw [← hlines]
  refine List.Forall₂.imp (fun line w hline => ?_) (lines_means hmeans)
  obtain ⟨hpad, hlength⟩ := hline
  have hshort := hpad.short
  rw [hlength]
  exact obeys_mshExec script hnames (hpad.stringAt (by omega)) hpad.noNul (Nat.le_of_lt hshort)

/-- `p` and the tab key, which completes it to `ps`, and the end of the line. -/
theorem shell_obeys_ps :
    ∃ s effects,
      FinshShell.run (mshAutoComplete [[0x70, 0x73]] fun _ m => m) FinshShell.start
        [0x70, 0x09, 0x0D] = some (s, effects) ∧
      List.Forall₂ (fun line w => Obeys [([0x70, 0x73], ())] w
          (mshExec [([0x70, 0x73], ())] (fun _ _ => false) line.1 line.2))
        (effects.filterMap Effect.line?) [[0x70, 0x73]] := by
  have hnames : ∀ index ∈ [(([0x70, 0x73] : List UInt8), ())], ∀ c ∈ index.1, c ≠ 0 := by simp
  have hpath : PathCompletes (fun _ m => m) fun _ w => w :=
    ⟨fun _ _ _ h _ => h, fun _ _ h => h⟩
  obtain ⟨s, effects, hs, hobeys⟩ :=
    shell_obeys (fun _ _ => false) hnames hpath [0x70, 0x09, 0x0D] (by decide)
  exact ⟨s, effects, hs, hobeys⟩

end Shell

end RtSpark
