import RtSpark.Shell.Model.Msh
import RtSpark.Common.Text
import RtSpark.Common.Words
import Mathlib.Data.List.Forall2
/-!
# The arguments of a line

`msh_split` works in place: it writes a NUL behind each argument as it comes
to it. `Ahead` says what is left of the line where it stands, `Ended` that an
argument has its NUL, `Pending` that the blank in its place is the next it
strips; `mshSplit_words` puts the arguments together with the words of the
line.
-/

namespace RtSpark

namespace Shell

/-- How a line of the shell is written. -/
def mshQuoting : Quoting UInt8 where
  blank := isBlank
  quote := quote
  escape := backslash
  blank_quote := rfl
  escape_ne := by decide

open Split

variable {s s' : Split} {length n p : ℕ} {rest w v : List UInt8} {ws : List (List UInt8)}
  {cmd : Mem} {c : UInt8}

/-- What is left of the line. -/
structure Ahead (length : ℕ) (s : Split) (rest : List UInt8) : Prop where
  pos : s.position + rest.length = length
  text : s.cmd.At s.position rest
  nul : s.cmd length = 0

/-- An argument that is a string by now. -/
def Ended (s : Split) (p : ℕ) (w : List UInt8) : Prop :=
  s.cmd.StringAt p w ∧ p + w.length ≤ s.position

/-- The last argument, where a blank stands behind it yet. -/
def Pending (length : ℕ) (s : Split) (p : ℕ) (w : List UInt8) : Prop :=
  s.cmd.At p w ∧ p + w.length = s.position ∧ s.position < length ∧
    isBlank (s.cmd s.position) = true

/-- What the splitting may do on its way: it writes NULs only, within the
line, and from where it stands on. -/
structure Moves (length : ℕ) (s s' : Split) : Prop where
  le : s.position ≤ s'.position
  before : ∀ j, j < s.position → s'.cmd j = s.cmd j
  writes : ∀ j, s'.cmd j = s.cmd j ∨ s'.cmd j = 0
  beyond : ∀ j, length ≤ j → s'.cmd j = s.cmd j

theorem Ahead.head (h : Ahead length s (c :: rest)) :
    s.cmd s.position = c ∧ s.position < length := by
  have hpos := h.pos
  rw [List.length_cons] at hpos
  exact ⟨(Mem.at_cons.1 h.text).1, by omega⟩

/-- At the end of the line. -/
theorem Ahead.nil_iff (h : Ahead length s rest) : length ≤ s.position ↔ rest = [] := by
  have hpos := h.pos
  constructor
  · intro hle
    exact List.length_eq_zero_iff.1 (by omega)
  · rintro rfl
    rw [List.length_nil] at hpos
    omega

theorem Ahead.advance (h : Ahead length s (w ++ rest)) :
    Ahead length { s with position := s.position + w.length } rest := by
  have hpos := h.pos
  rw [List.length_append] at hpos
  exact ⟨by dsimp only; omega, (Mem.at_append.1 h.text).2, h.nul⟩

theorem Ended.moves (h : Ended s p w) (hm : Moves length s s') : Ended s' p w := by
  obtain ⟨⟨hat, hnul⟩, hle⟩ := h
  refine ⟨⟨hat.congr fun i _ hi => hm.before i (by omega), ?_⟩, le_trans hle hm.le⟩
  rcases hm.writes (p + w.length) with hsame | hzero
  · rw [hsame, hnul]
  · exact hzero

/-! ## The inner loops -/

/-- What stripping does. -/
theorem run_strip (h : Ahead length s rest) (hn : rest.length ≤ n) :
    Ahead length (Loop.run (stripPass length) n s) (rest.dropWhile isBlank) ∧
      (Loop.run (stripPass length) n s).argv = s.argv ∧
      (Loop.run (stripPass length) n s).tooMany = s.tooMany ∧
      Moves length s (Loop.run (stripPass length) n s) ∧
      (s.position < length → isBlank (s.cmd s.position) = true →
        (Loop.run (stripPass length) n s).cmd s.position = 0) := by
  induction rest generalizing s n with
  | nil =>
    have hend := h.nil_iff.2 rfl
    have hnone : stripPass length s = none := if_neg fun hc => by omega
    rw [Loop.run_of_none hnone]
    exact ⟨h, rfl, rfl, ⟨le_refl _, fun _ _ => rfl, fun _ => Or.inl rfl, fun _ _ => rfl⟩,
      fun hlt => by omega⟩
  | cons c rest ih =>
    obtain ⟨hc, hlt⟩ := h.head
    by_cases hb : isBlank c = true
    · cases n with
      | zero => exact absurd hn (Nat.not_succ_le_zero _)
      | succ n =>
        have hsome : stripPass length s = some { s with
            cmd := Function.update s.cmd s.position 0, position := s.position + 1 } :=
          if_pos ⟨by rw [hc]; exact hb, hlt⟩
        have hnext : Ahead length { s with
            cmd := Function.update s.cmd s.position 0, position := s.position + 1 } rest := by
          have hpos := h.pos
          rw [List.length_cons] at hpos
          refine ⟨by dsimp only; omega,
            (Mem.at_cons.1 h.text).2.update (Or.inl (Nat.lt_succ_self _)) 0, ?_⟩
          show Function.update s.cmd s.position 0 length = 0
          rw [Function.update_of_ne (by omega), h.nul]
        obtain ⟨hahead, hargv, htoo, hm, -⟩ := ih hnext (Nat.le_of_succ_le_succ hn)
        rw [Loop.run_succ_of_some hsome, List.dropWhile_cons_of_pos hb]
        refine ⟨hahead, hargv, htoo, ⟨?_, ?_, ?_, ?_⟩, fun _ _ => ?_⟩
        · exact le_trans (Nat.le_succ _) hm.le
        · intro j hj
          rw [hm.before j (Nat.lt_succ_of_lt hj)]
          exact Function.update_of_ne (by omega) _ _
        · intro j
          rcases hm.writes j with hsame | hzero
          · rw [hsame]
            by_cases hj : j = s.position
            · exact Or.inr (by rw [hj]; exact Function.update_self ..)
            · exact Or.inl (Function.update_of_ne hj _ _)
          · exact Or.inr hzero
        · intro j hj
          rw [hm.beyond j hj]
          exact Function.update_of_ne (by omega) _ _
        · rw [hm.before _ (Nat.lt_succ_self _)]
          exact Function.update_self ..
    · have hnone : stripPass length s = none := if_neg fun hcon => hb (by rw [← hc]; exact hcon.1)
      rw [Loop.run_of_none hnone, List.dropWhile_cons_of_neg hb]
      exact ⟨h, rfl, rfl, ⟨le_refl _, fun _ _ => rfl, fun _ => Or.inl rfl, fun _ _ => rfl⟩,
        fun _ hcon => absurd (by rw [← hc]; exact hcon) hb⟩

/-- A word is skipped up to its blank. -/
theorem run_word (h : Ahead length s rest) (hn : rest.length ≤ n) :
    Loop.run (wordPass length) n s =
      { s with position := s.position + (rest.takeWhile (!isBlank ·)).length } := by
  induction rest generalizing s n with
  | nil =>
    have hend := h.nil_iff.2 rfl
    have hnone : wordPass length s = none := if_neg fun hc => by omega
    exact Loop.run_of_none hnone n
  | cons c rest ih =>
    obtain ⟨hc, hlt⟩ := h.head
    by_cases hb : isBlank c = true
    · have hnone : wordPass length s = none := if_neg fun hcon => by
        rw [hc, hb] at hcon
        exact Bool.noConfusion hcon.1
      rw [Loop.run_of_none hnone,
        List.takeWhile_cons_of_neg (by rw [hb]; exact Bool.noConfusion)]
      rfl
    · have hb' : isBlank c = false := Bool.eq_false_iff.2 hb
      cases n with
      | zero => exact absurd hn (Nat.not_succ_le_zero _)
      | succ n =>
        have hnext : Ahead length { s with position := s.position + 1 } rest :=
          Ahead.advance (w := [c]) h
        have hsome : wordPass length s = some { s with position := s.position + 1 } :=
          if_pos ⟨by rw [hc]; exact hb', hlt⟩
        rw [Loop.run_succ_of_some hsome, ih hnext (Nat.le_of_succ_le_succ hn),
          List.takeWhile_cons_of_pos (by rw [hb']; rfl), List.length_cons]
        dsimp only
        rw [Nat.add_assoc, Nat.add_comm 1]

/-- A string is skipped up to the quote that closes it. -/
theorem run_string (h : Ahead length s rest) (hn : rest.length ≤ n) :
    Loop.run (stringPass length) n s =
      { s with position := s.position + (mshQuoting.string rest).1.length } := by
  induction hk : rest.length using Nat.strongRecOn generalizing s n rest with
  | ind k ih =>
    subst hk
    cases rest with
    | nil =>
      have hend := h.nil_iff.2 rfl
      have hnone : stringPass length s = none := if_neg fun hc => by omega
      rw [Loop.run_of_none hnone]
      rfl
    | cons c rest =>
      obtain ⟨hc, hlt⟩ := h.head
      have hlen := h.pos
      rw [List.length_cons] at hn hlen
      obtain ⟨n, rfl⟩ : ∃ m, n = m + 1 := ⟨n - 1, by omega⟩
      rw [Quoting.string.eq_def]
      by_cases hq : c = quote
      · have hnone : stringPass length s = none :=
          if_neg fun hcon => hcon.1 (by rw [hc]; exact hq)
        rw [Loop.run_of_none hnone]
        simp [show c = mshQuoting.quote from hq]
      · have hnext : Ahead length { s with position := s.position + 1 } rest :=
          Ahead.advance (w := [c]) h
        have hguard : s.cmd s.position ≠ quote ∧ s.position < length := ⟨by rw [hc]; exact hq, hlt⟩
        have hq' : ¬ c = mshQuoting.quote := hq
        cases rest with
        | nil =>
          have hplain : ¬ (s.cmd s.position = backslash ∧ s.cmd (s.position + 1) = quote) :=
            fun hcon => by
              rw [List.length_nil] at hlen
              rw [hlen, h.nul] at hcon
              exact absurd hcon.2 (by decide)
          have hsome : stringPass length s = some { s with position := s.position + 1 } :=
            (if_pos hguard).trans (if_neg hplain)
          rw [Loop.run_succ_of_some hsome,
            ih 0 (Nat.zero_lt_succ _) hnext (Nat.zero_le _) rfl]
          simp [hq', Quoting.string]
        | cons d rest =>
          have hd : s.cmd (s.position + 1) = d := hnext.head.1
          by_cases hesc : c = backslash ∧ d = quote
          · have hnext' : Ahead length { s with position := s.position + 1 + 1 } rest :=
              Ahead.advance (w := [d]) hnext
            have hesc' : c = mshQuoting.escape ∧ d = mshQuoting.quote := hesc
            have hsome : stringPass length s = some { s with position := s.position + 1 + 1 } :=
              (if_pos hguard).trans (if_pos (by rw [hc, hd]; exact hesc))
            rw [Loop.run_succ_of_some hsome,
              ih rest.length (by simp only [List.length_cons]; omega) hnext'
                (by rw [List.length_cons] at hn; omega) rfl]
            simp only [if_neg hq', if_pos hesc', List.length_cons]
            congr 1
            omega
          · have hesc' : ¬ (c = mshQuoting.escape ∧ d = mshQuoting.quote) := hesc
            have hsome : stringPass length s = some { s with position := s.position + 1 } :=
              (if_pos hguard).trans (if_neg (by rw [hc, hd]; exact hesc))
            rw [Loop.run_succ_of_some hsome,
              ih (d :: rest).length (by simp only [List.length_cons]; omega) hnext (by omega) rfl]
            simp only [if_neg hq', if_neg hesc', List.length_cons]
            congr 1
            omega

/-- A string ends with the line, or with a quote. -/
theorem string_cases (text : List UInt8) :
    (text = (mshQuoting.string text).1 ∧ (mshQuoting.string text).2 = []) ∨
      text = (mshQuoting.string text).1 ++ quote :: (mshQuoting.string text).2 := by
  fun_induction mshQuoting.string text with
  | case1 => exact Or.inl ⟨rfl, rfl⟩
  | case2 rest => exact Or.inr rfl
  | case3 c hc => exact Or.inl ⟨rfl, rfl⟩
  | case4 c hc d rest' hesc ih =>
    rcases ih with ⟨htext, hnil⟩ | htext
    · exact Or.inl ⟨by rw [← htext], hnil⟩
    · exact Or.inr (by rw [List.cons_append, List.cons_append, ← htext])
  | case5 c hc d rest' hesc ih =>
    rcases ih with ⟨htext, hnil⟩ | htext
    · exact Or.inl ⟨by rw [← htext], hnil⟩
    · exact Or.inr (by rw [List.cons_append, ← htext])

/-! ## The loop -/

/-- An argument as the loop finds it. -/
abbrev Found (length : ℕ) (s : Split) (p : ℕ) (w : List UInt8) : Prop :=
  Ended s p w ∨ Pending length s p w

/-- What the splitting leaves: the arguments are the first of the words, and
there is a complaint where there are more. -/
structure Splits (length : ℕ) (s s' : Split) (ws : List (List UInt8)) : Prop where
  args : List.Forall₂ s'.cmd.StringAt s'.argv (ws.take finshArgMax)
  beyond : ∀ j, length ≤ j → s'.cmd j = s.cmd j
  complains : finshArgMax < ws.length → s'.tooMany = true

theorem Ahead.length_le (h : Ahead length s rest) : rest.length ≤ length := by
  have := h.pos
  omega

/-- **Stripping ends the last argument.** -/
theorem ended_strip (h : Ahead length s rest) (hargs : List.Forall₂ (Found length s) s.argv ws) :
    Ahead length (skip stripPass length s) (rest.dropWhile isBlank) ∧
      List.Forall₂ (Ended (skip stripPass length s)) (skip stripPass length s).argv ws ∧
      Moves length s (skip stripPass length s) := by
  obtain ⟨hahead, hargv, -, hm, hnul⟩ := run_strip h h.length_le
  refine ⟨hahead, ?_, hm⟩
  show List.Forall₂ _ (Loop.run (stripPass length) length s).argv ws
  rw [hargv]
  refine List.Forall₂.imp (fun p w hw => ?_) hargs
  rcases hw with hended | ⟨hat, hend, hlt, hblank⟩
  · exact hended.moves hm
  · refine ⟨⟨hat.congr fun i _ hi => hm.before i (by omega), ?_⟩, hend ▸ hm.le⟩
    rw [hend]
    exact hnul hlt hblank

/-- Where the line ends, the words found are all there are. -/
theorem splits_of_ended (hargs : List.Forall₂ (Ended s') s'.argv ws)
    (hlen : ws.length ≤ finshArgMax) (hbeyond : ∀ j, length ≤ j → s'.cmd j = s.cmd j) :
    Splits length s s' ws := by
  refine ⟨?_, hbeyond, fun hlt => absurd hlt (Nat.not_lt.2 hlen)⟩
  rw [List.take_of_length_le hlen]
  exact List.Forall₂.imp (fun _ _ hw => hw.1) hargs

theorem Splits.trans {t : Split} (h : Splits length s' t ws)
    (hbeyond : ∀ j, length ≤ j → s'.cmd j = s.cmd j) : Splits length s t ws :=
  ⟨h.args, fun j hj => (h.beyond j hj).trans (hbeyond j hj), h.complains⟩

/-- An argument more. -/
theorem forall₂_push {R : ℕ → List UInt8 → Prop} {argv : List ℕ} (h : List.Forall₂ R argv ws)
    (hw : R p w) : List.Forall₂ R (argv ++ [p]) (ws ++ [w]) :=
  List.rel_append h (List.Forall₂.cons hw List.Forall₂.nil)

theorem Ended.of_le (h : Ended s p w) (hcmd : s'.cmd = s.cmd) (hle : s.position ≤ s'.position) :
    Ended s' p w :=
  ⟨hcmd ▸ h.1, le_trans h.2 hle⟩

/-- **A string argument**, from behind the quote that opens it. -/
theorem loop_string (h : Ahead length s rest) (hargs : List.Forall₂ (Ended s) s.argv ws)
    (hlen : ws.length < finshArgMax)
    (ih : ∀ t, Ahead length t (mshQuoting.string rest).2 →
      List.Forall₂ (Found length t) t.argv (ws ++ [(mshQuoting.string rest).1]) →
      (mshQuoting.string rest).2.length < rest.length →
      Splits length t (loop length n t)
        (ws ++ [(mshQuoting.string rest).1] ++ mshQuoting.words (mshQuoting.string rest).2)) :
    Splits length s
      (if length ≤ (skip stringPass length s.push).position then skip stringPass length s.push
        else loop length n (skip stringPass length s.push).terminate.next)
      (ws ++ (mshQuoting.string rest).1 :: mshQuoting.words (mshQuoting.string rest).2) := by
  have hahead : Ahead length s.push rest := ⟨h.pos, h.text, h.nul⟩
  have hskip : skip stringPass length s.push = { s.push with
      position := s.position + (mshQuoting.string rest).1.length } :=
    run_string hahead h.length_le
  have hpos := h.pos
  rw [hskip]
  have hargs' : List.Forall₂ (fun p w => s.cmd.StringAt p w ∧
      p + w.length ≤ s.position + (mshQuoting.string rest).1.length) s.argv ws :=
    List.Forall₂.imp (fun p w hw => ⟨hw.1, le_trans hw.2 (Nat.le_add_right _ _)⟩) hargs
  rcases string_cases rest with ⟨htext, hnil⟩ | htext
  · -- the line ends within the string
    have hend : s.position + (mshQuoting.string rest).1.length = length := by
      rw [← htext, hpos]
    rw [if_pos (by dsimp only; omega), hnil, Quoting.words_nil]
    refine splits_of_ended (forall₂_push hargs' ⟨⟨?_, ?_⟩, le_refl _⟩) ?_ fun _ _ => rfl
    · rw [← htext]
      exact h.text
    · show s.cmd (s.position + (mshQuoting.string rest).1.length) = 0
      rw [hend, h.nul]
    · rw [List.length_append, List.length_singleton]
      omega
  · generalize (mshQuoting.string rest).1 = w at *
    generalize (mshQuoting.string rest).2 = rest' at *
    subst htext
    rw [List.length_append, List.length_cons] at hpos
    rw [if_neg (by dsimp only; omega), List.append_cons]
    have hat := Mem.at_append.1 h.text
    have hpos' : s.position + w.length < length := by omega
    -- the quote that closes it becomes its NUL
    refine (ih _ ⟨?_, ?_, ?_⟩ ?_ ?_).trans fun j hj =>
      Function.update_of_ne (show j ≠ s.position + w.length by omega) _ _
    · show s.position + w.length + 1 + rest'.length = length
      omega
    · exact (Mem.at_cons.1 hat.2).2.update (Or.inl (Nat.lt_succ_self _)) 0
    · show Function.update s.cmd (s.position + w.length) 0 length = 0
      rw [Function.update_of_ne (by omega), h.nul]
    · refine forall₂_push (List.Forall₂.imp (fun q v hv => Or.inl ?_) hargs') (Or.inl ?_)
      · obtain ⟨⟨hv, hnul⟩, hle⟩ := hv
        refine ⟨⟨hv.update (Or.inr hle) 0, ?_⟩, Nat.le_succ_of_le hle⟩
        show Function.update s.cmd (s.position + w.length) 0 (q + v.length) = 0
        rw [Function.update_apply, hnul]
        split <;> rfl
      · exact ⟨⟨hat.1.update (Or.inr (le_refl _)) 0, Function.update_self ..⟩, Nat.le_succ _⟩
    · rw [List.length_append, List.length_cons]
      omega

/-- **A plain argument.** -/
theorem loop_word (h : Ahead length s (c :: rest)) (hargs : List.Forall₂ (Ended s) s.argv ws)
    (hlen : ws.length < finshArgMax) (hb : isBlank c = false)
    (ih : ∀ t, Ahead length t (rest.dropWhile (!isBlank ·)) →
      List.Forall₂ (Found length t) t.argv (ws ++ [c :: rest.takeWhile (!isBlank ·)]) →
      Splits length t (loop length n t) (ws ++ [c :: rest.takeWhile (!isBlank ·)] ++
        mshQuoting.words (rest.dropWhile (!isBlank ·)))) :
    Splits length s
      (if length ≤ (skip wordPass length s.push).position then skip wordPass length s.push
        else loop length n (skip wordPass length s.push))
      (ws ++ (c :: rest.takeWhile (!isBlank ·)) ::
        mshQuoting.words (rest.dropWhile (!isBlank ·))) := by
  have hahead : Ahead length s.push (c :: rest) := ⟨h.pos, h.text, h.nul⟩
  have htake : (c :: rest).takeWhile (!isBlank ·) = c :: rest.takeWhile (!isBlank ·) :=
    List.takeWhile_cons_of_pos (by rw [hb]; rfl)
  have hskip : skip wordPass length s.push = { s.push with
      position := s.position + (c :: rest.takeWhile (!isBlank ·)).length } := by
    rw [← htake]
    exact run_word hahead h.length_le
  have htext : c :: rest = (c :: rest.takeWhile (!isBlank ·)) ++ rest.dropWhile (!isBlank ·) := by
    rw [List.cons_append, List.takeWhile_append_dropWhile]
  have hstop : ∀ d ∈ (rest.dropWhile (!isBlank ·)).head?, isBlank d = true := fun d hd => by
    have := List.head?_dropWhile_not (!isBlank ·) rest
    rw [show (rest.dropWhile (!isBlank ·)).head? = some d from hd] at this
    simpa using this
  rw [hskip]
  generalize c :: rest.takeWhile (!isBlank ·) = w at *
  generalize rest.dropWhile (!isBlank ·) = rest' at *
  rw [htext] at h
  have hpos := h.pos
  have hat := Mem.at_append.1 h.text
  rw [List.length_append] at hpos
  have hended : List.Forall₂ (Ended { s.push with position := s.position + w.length })
      s.argv ws :=
    List.Forall₂.imp (fun q v hv => hv.of_le rfl (Nat.le_add_right _ _)) hargs
  by_cases hend : length ≤ s.position + w.length
  · have hnil : rest' = [] := List.length_eq_zero_iff.1 (by omega)
    rw [if_pos hend, hnil, Quoting.words_nil]
    refine splits_of_ended (forall₂_push hended ⟨⟨hat.1, ?_⟩, le_refl _⟩) ?_ fun _ _ => rfl
    · show s.cmd (s.position + w.length) = 0
      rw [show s.position + w.length = length by omega, h.nul]
    · rw [List.length_append, List.length_singleton]
      omega
  · rw [if_neg hend, List.append_cons]
    -- the blank behind it is stripped next
    have hrest := h.advance
    have hnext : Ahead length { s.push with position := s.position + w.length } rest' :=
      ⟨hrest.pos, hrest.text, hrest.nul⟩
    refine Splits.trans (ih _ hnext ?_) fun _ _ => rfl
    refine forall₂_push (List.Forall₂.imp (fun _ _ hv => Or.inl hv) hended)
      (Or.inr ⟨hat.1, rfl, Nat.lt_of_not_le hend, ?_⟩)
    obtain ⟨d, rest', rfl⟩ := List.exists_cons_of_length_pos (l := rest') (by omega)
    show isBlank (s.cmd (s.position + w.length)) = true
    rw [(Mem.at_cons.1 hat.2).1]
    exact hstop d rfl

/-- **The loop finds the words.** -/
theorem loop_splits (h : Ahead length s rest) (hn : rest.length ≤ n)
    (hargs : List.Forall₂ (Found length s) s.argv ws) (hlen : ws.length ≤ finshArgMax) :
    Splits length s (loop length n s) (ws ++ mshQuoting.words rest) := by
  induction n generalizing s rest ws with
  | zero =>
    obtain rfl : rest = [] := List.length_eq_zero_iff.1 (Nat.le_zero.1 hn)
    have hend := h.nil_iff.2 rfl
    rw [Quoting.words_nil, List.append_nil]
    refine splits_of_ended (List.Forall₂.imp (fun p w hw => ?_) hargs) hlen fun _ _ => rfl
    exact hw.resolve_right fun hpend => absurd hpend.2.2.1 (Nat.not_lt.2 hend)
  | succ n ih =>
    rw [loop]
    by_cases hlt : s.position < length
    · obtain ⟨hahead, hended, hm⟩ := ended_strip h hargs
      have hargc : (skip stripPass length s).argv.length = ws.length := hended.length_eq
      have hdrop : (rest.dropWhile isBlank).length ≤ rest.length := List.length_dropWhile_le _ _
      have hwords : mshQuoting.words (rest.dropWhile isBlank) = mshQuoting.words rest :=
        Quoting.words_dropWhile mshQuoting rest
      have hfirst := List.head?_dropWhile_not isBlank rest
      rw [if_pos hlt]
      dsimp only
      rw [← hwords]
      generalize skip stripPass length s = s' at *
      generalize rest.dropWhile isBlank = rest' at *
      by_cases hmax : finshArgMax ≤ s'.argv.length
      · rw [if_pos hmax]
        have hfull : ws.length = finshArgMax := by omega
        refine ⟨?_, hm.beyond, fun _ => rfl⟩
        rw [← hfull, List.take_left]
        exact List.Forall₂.imp (fun _ _ hw => hw.1) hended
      · rw [if_neg hmax]
        by_cases hend : length ≤ s'.position
        · obtain rfl := hahead.nil_iff.1 hend
          rw [if_pos hend, Quoting.words_nil, List.append_nil]
          exact splits_of_ended hended hlen hm.beyond
        · rw [if_neg hend]
          obtain ⟨c, rest', rfl⟩ := List.exists_cons_of_ne_nil fun hnil =>
            hend (hahead.nil_iff.2 hnil)
          have hc := hahead.head.1
          have hb : isBlank c = false := by simpa using hfirst
          have hnext : Ahead length s'.next rest' := Ahead.advance (w := [c]) hahead
          rw [List.length_cons] at hdrop
          by_cases hq : c = quote
          · have hended' : List.Forall₂ (Ended s'.next) s'.next.argv ws :=
              List.Forall₂.imp (fun _ _ hw => hw.of_le rfl (Nat.le_succ _)) hended
            rw [if_pos (hc.trans hq), hq, show quote = mshQuoting.quote from rfl,
              Quoting.words_quote]
            refine (loop_string hnext hended' (by omega) fun t ht hargs' hshort => ?_).trans hm.beyond
            exact ih ht (by omega) hargs' (by rw [List.length_append, List.length_singleton]; omega)
          · rw [if_neg fun hcon => hq (hc.symm.trans hcon), Quoting.words_plain hb hq]
            refine (loop_word hahead hended (by omega) hb fun t ht hargs' => ?_).trans hm.beyond
            refine ih ht ?_ hargs' (by rw [List.length_append, List.length_singleton]; omega)
            exact le_trans (List.length_dropWhile_le _ _) (by omega)
    · rw [if_neg hlt]
      obtain rfl := h.nil_iff.1 (Nat.not_lt.1 hlt)
      rw [Quoting.words_nil, List.append_nil]
      refine splits_of_ended (List.Forall₂.imp (fun p w hw => ?_) hargs) hlen fun _ _ => rfl
      exact hw.resolve_right fun hpend => hlt hpend.2.2.1

/-- The loop splits the whole line. -/
theorem splits_mshSplit (h : cmd.StringAt 0 w) :
    Splits w.length ⟨cmd, 0, [], false⟩ (mshSplit cmd w.length) (mshQuoting.words w) := by
  have hahead : Ahead w.length ⟨cmd, 0, [], false⟩ w :=
    ⟨Nat.zero_add _, h.1, by have := h.2; rwa [Nat.zero_add] at this⟩
  exact loop_splits hahead (le_refl _) List.Forall₂.nil (Nat.zero_le _)

/-- **The arguments are the words of the line.** The first ten of them stand
in `argv`, each with its NUL; where there are more there is a complaint, and
nothing behind the line is written. -/
theorem mshSplit_words (h : cmd.StringAt 0 w) :
    List.Forall₂ (mshSplit cmd w.length).cmd.StringAt (mshSplit cmd w.length).argv
        ((mshQuoting.words w).take finshArgMax) ∧
      (∀ j, w.length ≤ j → (mshSplit cmd w.length).cmd j = cmd j) ∧
      (finshArgMax < (mshQuoting.words w).length → (mshSplit cmd w.length).tooMany = true) := by
  have hsplits := splits_mshSplit h
  exact ⟨hsplits.args, hsplits.beyond, hsplits.complains⟩

/-- `ls "a b"`. -/
theorem mshSplit_words_ls :
    List.Forall₂
      (mshSplit (fun i => [0x6C, 0x73, 0x20, 0x22, 0x61, 0x20, 0x62, 0x22].getD i 0) 8).cmd.StringAt
      (mshSplit (fun i => [0x6C, 0x73, 0x20, 0x22, 0x61, 0x20, 0x62, 0x22].getD i 0) 8).argv
      [[0x6C, 0x73], [0x61, 0x20, 0x62]] := by
  have htext : Mem.StringAt (fun i => [0x6C, 0x73, 0x20, 0x22, 0x61, 0x20, 0x62, 0x22].getD i 0) 0
      [0x6C, 0x73, 0x20, 0x22, 0x61, 0x20, 0x62, 0x22] := by
    simp [Mem.StringAt]
  have hwords : mshQuoting.words [0x6C, 0x73, 0x20, 0x22, 0x61, 0x20, 0x62, 0x22] =
      [[0x6C, 0x73], [0x61, 0x20, 0x62]] :=
    Quoting.words_line (show mshQuoting.blank 0x20 = true from rfl)
      [[0x6C, 0x73], [0x61, 0x20, 0x62]] (by decide)
  have h := (mshSplit_words htext).1
  rw [hwords] at h
  exact h

end Shell

end RtSpark
