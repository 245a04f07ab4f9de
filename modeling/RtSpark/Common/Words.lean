import Mathlib.Data.List.TakeWhile
import Mathlib.Algebra.Order.Group.Nat
/-!
# Words and quoted strings

A command line over any alphabet: words are told apart by blanks, a word
that opens with a quote runs to the next quote, blanks and all, and a quote
behind an escape does not close it. `words` reads a line, `line` writes one,
and `words_line` says that what is written is read back.
-/

namespace RtSpark

/-- What is a blank, what opens and closes a string, and what keeps a quote
from closing it. -/
structure Quoting (α : Type*) where
  blank : α → Bool
  quote : α
  escape : α
  blank_quote : blank quote = false
  escape_ne : escape ≠ quote

namespace Quoting

variable {α : Type*} [DecidableEq α] {Q : Quoting α} {c : α} {w text rest : List α}

/-- A string from behind its opening quote, and what follows its closing
one; it may be left open. -/
def string (Q : Quoting α) : List α → List α × List α
  | [] => ([], [])
  | c :: rest =>
    if c = Q.quote then ([], rest)
    else
      match rest with
      | [] => ([c], [])
      | d :: rest' =>
        if c = Q.escape ∧ d = Q.quote then
          (c :: d :: (Q.string rest').1, (Q.string rest').2)
        else (c :: (Q.string (d :: rest')).1, (Q.string (d :: rest')).2)

theorem length_string (Q : Quoting α) (text : List α) :
    (Q.string text).1.length + (Q.string text).2.length ≤ text.length := by
  fun_induction Q.string text with
  | case1 => exact Nat.le_refl 0
  | case2 => simp
  | case3 => simp
  | case4 c hc d rest' hesc ih =>
    simp only [List.length_cons]
    omega
  | case5 c hc d rest' hesc ih =>
    simp only [List.length_cons] at ih ⊢
    omega

/-- The words of a line. -/
def words (Q : Quoting α) : List α → List (List α)
  | [] => []
  | c :: rest =>
    if Q.blank c = true then Q.words rest
    else if c = Q.quote then (Q.string rest).1 :: Q.words (Q.string rest).2
    else (c :: rest.takeWhile (!Q.blank ·)) :: Q.words (rest.dropWhile (!Q.blank ·))
termination_by text => text.length
decreasing_by
  · exact Nat.lt_succ_self _
  · have := length_string Q rest
    rw [List.length_cons]
    omega
  · exact Nat.lt_succ_of_le (List.length_dropWhile_le _ _)

@[simp] theorem words_nil (Q : Quoting α) : Q.words [] = [] := by rw [words]

theorem words_blank (hb : Q.blank c = true) (rest : List α) :
    Q.words (c :: rest) = Q.words rest := by
  rw [words, if_pos hb]

theorem words_quote (Q : Quoting α) (rest : List α) :
    Q.words (Q.quote :: rest) = (Q.string rest).1 :: Q.words (Q.string rest).2 := by
  rw [words, if_neg (by rw [Q.blank_quote]; exact Bool.noConfusion), if_pos rfl]

theorem words_plain (hb : Q.blank c = false) (hq : c ≠ Q.quote) (rest : List α) :
    Q.words (c :: rest) =
      (c :: rest.takeWhile (!Q.blank ·)) :: Q.words (rest.dropWhile (!Q.blank ·)) := by
  rw [words, if_neg (by rw [hb]; exact Bool.noConfusion), if_neg hq]

/-- Blanks before a word do not matter. -/
theorem words_dropWhile (Q : Quoting α) (text : List α) :
    Q.words (text.dropWhile Q.blank) = Q.words text := by
  induction text with
  | nil => rfl
  | cons c text ih =>
    by_cases hb : Q.blank c = true
    · rw [List.dropWhile_cons_of_pos hb, words_blank hb, ih]
    · rw [List.dropWhile_cons_of_neg hb]

/-! ## Writing a line -/

/-- A word that needs no quotes. -/
def Plain (Q : Quoting α) (w : List α) : Prop :=
  w ≠ [] ∧ w.head? ≠ some Q.quote ∧ ∀ c ∈ w, Q.blank c = false

instance (Q : Quoting α) (w : List α) : Decidable (Q.Plain w) :=
  inferInstanceAs (Decidable (_ ∧ _ ∧ _))

/-- What quotes can hold: a quote would close them, and an escape at the
end would keep the closing one from closing. -/
def Quotable (Q : Quoting α) (w : List α) : Prop :=
  (∀ c ∈ w, c ≠ Q.quote) ∧ w.getLast? ≠ some Q.escape

instance (Q : Quoting α) (w : List α) : Decidable (Q.Quotable w) :=
  inferInstanceAs (Decidable (_ ∧ _))

/-- A word as it is written: with quotes only where it needs them. -/
def write (Q : Quoting α) (w : List α) : List α :=
  if Q.Plain w then w else Q.quote :: (w ++ [Q.quote])

/-- A line of words, with a blank between two of them. -/
def line (Q : Quoting α) (sep : α) : List (List α) → List α
  | [] => []
  | [w] => Q.write w
  | w :: w' :: ws => Q.write w ++ sep :: Q.line sep (w' :: ws)

/-- A string is read up to its quote. -/
theorem string_append (h : Q.Quotable w) (rest : List α) :
    Q.string (w ++ Q.quote :: rest) = (w, rest) := by
  obtain ⟨hquote, hlast⟩ := h
  induction w with
  | nil =>
    rw [List.nil_append, string.eq_def]
    simp
  | cons c w ih =>
    have hc : c ≠ Q.quote := hquote c (List.mem_cons_self ..)
    have hw : Q.string (w ++ Q.quote :: rest) = (w, rest) := by
      cases w with
      | nil =>
        rw [List.nil_append, string.eq_def]
        simp
      | cons d w =>
        rw [List.getLast?_cons_cons] at hlast
        exact ih (fun x hx => hquote x (List.mem_cons_of_mem _ hx)) hlast
    rw [List.cons_append, string.eq_def]
    cases w with
    | nil =>
      have hesc : c ≠ Q.escape := fun heq => hlast (by rw [heq]; rfl)
      rw [List.nil_append] at hw ⊢
      simp [hc, hesc, hw]
    | cons d w =>
      have hd : d ≠ Q.quote := hquote d (List.mem_cons_of_mem _ (List.mem_cons_self ..))
      rw [List.cons_append] at hw ⊢
      simp [hc, hd, hw]

/-- A word is read up to the blank behind it. -/
theorem words_write (hw : Q.Plain w ∨ Q.Quotable w)
    (hrest : ∀ c ∈ rest.head?, Q.blank c = true) :
    Q.words (Q.write w ++ rest) = w :: Q.words rest := by
  unfold write
  split_ifs with hplain
  · obtain ⟨hne, hhead, hblank⟩ := hplain
    obtain ⟨c, w, rfl⟩ := List.exists_cons_of_ne_nil hne
    have hc : Q.blank c = false := hblank c (List.mem_cons_self ..)
    have hq : c ≠ Q.quote := fun heq => hhead (by rw [heq]; rfl)
    have htail : ∀ x ∈ w, (!Q.blank x) = true := fun x hx => by
      rw [hblank x (List.mem_cons_of_mem _ hx)]
      rfl
    have hstop : rest.takeWhile (!Q.blank ·) = [] ∧ rest.dropWhile (!Q.blank ·) = rest := by
      cases rest with
      | nil => exact ⟨rfl, rfl⟩
      | cons d rest =>
        have hd := hrest d rfl
        exact ⟨by simp [hd], by simp [hd]⟩
    rw [List.cons_append, words_plain hc hq, List.takeWhile_append_of_pos htail,
      List.dropWhile_append_of_pos htail, hstop.1, hstop.2, List.append_nil]
  · have hquotable := hw.resolve_left hplain
    rw [List.cons_append, List.append_assoc, List.singleton_append, words_quote,
      string_append hquotable]

/-- **What is written is read back.** -/
theorem words_line {sep : α} (hsep : Q.blank sep = true) (ws : List (List α))
    (hws : ∀ w ∈ ws, Q.Plain w ∨ Q.Quotable w) : Q.words (Q.line sep ws) = ws := by
  induction ws with
  | nil => exact words_nil Q
  | cons w ws ih =>
    have hw := hws w (List.mem_cons_self ..)
    have hrest := ih fun x hx => hws x (List.mem_cons_of_mem _ hx)
    cases ws with
    | nil =>
      rw [line, ← List.append_nil (Q.write w), words_write hw (by simp),
        words_nil]
    | cons w' ws =>
      have hhead : ∀ c ∈ (sep :: Q.line sep (w' :: ws)).head?, Q.blank c = true := fun c hc => by
        obtain rfl : sep = c := Option.some.inj hc
        exact hsep
      rw [line, words_write hw hhead, words_blank hsep, hrest]

end Quoting

end RtSpark
