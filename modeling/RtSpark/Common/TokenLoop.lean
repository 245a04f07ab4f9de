import RtSpark.Common.Loop
import RtSpark.Common.Tokens
/-!
# Loops that read a text by its tokens

A loop moves a pointer over a text: at a NUL it ends, at a token it moves
behind it, if not in one pass then in several. Such a loop stands behind
every token of the text (`TokenLoop.reaches`), and as long as it is in the
text nowhere else (`TokenLoop.boundary`). It ends at the text's NUL where
the text is whole; behind half a character at the end it stands past the
NUL (`TokenLoop.le_length_iff`).
-/

namespace RtSpark

variable {σ : Type*} {src : Mem} {text : List UInt8} {ts us : List Token} {t : Token}

/-- The text falls into whole tokens. -/
def Whole (text : List UInt8) : Prop := sizeAll (tokens text) = text.length

instance (text : List UInt8) : Decidable (Whole text) := inferInstanceAs (Decidable (_ = _))

/-- Behind some tokens of a whole text, but not at its end, comes one that
is whole. -/
theorem exists_next {p : ℕ} (hw : Holds src text) (hwhole : Whole text)
    (htok : tokens text = ts ++ us) (hsize : sizeAll ts = p) (h0 : src p ≠ 0) :
    ∃ t us', us = t :: us' ∧ TokenAt src p t ∧ p + t.size ≤ text.length := by
  have hrest := (tokens_drop htok).1
  rw [hsize] at hrest
  unfold Whole at hwhole
  cases us with
  | nil =>
    rw [List.append_nil] at htok
    rw [htok, hsize] at hwhole
    rw [hwhole] at h0
    exact absurd hw.nul h0
  | cons t us =>
    refine ⟨t, us, rfl, hw.tokenAt hrest.symm, ?_⟩
    rw [htok, sizeAll_append, sizeAll_cons, hsize] at hwhole
    omega

/-- A text without a NUL that is not whole ends in half a character. -/
theorem half_of_not_whole (hw : Holds src text) (hne : ∀ b ∈ text, b ≠ 0)
    (hwhole : ¬ Whole text) :
    sizeAll (tokens text) + 1 = text.length ∧ 0x80 ≤ src (sizeAll (tokens text)) := by
  obtain ⟨hrest, hle⟩ := tokens_drop (List.append_nil (tokens text)).symm
  have hlt : sizeAll (tokens text) < text.length := Nat.lt_of_le_of_ne hle hwhole
  exact hw.half_of_nil hlt (hne _ (List.mem_of_getElem? (hw.bytes _ hlt))) hrest.symm

/-- `pass` reads the text at `src` by its tokens; `pos` is where its
pointer is. -/
structure TokenLoop (src : Mem) (pass : σ → Option σ) (pos : σ → ℕ) : Prop where
  stops : ∀ {s}, src (pos s) = 0 → pass s = none
  moves : ∀ {s s' t}, TokenAt src (pos s) t → pass s = some s' →
    pos s' = pos s ∨ pos s' = pos s + t.size
  reads : ∀ {s t}, TokenAt src (pos s) t →
    ∃ u s', Loop.Reaches pass s u ∧ pos u = pos s ∧ pass u = some s' ∧ pos s' = pos s + t.size

namespace TokenLoop

variable {pass : σ → Option σ} {pos : σ → ℕ} {init s s' : σ}

/-- **The loop stands behind each of the text's tokens.** -/
theorem reaches (h : TokenLoop src pass pos) (hw : Holds src text)
    (hs : Loop.Reaches pass init s) (htok : tokens (text.drop (pos s)) = ts ++ us) :
    ∃ s', Loop.Reaches pass init s' ∧ pos s' = pos s + sizeAll ts := by
  induction ts generalizing s with
  | nil => exact ⟨s, hs, rfl⟩
  | cons t ts ih =>
    obtain ⟨u, s', hu, -, hpass, hp⟩ := h.reads (hw.tokenAt htok)
    have htok' : tokens (text.drop (pos s')) = ts ++ us := by
      rw [hp]
      exact (tokens_drop_succ htok).symm
    obtain ⟨s'', hs'', hp''⟩ := ih ((hs.trans hu).tail hpass) htok'
    exact ⟨s'', hs'', by rw [hp'', hp, sizeAll_cons, Nat.add_assoc]⟩

/-- Where there is a pass there is a byte. -/
theorem ne_zero (h : TokenLoop src pass pos) (hpass : pass s = some s') : src (pos s) ≠ 0 := by
  intro h0
  rw [h.stops h0] at hpass
  cases hpass

/-- At a byte there is a token, which a pass moves behind, or stays. -/
theorem exists_moves (h : TokenLoop src pass pos) (hpass : pass s = some s') :
    ∃ t, TokenAt src (pos s) t ∧ (pos s' = pos s ∨ pos s' = pos s + t.size) := by
  obtain ⟨t, ht⟩ := exists_tokenAt (h.ne_zero hpass)
  exact ⟨t, ht, h.moves ht hpass⟩

/-- From a boundary a pass leads to a boundary, or past the text. -/
theorem boundary_step (h : TokenLoop src pass pos) (hw : Holds src text)
    (hs : TokenBoundary text (pos s)) (hpass : pass s = some s') :
    TokenBoundary text (pos s') ∨ text.length < pos s' := by
  obtain ⟨t, ht, hmoves⟩ := h.exists_moves hpass
  rcases hmoves with hp | hp
  · rw [hp]
    exact Or.inl hs
  · rw [hp]
    rcases Nat.lt_or_ge text.length (pos s + t.size) with hover | hfits
    · exact Or.inr hover
    · refine Or.inl (hs.add ⟨[t], _, ht.tokens_eq hw hfits, ?_⟩)
      rw [sizeAll_cons, sizeAll_nil, Nat.add_zero]

/-- **As long as the loop is in the text it stands between tokens.** -/
theorem boundary (h : TokenLoop src pass pos) (hw : Holds src text) (hinit : pos init = 0)
    (hs : Loop.Reaches pass init s) : TokenBoundary text (pos s) ∨ text.length < pos s := by
  refine hs.invariant (I := fun s => TokenBoundary text (pos s) ∨ text.length < pos s)
    (Or.inl (by rw [hinit]; exact tokenBoundary_zero text)) ?_
  intro s s' hs hpass
  rcases hs with hs | hpast
  · exact h.boundary_step hw hs hpass
  · obtain ⟨t, -, hmoves⟩ := h.exists_moves hpass
    exact Or.inr (by omega)

/-- Over a whole text it stays in the text. -/
theorem boundary_of_whole (h : TokenLoop src pass pos) (hw : Holds src text)
    (hwhole : Whole text) (hinit : pos init = 0) (hs : Loop.Reaches pass init s) :
    TokenBoundary text (pos s) := by
  refine hs.invariant (I := fun s => TokenBoundary text (pos s))
    (by rw [hinit]; exact tokenBoundary_zero text) ?_
  intro s s' hs hpass
  rcases h.boundary_step hw hs hpass with hs' | hpast
  · exact hs'
  · -- the token ahead is whole
    have h0 := h.ne_zero hpass
    obtain ⟨ts, us, htok, hsize⟩ := hs
    obtain ⟨t, us', -, ht, hfits⟩ := exists_next hw hwhole htok hsize h0
    have hmoves := h.moves ht hpass
    omega

/-- It ends at the text's NUL. -/
theorem exits (h : TokenLoop src pass pos) (hw : Holds src text) (hwhole : Whole text)
    (hinit : pos init = 0) : ∃ s, Loop.Exits pass init s ∧ pos s = text.length := by
  have htok : tokens (text.drop (pos init)) = tokens text ++ [] := by
    rw [hinit, List.drop_zero, List.append_nil]
  obtain ⟨s, hs, hp⟩ := h.reaches hw Relation.ReflTransGen.refl htok
  have hend : pos s = text.length := by
    rw [hp, hinit, Nat.zero_add]
    exact hwhole
  exact ⟨s, ⟨hs, h.stops (by rw [hend]; exact hw.nul)⟩, hend⟩

/-- **The pointer stays in the text exactly where the text is whole**:
half a character takes the NUL for its second byte. -/
theorem le_length_iff (h : TokenLoop src pass pos) (hw : Holds src text)
    (hne : ∀ b ∈ text, b ≠ 0) (hinit : pos init = 0) :
    (∀ s, Loop.Reaches pass init s → pos s ≤ text.length) ↔ Whole text := by
  constructor
  · intro hall
    by_contra hwhole
    obtain ⟨hend, hge⟩ := half_of_not_whole hw hne hwhole
    have htok : tokens (text.drop (pos init)) = tokens text ++ [] := by
      rw [hinit, List.drop_zero, List.append_nil]
    obtain ⟨s, hs, hp⟩ := h.reaches hw Relation.ReflTransGen.refl htok
    rw [hinit, Nat.zero_add] at hp
    rw [← hp] at hge hend
    obtain ⟨u, s', hu, -, hpass, hp'⟩ := h.reads (.double hge)
    have hpast : pos s' = pos s + 2 := hp'
    have hle := hall s' ((hs.trans hu).tail hpass)
    omega
  · intro hwhole s hs
    obtain ⟨ts, us, htok, hsize⟩ := h.boundary_of_whole hw hwhole hinit hs
    rw [← hsize]
    exact (tokens_drop htok).2

/-- A loop that reads where its pointer is, and the next byte only behind
one that is not NUL, reads a whole text up to its NUL. -/
theorem reads_le (h : TokenLoop src pass pos) (hw : Holds src text) (hwhole : Whole text)
    (hinit : pos init = 0) (hs : Loop.Reaches pass init s) {i : ℕ}
    (hi : i = pos s ∨ i = pos s + 1 ∧ src (pos s) ≠ 0) : i ≤ text.length := by
  obtain ⟨ts, us, htok, hsize⟩ := h.boundary_of_whole hw hwhole hinit hs
  have hle := (tokens_drop htok).2
  rcases hi with rfl | ⟨rfl, h0⟩
  · omega
  · obtain ⟨t, -, -, -, hfits⟩ := exists_next hw hwhole htok hsize h0
    have hpos := t.size_pos
    omega

end TokenLoop

end RtSpark
