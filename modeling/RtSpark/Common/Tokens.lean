import RtSpark.Common.CString
import RtSpark.Common.Grid
import Mathlib.Algebra.GroupWithZero.Nat
/-!
# The tokens of a text

A text of single- and double-byte characters falls into tokens: a byte
below `0x80` is one, a byte from `0x80` on takes the next byte with it,
and a `CR LF` pair is one line end. `tokens` reads as many as are whole:
it stops at a NUL and before a half character at the end. A position is a
boundary of the text when it lies between two of its tokens. `TokenAt` is
what a loop over the text's memory looks at to tell the tokens apart.
-/

namespace RtSpark

/-- What a text is read by. -/
inductive Token where
  | crlf
  /-- A line end of one byte. -/
  | brk (b : UInt8)
  | single (b : UInt8)
  | double (b c : UInt8)
deriving DecidableEq

namespace Token

def bytes : Token → List UInt8
  | .crlf => [cr, lf]
  | .brk b => [b]
  | .single b => [b]
  | .double b c => [b, c]

/-- How many bytes it is. -/
def size (t : Token) : ℕ := t.bytes.length

/-- What it takes of a row. -/
def item : Token → Grid.Item
  | .crlf => .brk
  | .brk _ => .brk
  | .single _ => .box 1
  | .double _ _ => .box 2

end Token

/-- The tokens a text opens with. -/
def tokens : List UInt8 → List Token
  | [] => []
  | [b] =>
    if b = 0 then []
    else if b = lf ∨ b = cr then [.brk b]
    else if b < 0x80 then [.single b]
    else []
  | b :: c :: rest =>
    if b = 0 then []
    else if b = cr ∧ c = lf then .crlf :: tokens rest
    else if b = lf ∨ b = cr then .brk b :: tokens (c :: rest)
    else if b < 0x80 then .single b :: tokens (c :: rest)
    else .double b c :: tokens rest

/-- The bytes of several tokens. -/
def sizeAll (ts : List Token) : ℕ := (ts.map Token.size).sum

/-- How a text opens: with one of the tokens, or with none that is whole. -/
inductive Opens : List UInt8 → Option Token → List UInt8 → Prop
  | nil : Opens [] none []
  | zero (rest : List UInt8) : Opens (0 :: rest) none rest
  | half {b : UInt8} : 0x80 ≤ b → Opens [b] none []
  | crlf (rest : List UInt8) : Opens (cr :: lf :: rest) (some .crlf) rest
  | brk {b : UInt8} {rest : List UInt8} : b = lf ∨ b = cr →
      ¬ (b = cr ∧ rest.head? = some lf) → Opens (b :: rest) (some (.brk b)) rest
  | single {b : UInt8} {rest : List UInt8} : b ≠ 0 → ¬ (b = lf ∨ b = cr) → b < 0x80 →
      Opens (b :: rest) (some (.single b)) rest
  | double {b c : UInt8} {rest : List UInt8} : 0x80 ≤ b →
      Opens (b :: c :: rest) (some (.double b c)) rest

variable {b c : UInt8} {rest text : List UInt8} {t : Token} {ts us : List Token} {o : ℕ}

theorem Token.size_pos (t : Token) : 0 < t.size := by
  cases t <;> exact Nat.succ_pos _

@[simp] theorem Token.take_bytes (t : Token) (rest : List UInt8) :
    (t.bytes ++ rest).take t.size = t.bytes := List.take_left' rfl

@[simp] theorem Token.drop_bytes (t : Token) (rest : List UInt8) :
    (t.bytes ++ rest).drop t.size = rest := List.drop_left' rfl

/-- A character takes a column for each of its bytes, of which it has two at
most. -/
theorem Token.width_eq {w : ℕ} (h : t.item = .box w) : w = t.size ∧ w ≤ 2 := by
  cases t <;> cases h <;> exact ⟨rfl, by decide⟩

@[simp] theorem sizeAll_nil : sizeAll [] = 0 := rfl

@[simp] theorem sizeAll_cons (t : Token) (ts : List Token) :
    sizeAll (t :: ts) = t.size + sizeAll ts := List.sum_cons

@[simp] theorem sizeAll_append (ts us : List Token) :
    sizeAll (ts ++ us) = sizeAll ts + sizeAll us := by
  rw [sizeAll, List.map_append, List.sum_append]
  rfl

/-- No boundary lies twice in a text. -/
theorem prefix_unique {ts ts' us us' : List Token} (h : ts ++ us = ts' ++ us')
    (hsize : sizeAll ts = sizeAll ts') : ts = ts' ∧ us = us' := by
  have hcase : ∀ {xs ys zs : List Token}, xs = ys ++ zs → sizeAll xs = sizeAll ys → zs = [] := by
    intro xs ys zs hxs hsum
    rw [hxs, sizeAll_append] at hsum
    cases zs with
    | nil => rfl
    | cons z zs =>
      have hpos := z.size_pos
      rw [sizeAll_cons] at hsum
      omega
  rcases List.append_eq_append_iff.1 h with ⟨zs, hts, hus⟩ | ⟨zs, hts, hus⟩
  · have hnil := hcase hts hsize.symm
    rw [hnil, List.append_nil] at hts
    rw [hnil, List.nil_append] at hus
    exact ⟨hts.symm, hus⟩
  · have hnil := hcase hts hsize
    rw [hnil, List.append_nil] at hts
    rw [hnil, List.nil_append] at hus
    exact ⟨hts, hus.symm⟩

/-! ## One token on -/

theorem ne_zero_of_brk (h : b = lf ∨ b = cr) : b ≠ 0 := by
  rcases h with rfl | rfl <;> decide

theorem lt_of_brk (h : b = lf ∨ b = cr) : b < 0x80 := by
  rcases h with rfl | rfl <;> decide

theorem ne_zero_of_double (h : 0x80 ≤ b) : b ≠ 0 := by
  rintro rfl
  revert h
  decide

/-- A loop that looks at the byte behind a CR or a high byte looks behind a
byte only. -/
theorem mem_pair_reads {src : Mem} {p i : ℕ} {q : Prop} [Decidable q]
    (hi : i ∈ if src p = cr ∨ 0x80 ≤ src p ∧ q then [p, p + 1] else [p]) :
    i = p ∨ i = p + 1 ∧ src p ≠ 0 := by
  split at hi
  · rename_i hpair
    have h0 : src p ≠ 0 := by
      rcases hpair with hcr | ⟨hge, -⟩
      · rw [hcr]
        decide
      · exact ne_zero_of_double hge
    rcases List.mem_pair.1 hi with rfl | rfl
    · exact Or.inl rfl
    · exact Or.inr ⟨rfl, h0⟩
  · exact Or.inl (List.mem_singleton.1 hi)

theorem tokens_zero (rest : List UInt8) : tokens (0 :: rest) = [] := by
  cases rest <;> simp [tokens]

theorem tokens_crlf (rest : List UInt8) : tokens (cr :: lf :: rest) = .crlf :: tokens rest := by
  have hcr : cr ≠ 0 := by decide
  simp [tokens, hcr]

theorem tokens_brk (hb : b = lf ∨ b = cr) (hpair : ¬ (b = cr ∧ rest.head? = some lf)) :
    tokens (b :: rest) = .brk b :: tokens rest := by
  have h0 := ne_zero_of_brk hb
  cases rest with
  | nil => simp [tokens, h0, hb]
  | cons c rest =>
    rw [List.head?_cons, Option.some.injEq] at hpair
    rw [tokens, if_neg h0, if_neg hpair, if_pos hb]

theorem tokens_single (h0 : b ≠ 0) (hb : ¬ (b = lf ∨ b = cr)) (hlt : b < 0x80) :
    tokens (b :: rest) = .single b :: tokens rest := by
  cases rest with
  | nil => simp [tokens, h0, hb, hlt]
  | cons c rest => rw [tokens, if_neg h0, if_neg fun h => hb (Or.inr h.1), if_neg hb, if_pos hlt]

theorem tokens_double (hge : 0x80 ≤ b) : tokens (b :: c :: rest) = .double b c :: tokens rest := by
  have hlt : ¬ b < 0x80 := UInt8.not_lt.2 hge
  have hb : ¬ (b = lf ∨ b = cr) := fun h => hlt (lt_of_brk h)
  rw [tokens, if_neg (ne_zero_of_double hge), if_neg fun h => hb (Or.inr h.1), if_neg hb,
    if_neg hlt]

/-- A half character at the end is none. -/
theorem tokens_half (hge : 0x80 ≤ b) : tokens [b] = [] := by
  have hlt : ¬ b < 0x80 := UInt8.not_lt.2 hge
  have hb : ¬ (b = lf ∨ b = cr) := fun h => hlt (lt_of_brk h)
  rw [tokens, if_neg (ne_zero_of_double hge), if_neg hb, if_neg hlt]

theorem exists_opens (text : List UInt8) : ∃ t rest, Opens text t rest := by
  cases text with
  | nil => exact ⟨_, _, .nil⟩
  | cons b rest =>
    by_cases h0 : b = 0
    · rw [h0]
      exact ⟨_, _, .zero rest⟩
    by_cases hpair : b = cr ∧ rest.head? = some lf
    · obtain ⟨rest', hrest⟩ := List.head?_eq_some_iff.1 hpair.2
      rw [hpair.1, hrest]
      exact ⟨_, _, .crlf rest'⟩
    by_cases hb : b = lf ∨ b = cr
    · exact ⟨_, _, .brk hb hpair⟩
    by_cases hlt : b < 0x80
    · exact ⟨_, _, .single h0 hb hlt⟩
    · have hge : 0x80 ≤ b := UInt8.not_lt.1 hlt
      cases rest with
      | nil => exact ⟨_, _, .half hge⟩
      | cons c rest => exact ⟨_, _, .double hge⟩

/-- **The tokens, one at a time.** -/
theorem tokens_of_opens {head : Option Token} (h : Opens text head rest) :
    (head = none ∧ tokens text = []) ∨
      ∃ t, head = some t ∧ tokens text = t :: tokens rest ∧ text = t.bytes ++ rest := by
  cases h with
  | nil => exact Or.inl ⟨rfl, rfl⟩
  | zero rest => exact Or.inl ⟨rfl, tokens_zero _⟩
  | half hge => exact Or.inl ⟨rfl, tokens_half hge⟩
  | crlf => exact Or.inr ⟨_, rfl, tokens_crlf _, rfl⟩
  | brk hb hpair => exact Or.inr ⟨_, rfl, tokens_brk hb hpair, rfl⟩
  | single h0 hb hlt => exact Or.inr ⟨_, rfl, tokens_single h0 hb hlt, rfl⟩
  | double hge => exact Or.inr ⟨_, rfl, tokens_double hge, rfl⟩

/-- What a text opens with is its first token. -/
theorem opens_of_tokens (h : tokens text = t :: ts) :
    ∃ rest, Opens text (some t) rest ∧ ts = tokens rest ∧ text = t.bytes ++ rest := by
  obtain ⟨t', rest, hopens⟩ := exists_opens text
  rcases tokens_of_opens hopens with ⟨-, hnil⟩ | ⟨t'', rfl, hcons, htext⟩
  · rw [hnil] at h
    cases h
  · rw [hcons] at h
    injection h with ht hts
    subst ht
    exact ⟨rest, hopens, hts.symm, htext⟩

/-! ## Boundaries -/

/-- **Reading on from a token boundary**: behind the tokens read come the
tokens of what is left. -/
theorem tokens_drop (h : tokens text = ts ++ us) :
    us = tokens (text.drop (sizeAll ts)) ∧ sizeAll ts ≤ text.length := by
  induction ts generalizing text with
  | nil => exact ⟨h.symm, Nat.zero_le _⟩
  | cons t ts ih =>
    obtain ⟨rest, -, hrest, htext⟩ := opens_of_tokens h
    obtain ⟨hus, hle⟩ := ih hrest.symm
    have hlen : text.length = t.size + rest.length := by
      rw [htext, List.length_append]
      rfl
    have hdrop : text.drop t.size = rest := by rw [htext, Token.drop_bytes]
    refine ⟨?_, by rw [sizeAll_cons]; omega⟩
    rw [hus, sizeAll_cons, ← List.drop_drop, hdrop]

/-- Behind one token come the tokens of what is left. -/
theorem tokens_drop_succ {p : ℕ} (h : tokens (text.drop p) = t :: us) :
    us = tokens (text.drop (p + t.size)) := by
  obtain ⟨rest, -, hrest, htext⟩ := opens_of_tokens h
  rw [← List.drop_drop, htext, hrest, Token.drop_bytes]

/-- Some of the text's tokens end there. -/
def TokenBoundary (text : List UInt8) (o : ℕ) : Prop :=
  ∃ ts us, tokens text = ts ++ us ∧ sizeAll ts = o

theorem tokenBoundary_zero (text : List UInt8) : TokenBoundary text 0 := ⟨[], _, rfl, rfl⟩

/-- From a boundary on the text reads as a text of its own. -/
theorem TokenBoundary.add {k : ℕ} (h : TokenBoundary text o)
    (hk : TokenBoundary (text.drop o) k) : TokenBoundary text (o + k) := by
  obtain ⟨ts, us, htext, rfl⟩ := h
  obtain ⟨ts', us', hrest, rfl⟩ := hk
  rw [← (tokens_drop htext).1] at hrest
  exact ⟨ts ++ ts', us', by rw [htext, hrest, List.append_assoc], sizeAll_append ts ts'⟩

/-- **No boundary lies inside a token.** -/
theorem TokenBoundary.not_inside {k : ℕ} (h : TokenBoundary text o)
    (ht : tokens (text.drop o) = t :: ts) (hk : TokenBoundary text (o + k)) (hpos : 0 < k) :
    t.size ≤ k := by
  obtain ⟨xs, us, htext, rfl⟩ := h
  obtain ⟨ys, vs, htext', hsize⟩ := hk
  rw [← (tokens_drop htext).1] at ht
  subst ht
  rw [htext] at htext'
  rcases List.append_eq_append_iff.1 htext' with ⟨zs, rfl, hzs⟩ | ⟨zs, rfl, -⟩
  · rw [sizeAll_append] at hsize
    cases zs with
    | nil =>
      rw [sizeAll_nil] at hsize
      omega
    | cons z zs =>
      injection hzs with hz
      subst hz
      rw [sizeAll_cons] at hsize
      omega
  · rw [sizeAll_append] at hsize
    omega

/-- A token at the start of a text's start is at the text's. -/
theorem append_of_take {n : ℕ} (h : text.take n = t.bytes ++ rest) :
    t.size ≤ n ∧ text = t.bytes ++ text.drop t.size ∧
      rest = (text.drop t.size).take (n - t.size) := by
  have hn : t.size ≤ n := by
    have hlen := congrArg List.length h
    rw [List.length_take, List.length_append] at hlen
    unfold Token.size
    omega
  refine ⟨hn, ?_, ?_⟩
  · have hfirst := congrArg (List.take t.size) h
    rw [List.take_take, Nat.min_eq_left hn, Token.take_bytes] at hfirst
    rw [← hfirst, List.take_append_drop]
  · have hrest := congrArg (List.drop t.size) h
    rw [Token.drop_bytes, List.drop_take] at hrest
    exact hrest.symm

/-- It is read there as well, unless it is a CR that has its LF cut off. -/
theorem tokens_of_opens_take {start tail : List UInt8} {n : ℕ} (hn : t.size ≤ n)
    (hopens : Opens start (some t) (tail.take (n - t.size))) (htext : text = t.bytes ++ tail)
    (hpair : ¬ (n = 1 ∧ text[0]? = some cr ∧ text[1]? = some lf)) :
    tokens text = t :: tokens tail := by
  subst htext
  generalize hcut : tail.take (n - t.size) = cut at hopens
  cases hopens with
  | crlf => exact tokens_crlf tail
  | @brk b _ hb hlone =>
    refine tokens_brk hb fun hcrlf => ?_
    have hn1 : 1 ≤ n := hn
    rcases Nat.lt_or_ge 1 n with hlong | hshort
    · refine hlone ⟨hcrlf.1, ?_⟩
      rw [← hcut, List.head?_take, if_neg (by show n - 1 ≠ 0; omega)]
      exact hcrlf.2
    · refine hpair ⟨Nat.le_antisymm hshort hn1, ?_, ?_⟩
      · rw [← hcrlf.1]
        rfl
      · rw [← hcrlf.2, List.head?_eq_getElem?]
        rfl
  | single h0 hb hlt => exact tokens_single h0 hb hlt
  | double hge => exact tokens_double hge

/-- **The start of a text reads as the text does**, but for a CR at its
end that the text goes on from with an LF. -/
theorem tokens_of_take {n : ℕ} (h : tokens (text.take n) = ts ++ us)
    (hpair : ¬ (sizeAll ts = n ∧ 0 < n ∧ text[n - 1]? = some cr ∧ text[n]? = some lf)) :
    ∃ us', tokens text = ts ++ us' := by
  induction ts generalizing text n with
  | nil => exact ⟨tokens text, rfl⟩
  | cons t ts ih =>
    rw [List.cons_append] at h
    obtain ⟨rest, hopens, hrest, htake⟩ := opens_of_tokens h
    obtain ⟨hn, htext, rfl⟩ := append_of_take htake
    have hpos := t.size_pos
    obtain ⟨us', hus'⟩ := ih hrest.symm (by
      rintro ⟨hsize, hn, hcr, hlf⟩
      rw [List.getElem?_drop] at hcr hlf
      refine hpair ⟨by rw [sizeAll_cons]; omega, by omega, ?_, ?_⟩
      · rw [← hcr]
        congr 1
        omega
      · rw [← hlf]
        congr 1
        omega)
    refine ⟨us', ?_⟩
    rw [List.cons_append, ← hus']
    refine tokens_of_opens_take hn hopens htext ?_
    rintro ⟨rfl, hcr, hlf⟩
    -- then nothing is left of the start, so the CR is its last token
    have hsize : t.size = 1 := Nat.le_antisymm hn hpos
    have hnone : ts ++ us = [] := by
      rw [hrest, hsize]
      rfl
    refine hpair ⟨?_, Nat.one_pos, hcr, hlf⟩
    rw [(List.append_eq_nil_iff.1 hnone).1, sizeAll_cons, sizeAll_nil, hsize]

/-- A text cut between two of its tokens reads as it did before the cut. -/
theorem tokens_take (h : tokens text = ts ++ us) : tokens (text.take (sizeAll ts)) = ts := by
  induction ts generalizing text with
  | nil => rfl
  | cons t ts ih =>
    rw [List.cons_append] at h
    obtain ⟨rest, hopens, hrest, htext⟩ := opens_of_tokens h
    have htake := ih hrest.symm
    have hcut : text.take (sizeAll (t :: ts)) = t.bytes ++ rest.take (sizeAll ts) := by
      rw [htext, sizeAll_cons]
      exact List.take_length_add_append _
    rw [hcut]
    cases hopens with
    | crlf => exact (tokens_crlf _).trans (congrArg _ htake)
    | @brk b _ hb hpair =>
      have hpair' : ¬ (b = cr ∧ (rest.take (sizeAll ts)).head? = some lf) := by
        rintro ⟨hcr, hhead⟩
        refine hpair ⟨hcr, ?_⟩
        rw [List.head?_take] at hhead
        split at hhead
        · cases hhead
        · exact hhead
      exact (tokens_brk hb hpair').trans (congrArg _ htake)
    | single h0 hb hlt => exact (tokens_single h0 hb hlt).trans (congrArg _ htake)
    | double hge => exact (tokens_double hge).trans (congrArg _ htake)

/-! ## GBK -/

/-- The ranges of a double-byte character. -/
def Token.IsGbk : Token → Prop
  | .double b c => 0x81 ≤ b ∧ 0x40 ≤ c
  | _ => True

instance : (t : Token) → Decidable t.IsGbk
  | .double b c => inferInstanceAs (Decidable (0x81 ≤ b ∧ 0x40 ≤ c))
  | .crlf | .brk _ | .single _ => isTrue trivial

/-- Well-formed GBK text: all of it is tokens, and the double-byte ones are
in range. -/
def GbkText (text : List UInt8) : Prop :=
  sizeAll (tokens text) = text.length ∧ ∀ t ∈ tokens text, t.IsGbk

instance (text : List UInt8) : Decidable (GbkText text) := inferInstanceAs (Decidable (_ ∧ _))

/-- A well-formed text is its first token and a well-formed text. -/
theorem GbkText.cases (h : GbkText text) :
    text = [] ∨ ∃ t rest, Opens text (some t) rest ∧ text = t.bytes ++ rest ∧ t.IsGbk ∧
      GbkText rest := by
  obtain ⟨hsize, hgbk⟩ := h
  obtain ⟨head, rest, hopens⟩ := exists_opens text
  rcases tokens_of_opens hopens with ⟨-, hnil⟩ | ⟨t, rfl, htok, htext⟩
  · rw [hnil, sizeAll_nil] at hsize
    exact Or.inl (List.eq_nil_of_length_eq_zero hsize.symm)
  · rw [htok] at hsize hgbk
    refine Or.inr ⟨t, rest, hopens, htext, hgbk t (List.mem_cons_self ..), ?_,
      fun u hu => hgbk u (List.mem_cons_of_mem _ hu)⟩
    have hlen := congrArg List.length htext
    rw [List.length_append, ← Token.size] at hlen
    rw [sizeAll_cons] at hsize
    omega

/-- Behind any of its boundaries a well-formed text is well formed. -/
theorem GbkText.drop (h : GbkText text) (ho : TokenBoundary text o) : GbkText (text.drop o) := by
  obtain ⟨ts, us, htok, rfl⟩ := ho
  obtain ⟨hsize, hgbk⟩ := h
  obtain ⟨hus, hle⟩ := tokens_drop htok
  rw [GbkText, ← hus]
  rw [htok] at hsize hgbk
  rw [sizeAll_append] at hsize
  refine ⟨?_, fun t ht => hgbk t (List.mem_append_right _ ht)⟩
  rw [List.length_drop]
  omega

/-- No byte of a well-formed text is NUL. -/
theorem GbkText.ne_zero (h : GbkText text) : ∀ b ∈ text, b ≠ 0 := by
  induction hn : text.length using Nat.strongRecOn generalizing text with
  | ind n ih =>
    rcases h.cases with rfl | ⟨t, rest, hopens, htext, hgbk, hrest⟩
    · exact fun b hb => absurd hb List.not_mem_nil
    · have hlen := congrArg List.length htext
      rw [List.length_append, ← Token.size] at hlen
      have hpos := t.size_pos
      have hrest' := ih rest.length (by omega) hrest rfl
      intro b hb
      rw [htext] at hb
      rcases List.mem_append.1 hb with hb | hb
      · cases hopens with
        | crlf => rcases List.mem_pair.1 hb with rfl | rfl <;> decide
        | brk hbrk _ => rw [List.mem_singleton.1 hb]; exact ne_zero_of_brk hbrk
        | single h0 _ _ => rw [List.mem_singleton.1 hb]; exact h0
        | @double lead second _ hge =>
          rcases List.mem_pair.1 hb with rfl | rfl
          · exact ne_zero_of_double hge
          · rintro rfl
            exact absurd hgbk.2 (by decide)
      · exact hrest' b hb

/-- **A CR of a well-formed text starts a token**: it is no second byte. -/
theorem GbkText.boundary_of_cr {i : ℕ} (h : GbkText text) (hi : text[i]? = some cr) :
    TokenBoundary text i := by
  induction hn : text.length using Nat.strongRecOn generalizing text i with
  | ind n ih =>
    rcases h.cases with rfl | ⟨t, rest, hopens, htext, hgbk, hrest⟩
    · cases hi
    have hlen := congrArg List.length htext
    rw [List.length_append, ← Token.size] at hlen
    have hpos := t.size_pos
    rcases Nat.lt_or_ge i t.size with hlt | hge
    · rw [htext, List.getElem?_append_left hlt] at hi
      rcases Nat.eq_zero_or_pos i with rfl | hi0
      · exact tokenBoundary_zero text
      -- the second byte of a pair is an LF, that of a character no CR
      · cases hopens with
        | crlf =>
          have hi1 : i = 1 := by
            have hlt' : i < 2 := hlt
            omega
          rw [hi1] at hi
          exact absurd (Option.some.inj hi) (by decide)
        | brk _ _ =>
          have hlt' : i < 1 := hlt
          omega
        | single _ _ _ =>
          have hlt' : i < 1 := hlt
          omega
        | double _ =>
          have hi1 : i = 1 := by
            have hlt' : i < 2 := hlt
            omega
          rw [hi1] at hi
          have hsecond := hgbk.2
          rw [Option.some.inj hi] at hsecond
          exact absurd hsecond (by decide)
    · have hi' : rest[i - t.size]? = some cr := by
        rw [htext, List.getElem?_append_right hge] at hi
        exact hi
      have hrestBoundary := ih rest.length (by omega) hrest hi' rfl
      have hfirst : TokenBoundary text t.size := by
        rcases tokens_of_opens hopens with ⟨hnone, -⟩ | ⟨t', ht, htok, -⟩
        · cases hnone
        · obtain rfl : t = t' := Option.some.inj ht
          exact ⟨[t], tokens rest, htok, by rw [sizeAll_cons, sizeAll_nil, Nat.add_zero]⟩
      have hdrop : text.drop t.size = rest := by rw [htext, Token.drop_bytes]
      rw [← hdrop] at hrestBoundary
      have hsum := hfirst.add hrestBoundary
      rwa [Nat.add_sub_cancel' hge] at hsum

/-! ## Text in memory -/

/-- The bytes are at `src`, and a NUL behind them. -/
structure Holds (src : Mem) (w : List UInt8) : Prop where
  bytes : ∀ i, i < w.length → w[i]? = some (src i)
  nul : src w.length = 0

/-- The token the pointer is at, by the bytes a loop looks at. -/
inductive TokenAt (src : Mem) (p : ℕ) : Token → Prop
  | crlf : src p = cr → src (p + 1) = lf → TokenAt src p .crlf
  | brk : src p = lf ∨ src p = cr → ¬ (src p = cr ∧ src (p + 1) = lf) →
      TokenAt src p (.brk (src p))
  | single : src p ≠ 0 → ¬ (src p = lf ∨ src p = cr) → src p < 0x80 →
      TokenAt src p (.single (src p))
  | double : 0x80 ≤ src p → TokenAt src p (.double (src p) (src (p + 1)))

variable {src : Mem} {w : List UInt8} {p : ℕ}

/-- The text at `src` up to its NUL. -/
theorem holds_str {n : ℕ} (hnul : src n = 0) : Holds src (Mem.str src n) where
  bytes := by
    intro i hi
    rw [Mem.str_length] at hi
    rw [Mem.str, List.getElem?_map, List.getElem?_range hi]
    rfl
  nul := by
    rw [Mem.str_length]
    rcases Nat.lt_or_eq_of_le (Mem.strnlen_le src n) with hlt | heq
    · exact Mem.zero_of_strnlen_lt hlt
    · rw [heq]
      exact hnul

/-- As many bytes as there are before a NUL. -/
theorem holds_range {n : ℕ} (hnul : src n = 0) : Holds src ((List.range n).map src) where
  bytes := by
    intro i hi
    rw [List.length_map, List.length_range] at hi
    rw [List.getElem?_map, List.getElem?_range hi]
    rfl
  nul := by
    rw [List.length_map, List.length_range]
    exact hnul

/-- What is left of the text opens with the byte the pointer is at. -/
theorem Holds.head (h : Holds src w) (hdrop : w.drop p = b :: rest) :
    src p = b ∧ p < w.length ∧ rest = w.drop (p + 1) := by
  have hlt : p < w.length := by
    by_contra hge
    rw [List.drop_eq_nil_iff.2 (Nat.not_lt.1 hge)] at hdrop
    cases hdrop
  have hbyte := h.bytes p hlt
  rw [List.drop_eq_getElem_cons hlt] at hdrop
  injection hdrop with hb hrest
  rw [List.getElem?_eq_getElem hlt, hb] at hbyte
  exact ⟨(Option.some.inj hbyte).symm, hlt, hrest.symm⟩

/-- And goes on with the next one. -/
theorem Holds.drop_succ (h : Holds src w) (hp : p < w.length) :
    w.drop p = src p :: w.drop (p + 1) := by
  have hbyte := h.bytes p hp
  rw [List.getElem?_eq_getElem hp] at hbyte
  rw [List.drop_eq_getElem_cons hp, Option.some.inj hbyte]

/-- Behind the last byte is the NUL. -/
theorem Holds.next (h : Holds src w) (hp : p < w.length) :
    (w.drop (p + 1)).head? = some lf ↔ src (p + 1) = lf := by
  rcases Nat.lt_or_ge (p + 1) w.length with hlt | hge
  · rw [h.drop_succ hlt, List.head?_cons, Option.some.injEq]
  · have hend : p + 1 = w.length := by omega
    rw [List.drop_eq_nil_iff.2 hge, hend, h.nul]
    constructor
    · intro hnone
      cases hnone
    · intro hlf
      exact absurd hlf (by decide)

/-- **The first token left of the text is the one the pointer is at.** -/
theorem Holds.tokenAt (h : Holds src w) (htok : tokens (w.drop p) = t :: ts) :
    TokenAt src p t := by
  obtain ⟨rest, hopens, -, -⟩ := opens_of_tokens htok
  generalize hdrop : w.drop p = text at hopens
  cases hopens with
  | crlf rest =>
    obtain ⟨hcr, -, hrest⟩ := h.head hdrop
    exact .crlf hcr (h.head hrest.symm).1
  | @brk b rest hb hpair =>
    obtain ⟨rfl, hlt, rfl⟩ := h.head hdrop
    exact .brk hb fun hcrlf => hpair ⟨hcrlf.1, (h.next hlt).2 hcrlf.2⟩
  | single h0 hb hlt =>
    obtain ⟨rfl, -, -⟩ := h.head hdrop
    exact .single h0 hb hlt
  | double hge =>
    obtain ⟨rfl, -, hrest⟩ := h.head hdrop
    obtain ⟨rfl, -, -⟩ := h.head hrest.symm
    exact .double hge

/-- And the token the pointer is at is the first one left, if all of it
belongs to the text. -/
theorem TokenAt.tokens_eq (h : TokenAt src p t) (hw : Holds src w)
    (hfits : p + t.size ≤ w.length) : tokens (w.drop p) = t :: tokens (w.drop (p + t.size)) := by
  have hlt : p < w.length := by
    have := t.size_pos
    omega
  rw [hw.drop_succ hlt]
  cases h with
  | crlf hcr hlf =>
    have hlt' : p + 1 < w.length := hfits
    rw [hw.drop_succ hlt', hcr, hlf]
    exact tokens_crlf _
  | brk hb hpair =>
    exact tokens_brk hb fun hcrlf => hpair ⟨hcrlf.1, (hw.next hlt).1 hcrlf.2⟩
  | single h0 hb h80 => exact tokens_single h0 hb h80
  | double hge =>
    have hlt' : p + 1 < w.length := hfits
    rw [hw.drop_succ hlt']
    exact tokens_double hge

/-- At a byte that is not NUL there is a token. -/
theorem exists_tokenAt (h0 : src p ≠ 0) : ∃ t, TokenAt src p t := by
  by_cases hpair : src p = cr ∧ src (p + 1) = lf
  · exact ⟨_, .crlf hpair.1 hpair.2⟩
  by_cases hb : src p = lf ∨ src p = cr
  · exact ⟨_, .brk hb hpair⟩
  by_cases hlt : src p < 0x80
  · exact ⟨_, .single h0 hb hlt⟩
  · exact ⟨_, .double (UInt8.not_lt.1 hlt)⟩

/-- And the byte at a token is not NUL. -/
theorem TokenAt.ne_zero (h : TokenAt src p t) : src p ≠ 0 := by
  cases h with
  | crlf hcr _ => rw [hcr]; decide
  | brk hb _ => exact ne_zero_of_brk hb
  | single h0 _ _ => exact h0
  | double hge => exact ne_zero_of_double hge

/-- A token is two columns wide exactly when its byte is one from `0x80` on. -/
theorem TokenAt.item_eq_iff (h : TokenAt src p t) : t.item = .box 2 ↔ 0x80 ≤ src p := by
  cases h with
  | crlf hcr _ =>
    rw [hcr]
    exact iff_of_false (fun hbox => by cases hbox) (by decide)
  | brk hb _ =>
    exact iff_of_false (fun hbox => by cases hbox) (UInt8.not_le.2 (lt_of_brk hb))
  | single _ _ hlt =>
    exact iff_of_false (fun hbox => by cases hbox) (UInt8.not_le.2 hlt)
  | double hge => exact ⟨fun _ => hge, fun _ => rfl⟩

/-- A token that runs over the text's end is a half character. -/
theorem TokenAt.half (h : TokenAt src p t) (hw : Holds src w) (hp : p < w.length)
    (hover : w.length < p + t.size) : p + 1 = w.length ∧ 0x80 ≤ src p ∧ t.size = 2 := by
  cases h with
  | crlf hcr hlf =>
    have hover' : w.length < p + 2 := hover
    have hend : p + 1 = w.length := by omega
    rw [hend, hw.nul] at hlf
    exact absurd hlf (by decide)
  | brk _ _ =>
    have hover' : w.length < p + 1 := hover
    omega
  | single _ _ _ =>
    have hover' : w.length < p + 1 := hover
    omega
  | double hge =>
    have hover' : w.length < p + 2 := hover
    exact ⟨by omega, hge, rfl⟩

/-- Where no token is left, but a byte, it is half a character. -/
theorem Holds.half_of_nil (hw : Holds src w) (hp : p < w.length) (h0 : src p ≠ 0)
    (h : tokens (w.drop p) = []) : p + 1 = w.length ∧ 0x80 ≤ src p := by
  obtain ⟨t, ht⟩ := exists_tokenAt h0
  have hover : w.length < p + t.size := by
    by_contra hfits
    rw [ht.tokens_eq hw (Nat.not_lt.1 hfits)] at h
    cases h
  obtain ⟨hend, hge, -⟩ := ht.half hw hp hover
  exact ⟨hend, hge⟩

end RtSpark
