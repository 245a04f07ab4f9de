import RtSpark.Reader.Greedy
import RtSpark.Reader.Progress
/-!
# Page boundaries and tokens

A page ends where the cut of its window is, and the cut lies between two
tokens of the window. The window's tokens are the file's, with one
exception: the last byte of the window is a CR, the byte behind it in the
file an LF, and the page takes the whole window. `HalfWordFilter` looks for
half a character there, and nothing looks for half a line end.
-/

namespace RtSpark

namespace Reader

open Grid

variable {file : List UInt8} {o k : ℕ} {beyond : Mem}

/-! ## The window of a page -/

/-- The bytes a full `read()` delivers. -/
def windowAt (file : List UInt8) (o : ℕ) : List UInt8 := (file.drop o).take maxCharsDisp

/-- The window from `o` on ends between a CR and its LF, and all of it goes
onto the page. -/
def SplitsPair (file : List UInt8) (o : ℕ) : Prop :=
  (file.drop o)[maxCharsDisp - 1]? = some cr ∧ (file.drop o)[maxCharsDisp]? = some lf ∧
    Fits maxColumnSize maxLineSize .origin (items (tokens (windowAt file o)))

instance (file : List UInt8) (o : ℕ) : Decidable (SplitsPair file o) :=
  inferInstanceAs (Decidable (_ ∧ _ ∧ _))

/-- A full read leaves the window and its NUL. -/
theorem holds_readBuf (file : List UInt8) (o : ℕ) (beyond : Mem) :
    Holds (readBuf file o 180 beyond) (windowAt file o) where
  bytes := by
    intro i hi
    have hlen : i < 181 := by
      rw [windowAt, List.length_take, maxCharsDisp_eq] at hi
      omega
    rw [readBuf_of_lt hlen, List.getD_eq_getElem?_getD, Nat.min_self]
    rw [windowAt, maxCharsDisp_eq] at hi ⊢
    rw [List.getElem?_eq_getElem hi]
    rfl
  nul := readBuf_nul

/-- The window of a well-formed file has no NUL before its end. -/
theorem window_ne_zero (hfile : GbkText file) (o : ℕ) (beyond : Mem) :
    ∀ i, i < (windowAt file o).length → readBuf file o 180 beyond i ≠ 0 := by
  intro i hi
  have hbyte := (holds_readBuf file o beyond).bytes i hi
  have hmem := List.mem_of_getElem? hbyte
  exact hfile.ne_zero _ (List.mem_of_mem_drop (List.mem_of_mem_take hmem))

/-! ## One page -/

/-- **A page that splits no pair ends at a boundary of what is left of the
file.** -/
theorem boundary_of_cut (hsplits : ¬ SplitsPair file o) :
    TokenBoundary (file.drop o) (windowCut file o 180 beyond) := by
  have hw := holds_readBuf file o beyond
  obtain ⟨s, hs, hp, -⟩ := cut_visited (readBuf file o 180 beyond) 9 (L := 20) (by decide)
  have hle : s.p ≤ (windowAt file o).length := by
    rw [hp]
    exact windowCut_le_delivered file o 180 beyond
  obtain ⟨ts, us, htok, hsize, hfits, -⟩ := stands_of_reaches hw (by decide) hs hle
  have hcut : sizeAll ts = windowCut file o 180 beyond := hsize.trans hp
  obtain ⟨us', hus'⟩ := tokens_of_take htok (by
    rintro ⟨hend, -, hcr, hlf⟩
    refine hsplits ⟨hcr, hlf, ?_⟩
    -- the whole window is on the page
    have hnone : us = [] := by
      rw [(tokens_drop htok).1, List.drop_eq_nil_iff.2]
      · rfl
      · rw [hend, windowAt]
        exact List.length_take_le ..
    rw [hnone, List.append_nil] at htok
    rw [htok]
    exact hfits)
  exact ⟨ts, us', hus', hcut⟩

/-- A window that ends in a CR falls into whole tokens. -/
theorem sizeAll_of_last_cr (hfile : GbkText file) (hcr : (file.drop o)[179]? = some cr) :
    sizeAll (tokens (windowAt file o)) = 180 := by
  have hw := holds_readBuf file o Mem.zeros
  have hne := window_ne_zero hfile o Mem.zeros
  have hlen : (windowAt file o).length = 180 := by
    have hlt := (List.getElem?_eq_some_iff.1 hcr).1
    rw [windowAt, List.length_take, maxCharsDisp_eq]
    omega
  have hcr' : readBuf file o 180 Mem.zeros 179 = cr := by
    have hbyte := hw.bytes 179 (by omega)
    rw [windowAt, List.getElem?_take_of_lt (by decide), hcr] at hbyte
    exact (Option.some.inj hbyte).symm
  obtain ⟨hnil, hle⟩ := tokens_drop (List.append_nil (tokens (windowAt file o))).symm
  rcases Nat.lt_or_eq_of_le hle with hlt | heq
  · rcases end_of_tokens_nil hw hne hle hnil.symm with h0 | ⟨hge, h1⟩
    · exact absurd h0 (hne _ hlt)
    · -- half a character is the last byte, and that is the CR
      have hlast : sizeAll (tokens (windowAt file o)) = 179 := by
        by_contra hin
        exact hne _ (by omega) h1
      rw [hlast, hcr'] at hge
      exact absurd hge (by decide)
  · rw [heq, hlen]

/-- **A page that splits a pair ends inside it.** -/
theorem not_boundary_of_splits (beyond : Mem) (hfile : GbkText file) (ho : TokenBoundary file o)
    (hsplits : SplitsPair file o) :
    ¬ TokenBoundary file (o + windowCut file o 180 beyond) := by
  obtain ⟨hcr, hlf, hfits⟩ := hsplits
  rw [maxCharsDisp_eq] at hcr hlf
  have hcr' : (file.drop o)[179]? = some cr := hcr
  have hlongest : LongestFit 9 20 (windowAt file o) (windowCut file o 180 beyond) :=
    cut_longest (holds_readBuf file o beyond) (window_ne_zero hfile o beyond) 9 (by decide)
  have hcut : windowCut file o 180 beyond = 180 := by
    have hall := hlongest.2 (tokens (windowAt file o)).length
      (by rw [List.take_length]; exact hfits)
    rw [List.take_length, sizeAll_of_last_cr hfile hcr'] at hall
    exact Nat.le_antisymm (windowCut_le file o 180 beyond).1 hall
  intro hboundary
  have hstart : TokenBoundary file (o + 179) := ho.add ((hfile.drop ho).boundary_of_cr hcr')
  have hpair : ∃ ts, tokens (file.drop (o + 179)) = .crlf :: ts := by
    rw [← List.drop_drop]
    obtain ⟨hlt, hbyte⟩ := List.getElem?_eq_some_iff.1 hcr'
    obtain ⟨hlt', hbyte'⟩ := List.getElem?_eq_some_iff.1 hlf
    rw [List.drop_eq_getElem_cons hlt, hbyte, List.drop_eq_getElem_cons hlt', hbyte']
    exact ⟨_, tokens_crlf _⟩
  obtain ⟨ts, hts⟩ := hpair
  have hend : o + 179 + 1 = o + windowCut file o 180 beyond := by omega
  rw [← hend] at hboundary
  exact absurd (hstart.not_inside hts hboundary Nat.one_pos) (by decide)

/-! ## All pages -/

/-- Where a page starts: behind the bytes of those before it. -/
def pageStart (pages : List PageInfo) (k : ℕ) : ℕ := ((pages.take k).map PageInfo.aPageBytes).sum

theorem pageStart_succ (pages : List PageInfo) (hk : k < pages.length) :
    pageStart pages (k + 1) = pageStart pages k + pages[k].aPageBytes := by
  rw [pageStart, List.take_succ_eq_append_getElem hk, List.map_append, List.sum_append,
    List.map_singleton, List.sum_singleton]
  rfl

theorem pageStart_append (pages : List PageInfo) (page : PageInfo) (hk : k ≤ pages.length) :
    pageStart (pages ++ [page]) k = pageStart pages k := by
  rw [pageStart, List.take_append_of_le_length hk]
  rfl

/-- What the passes of `Read` keep: every page is the cut of the window at
its start, and the next one starts where the loop is. -/
structure Cuts (file : List UInt8) (s : ReadState) : Prop where
  next : s.offsetNext = pageStart s.pageCache s.pageCache.length
  cut : ∀ k (hk : k < s.pageCache.length), ∃ beyond,
    s.pageCache[k].aPageBytes = windowCut file (pageStart s.pageCache k) 180 beyond

theorem cuts_init (file : List UInt8) : Cuts file ⟨0, 0, []⟩ where
  next := rfl
  cut := fun k hk => absurd hk (Nat.not_lt_zero k)

theorem cuts_pass {c : ReadCall} {s s' : ReadState} (hc : c.result = .bytes 180)
    (h : Cuts file s) (hpass : readPass file c s = .ok s') : Cuts file s' := by
  obtain ⟨hnext, hcut⟩ := h
  obtain ⟨page, heq, -, hbytes, -⟩ := readPass_bytes file s hc
  rw [heq] at hpass
  cases hpass
  have hlast : ∀ hk : s.pageCache.length < (s.pageCache ++ [page]).length,
      (s.pageCache ++ [page])[s.pageCache.length] = page := fun _ =>
    List.getElem_concat_length rfl _
  refine ⟨?_, fun k hk => ?_⟩
  · have hlen : s.pageCache.length < (s.pageCache ++ [page]).length := by
      rw [List.length_append]
      exact Nat.lt_succ_self _
    have hstart := pageStart_succ (s.pageCache ++ [page]) hlen
    rw [hlast hlen, pageStart_append _ _ (Nat.le_refl _), ← hnext, hbytes] at hstart
    simp only [List.length_append, List.length_cons, List.length_nil]
    exact hstart.symm
  · simp only at hk ⊢
    rcases Nat.lt_or_ge k s.pageCache.length with hlt | hge
    · rw [List.getElem_append_left hlt, pageStart_append _ _ hlt.le]
      exact hcut k hlt
    · have hk' : k = s.pageCache.length := by
        rw [List.length_append, List.length_singleton] at hk
        omega
      subst hk'
      rw [hlast hk, pageStart_append _ _ (Nat.le_refl _), ← hnext, hbytes]
      exact ⟨c.beyond, rfl⟩

/-- So does the loop. -/
theorem cuts_readLoop (fileSize : ℕ) : ∀ (reads : List ReadCall) (s : ReadState),
    FullReads reads → Cuts file s → Cuts file (readLoop file fileSize reads s).state := by
  intro reads
  induction reads with
  | nil =>
    intro s _ hs
    by_cases htot : s.total = fileSize
    · rw [readLoop_done htot]
      exact hs
    · rw [readLoop_nil htot]
      exact hs
  | cons c cs ih =>
    intro s hfull hs
    by_cases htot : s.total = fileSize
    · rw [readLoop_done htot]
      exact hs
    · have hc : c.result = .bytes 180 := hfull c (List.mem_cons_self ..)
      obtain ⟨page, hpass, -⟩ := readPass_bytes file s hc
      rw [readLoop_ok htot hpass]
      exact ih _ (fun c hc => hfull c (List.mem_cons_of_mem _ hc)) (cuts_pass hc hs hpass)

theorem cuts_read (c : LoadCalls) (fileSize : ℕ) (fds : Finset ℕ) (hreads : FullReads c.reads) :
    Cuts c.file (read c fileSize [] fds).1.state := by
  cases hopen : c.openRead with
  | false =>
    rw [read_of_not_open hopen]
    exact cuts_init c.file
  | true =>
    rw [read_fst_of_open hopen]
    exact cuts_readLoop fileSize c.reads _ hreads (cuts_init c.file)

/-- Where the pages start. -/
def pageStarts (pages : List PageInfo) : List ℕ := (List.range pages.length).map (pageStart pages)

theorem pageStarts_concat (pages : List PageInfo) (page : PageInfo) :
    pageStarts (pages ++ [page]) = pageStarts pages ++ [pageStart pages pages.length] := by
  rw [pageStarts, List.length_append, List.length_singleton, List.range_succ, List.map_append,
    List.map_singleton, pageStart_append _ _ (Nat.le_refl _), pageStarts]
  congr 1
  exact List.map_congr_left fun k hk => pageStart_append _ _ (List.mem_range.1 hk).le

/-- The offsets that so many reads page, from `o` on: each page takes the
tokens of its window that fit, up to the file's size. -/
def pageOffsets (file : List UInt8) (fileSize : ℕ) : ℕ → ℕ → List ℕ
  | 0, _ => []
  | n + 1, o =>
    if o = fileSize then []
    else o :: pageOffsets file fileSize n
      (o + fitting maxColumnSize maxLineSize .origin (tokens (windowAt file o)))

/-- **The pages of a well-formed file start where the tokens that fit
leave off.** -/
theorem pageStarts_readLoop (hfile : GbkText file) (hlen : file.length < 2 ^ 32) (fileSize : ℕ) :
    ∀ (reads : List ReadCall) (s : ReadState), FullReads reads → Cuts file s →
      Paged file [] s →
      pageStarts (readLoop file fileSize reads s).state.pageCache =
        pageStarts s.pageCache ++ pageOffsets file fileSize reads.length s.offsetNext := by
  intro reads
  induction reads with
  | nil =>
    intro s _ _ _
    rw [List.length_nil, pageOffsets, List.append_nil]
    by_cases htot : s.total = fileSize
    · rw [readLoop_done htot]
    · rw [readLoop_nil htot]
  | cons c cs ih =>
    intro s hfull hs hpaged
    rw [List.length_cons, pageOffsets]
    by_cases htot : s.total = fileSize
    · rw [readLoop_done htot, if_pos (hpaged.total.symm.trans htot), List.append_nil]
    · have hc : c.result = .bytes 180 := hfull c (List.mem_cons_self ..)
      obtain ⟨page, hpass, -⟩ := readPass_bytes file s hc
      have hfit : windowCut file s.offsetNext 180 c.beyond =
          fitting maxColumnSize maxLineSize .origin (tokens (windowAt file s.offsetNext)) :=
        longestFit_iff.1 (cut_longest (holds_readBuf file s.offsetNext c.beyond)
          (window_ne_zero hfile s.offsetNext c.beyond) maxColumnSize (by decide))
      rw [readLoop_ok htot hpass, ih _ (fun c hc => hfull c (List.mem_cons_of_mem _ hc))
        (cuts_pass hc hs hpass) (paged_pass hlen hpaged hpass), pageStarts_concat, ← hs.next,
        hfit, if_neg (fun h => htot (hpaged.total.trans h)), List.append_assoc]
      rfl

theorem forall_pageStarts {P : ℕ → Prop} {pages : List PageInfo} :
    (∀ o ∈ pageStarts pages, P o) ↔ ∀ k < pages.length, P (pageStart pages k) := by
  simp only [pageStarts, List.forall_mem_map, List.mem_range]

/-- The starts of the pages are known before the file is read. -/
theorem forall_pageOffsets {P : ℕ → Prop} (c : LoadCalls) (fileSize : ℕ) (fds : Finset ℕ)
    (hfile : GbkText c.file) (hreads : FullReads c.reads) :
    (c.openRead = true → ∀ o ∈ pageOffsets c.file fileSize c.reads.length 0, P o) ↔
      ∀ k < (read c fileSize [] fds).1.state.pageCache.length,
        P (pageStart (read c fileSize [] fds).1.state.pageCache k) := by
  cases hopen : c.openRead with
  | false =>
    rw [read_of_not_open hopen]
    exact ⟨fun _ k hk => absurd hk (Nat.not_lt_zero k), fun _ h => by cases h⟩
  | true =>
    have hloop := pageStarts_readLoop hfile c.fits fileSize c.reads _ hreads
      (cuts_init c.file) (paged_init [])
    rw [read_fst_of_open hopen, ← forall_pageStarts, hloop]
    exact ⟨fun h => h rfl, fun h _ => h⟩

/-- **Pages end between tokens exactly where no page splits a pair.** -/
theorem read_boundaries_iff (c : LoadCalls) (fileSize : ℕ) (fds : Finset ℕ)
    (hfile : GbkText c.file) (hreads : FullReads c.reads) :
    (∀ k ≤ (read c fileSize [] fds).1.state.pageCache.length,
        TokenBoundary c.file (pageStart (read c fileSize [] fds).1.state.pageCache k)) ↔
      (c.openRead = true →
        ∀ o ∈ pageOffsets c.file fileSize c.reads.length 0, ¬ SplitsPair c.file o) := by
  rw [forall_pageOffsets c fileSize fds hfile hreads]
  obtain ⟨-, hcut⟩ := cuts_read c fileSize fds hreads
  generalize (read c fileSize [] fds).1.state.pageCache = pages at hcut
  constructor
  · intro hall k hk hsplits
    obtain ⟨beyond, hbytes⟩ := hcut k hk
    have hend := hall (k + 1) hk
    rw [pageStart_succ pages hk, hbytes] at hend
    exact not_boundary_of_splits beyond hfile (hall k hk.le) hsplits hend
  · intro hnone k
    induction k with
    | zero => exact fun _ => tokenBoundary_zero c.file
    | succ k ih =>
      intro hk
      obtain ⟨beyond, hbytes⟩ := hcut k hk
      rw [pageStart_succ pages hk, hbytes]
      exact (ih (Nat.le_of_succ_le hk)).add (boundary_of_cut (hnone k hk))

/-- Twelve lines of a character each. -/
def twelveLines : LoadCalls where
  file := (List.replicate 12 [0xB0, 0xA1, cr, lf]).flatten
  fits := by decide +kernel
  openLoad := true
  openSize := true
  openRead := true
  reads := [⟨.bytes 180, Mem.zeros⟩, ⟨.bytes 180, Mem.zeros⟩]

/-- They come to two pages, the first of nine lines. -/
theorem read_boundaries_iff_two_pages :
    (read twelveLines 48 [] ∅).1.state.pageCache.length = 2 ∧
      pageStart (read twelveLines 48 [] ∅).1.state.pageCache 1 = 36 ∧
      ∀ k ≤ (read twelveLines 48 [] ∅).1.state.pageCache.length,
        TokenBoundary twelveLines.file
          (pageStart (read twelveLines 48 [] ∅).1.state.pageCache k) := by
  have hfile : GbkText twelveLines.file := by decide +kernel
  have hreads : FullReads twelveLines.reads := by
    intro c hc
    simp only [twelveLines, List.mem_cons, List.not_mem_nil, or_false, or_self] at hc
    rw [hc]
  have hnone : ∀ o ∈ pageOffsets twelveLines.file 48 twelveLines.reads.length 0,
      ¬ SplitsPair twelveLines.file o := by decide +kernel
  exact ⟨by decide +kernel, by decide +kernel,
    (read_boundaries_iff twelveLines 48 ∅ hfile hreads).2 fun _ => hnone⟩

/-- A line of 19 letters, 158 letters more, and a line end at bytes 179 and
180, all of it well-formed. -/
def pairAtEnd : LoadCalls where
  file := List.replicate 19 0x61 ++ [cr, lf] ++ List.replicate 158 0x61 ++ [cr, lf]
  fits := by decide +kernel
  openLoad := true
  openSize := true
  openRead := true
  reads := [⟨.bytes 180, Mem.zeros⟩, ⟨.bytes 180, Mem.zeros⟩]

/-- Its second page starts at byte 180, with the LF. -/
theorem read_splits_pair :
    GbkText pairAtEnd.file ∧ FullReads pairAtEnd.reads ∧
      (read pairAtEnd 181 [] ∅).1.ret = some 2 ∧
      pageStart (read pairAtEnd 181 [] ∅).1.state.pageCache 1 = 180 ∧
      ¬ TokenBoundary pairAtEnd.file 180 := by
  have hfile : GbkText pairAtEnd.file := by decide +kernel
  have hsplits : SplitsPair pairAtEnd.file 0 := by decide +kernel
  have hcut : windowCut pairAtEnd.file 0 180 Mem.zeros = 180 := by decide +kernel
  refine ⟨hfile, ?_, by decide +kernel, by decide +kernel, ?_⟩
  · intro c hc
    rcases List.mem_pair.1 hc with rfl | rfl <;> rfl
  · have hnot := not_boundary_of_splits Mem.zeros hfile (tokenBoundary_zero _) hsplits
    rw [hcut, Nat.zero_add] at hnot
    exact hnot

end Reader

end RtSpark
