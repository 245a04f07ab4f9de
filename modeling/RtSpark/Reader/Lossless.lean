import RtSpark.Reader.Paginate
import RtSpark.Reader.Model.Reader
/-!
# The pagination loop is lossless

`readPass_bytes` is the one fact about a pass: a `read()` that delivers
adds the page of text the cut names and moves on by its length, so `Add`
never refuses. `Paged` is the invariant the passes keep, and what `Read`
returned fixes where the loop stopped.
-/

namespace RtSpark

namespace Reader

variable {file : List UInt8} {offset count fileSize i : ℕ} {beyond : Mem}

/-- The text of a list of pages, in order. -/
def pagesText (pages : List PageInfo) : List UInt8 :=
  pages.flatMap fun page => page.content.chars

theorem pagesText_append (ps qs : List PageInfo) :
    pagesText (ps ++ qs) = pagesText ps ++ pagesText qs :=
  List.flatMap_append

/-! ## The window -/

theorem readBuf_of_lt (hi : i < 181) :
    readBuf file offset count beyond i = ((file.drop offset).take (min count 180)).getD i 0 :=
  if_pos hi

/-- Behind the bytes delivered the window is NUL. -/
theorem readBuf_nul :
    readBuf file offset count beyond ((file.drop offset).take (min count 180)).length = 0 := by
  have hle : ((file.drop offset).take (min count 180)).length < 181 := by
    rw [List.length_take]
    omega
  rw [readBuf_of_lt hle, List.getD_eq_getElem?_getD, List.getElem?_eq_none (Nat.le_refl _)]
  rfl

/-- The cut of the window one `read()` fills. -/
def windowCut (file : List UInt8) (offset count : ℕ) (beyond : Mem) : ℕ :=
  dispSizeCalculator (readBuf file offset count beyond) maxColumnSize maxLineSize

/-- The cut lies within what was delivered, so within a page and within
the file. -/
theorem windowCut_le_delivered (file : List UInt8) (offset count : ℕ) (beyond : Mem) :
    windowCut file offset count beyond ≤
      ((file.drop offset).take (min count 180)).length :=
  cut_le readBuf_nul

theorem windowCut_le (file : List UInt8) (offset count : ℕ) (beyond : Mem) :
    windowCut file offset count beyond ≤ 180 ∧
      windowCut file offset count beyond ≤ file.length - offset := by
  have h := windowCut_le_delivered file offset count beyond
  rw [List.length_take, List.length_drop] at h
  omega

/-- The bytes before the cut are the file's. -/
theorem readBuf_of_lt_cut (hi : i < windowCut file offset count beyond) :
    (file.drop offset)[i]? = some (readBuf file offset count beyond i) := by
  have hle := windowCut_le_delivered file offset count beyond
  have h180 := (windowCut_le file offset count beyond).1
  have hlt : i < ((file.drop offset).take (min count 180)).length := by omega
  rw [readBuf_of_lt (by omega), List.getD_eq_getElem?_getD, List.getElem?_eq_getElem hlt,
    List.getElem_take]
  exact List.getElem?_eq_getElem _

theorem map_readBuf : (List.range (windowCut file offset count beyond)).map
    (readBuf file offset count beyond)
      = (file.drop offset).take (windowCut file offset count beyond) := by
  have hle := (windowCut_le file offset count beyond).2
  refine List.ext_getElem ?_ fun i hi hi' => ?_
  · rw [List.length_map, List.length_range, List.length_take, List.length_drop]
    omega
  · rw [List.length_map, List.length_range] at hi
    rw [List.getElem_map, List.getElem_range, List.getElem_take]
    have hsome := readBuf_of_lt_cut hi
    have hlt : i < (file.drop offset).length := by rw [List.length_drop]; omega
    rw [List.getElem?_eq_getElem hlt] at hsome
    exact (Option.some.inj hsome).symm

/-! ## `Add` -/

/-- The string a page array receives from text that fits it. -/
theorem strcpy_chars {src : Mem} {n : ℕ} (hn : n ≤ 180) (hne : ∀ i, i < n → src i ≠ 0) :
    (CString.strcpy (Nat.succ_pos maxCharsDisp) (Mem.strncpy Mem.zeros src n)).chars
      = (List.range n).map src := by
  have hcopy : ∀ i, i < n → Mem.strncpy Mem.zeros src n i = src i := fun i hi =>
    Mem.strncpy_of_ne_zero hi fun j hj => hne j (by omega)
  have hlen : Mem.strnlen (Mem.strncpy Mem.zeros src n) 180 = n :=
    Mem.strnlen_eq hn (fun i hi => by rw [hcopy i hi]; exact hne i hi)
      (Or.inr (Mem.strncpy_zeros_of_ge (Nat.le_refl n)))
  simp only [CString.strcpy, Mem.str, maxCharsDisp_eq, hlen]
  exact List.map_congr_left fun i hi => hcopy i (List.mem_range.1 hi)

/-- What `Read` promises of the page at index `k`. -/
structure PageOK (k : ℕ) (page : PageInfo) : Prop where
  bytes : page.aPageBytes = page.content.strlen
  fits : page.aPageBytes ≤ maxCharsDisp
  number : page.pageNumber = (k + 1) % 2 ^ 16

/-- **Text that fits a page is added.** -/
theorem add_text (src : Mem) {n : ℕ} (pageCache : List PageInfo) (hn : n ≤ 180)
    (hne : ∀ i, i < n → src i ≠ 0) :
    ∃ page, add pageCache src n = some (pageCache ++ [page]) ∧
      page.content.chars = (List.range n).map src ∧ page.aPageBytes = n ∧
      PageOK pageCache.length page := by
  have hchars := strcpy_chars hn hne
  have hlen : (CString.strcpy (Nat.succ_pos maxCharsDisp)
      (Mem.strncpy Mem.zeros src n)).strlen = n := by
    rw [CString.strlen, hchars, List.length_map, List.length_range]
  exact ⟨_, if_neg (not_not_intro hlen.symm), hchars, rfl, hlen.symm, hn, rfl⟩

/-! ## One pass -/

/-- **A `read()` that delivers adds a page**: the text up to the cut. -/
theorem readPass_bytes (file : List UInt8) (s : ReadState) {c : ReadCall}
    (hc : c.result = .bytes count) :
    ∃ page, readPass file c s = .ok {
        offsetNext := s.offsetNext + windowCut file s.offsetNext count c.beyond
        total := (s.total + windowCut file s.offsetNext count c.beyond) % 2 ^ 32
        pageCache := s.pageCache ++ [page] } ∧
      page.content.chars
        = (file.drop s.offsetNext).take (windowCut file s.offsetNext count c.beyond) ∧
      page.aPageBytes = windowCut file s.offsetNext count c.beyond ∧
      PageOK s.pageCache.length page := by
  obtain ⟨page, hadd, hchars, hbytes, hok⟩ := add_text
    (readBuf file s.offsetNext count c.beyond) s.pageCache (windowCut_le _ _ _ _).1
    fun i hi => ne_zero_of_lt_cut hi
  refine ⟨page, ?_, by rw [hchars, map_readBuf], hbytes, hok⟩
  simp only [readPass, hc]
  rw [windowCut] at hadd
  rw [hadd]
  rfl

theorem readPass_error {c : ReadCall} {s : ReadState} (hc : c.result = .error) :
    readPass file c s = .error (-2) := by
  simp only [readPass, hc]

/-! ## The run -/

/-- The loop's invariant, over the pages it found in the cache: the pages
it added hold the file up to the next offset, which is the bytes paged. -/
structure Paged (file : List UInt8) (found : List PageInfo) (s : ReadState) : Prop where
  offset : s.offsetNext ≤ file.length
  total : s.total = s.offsetNext
  pages : ∃ added, s.pageCache = found ++ added ∧ pagesText added = file.take s.offsetNext ∧
    ∀ k (hk : k < added.length), PageOK (found.length + k) added[k]

theorem paged_init (found : List PageInfo) : Paged file found ⟨0, 0, found⟩ where
  offset := Nat.zero_le _
  total := rfl
  pages := ⟨[], (List.append_nil _).symm, rfl, fun k hk => absurd hk (Nat.not_lt_zero k)⟩

theorem Paged.text {found : List PageInfo} {s : ReadState} (h : Paged file found s) :
    pagesText s.pageCache = pagesText found ++ file.take s.offsetNext := by
  obtain ⟨added, hcache, htext, -⟩ := h.pages
  rw [hcache, pagesText_append, htext]

/-- **A pass keeps the invariant.** -/
theorem paged_pass {found : List PageInfo} {c : ReadCall} {s s' : ReadState}
    (hlen : file.length < 2 ^ 32) (h : Paged file found s) (hpass : readPass file c s = .ok s') :
    Paged file found s' := by
  obtain ⟨hoff, htot, added, hcache, htext, hok⟩ := h
  cases hc : c.result with
  | error => rw [readPass_error hc] at hpass; cases hpass
  | bytes count =>
    obtain ⟨page, heq, hchars, -, hpage⟩ := readPass_bytes file s hc
    rw [heq] at hpass
    cases hpass
    have hcut := (windowCut_le file s.offsetNext count c.beyond).2
    refine ⟨by simp only; omega, ?_, added ++ [page], ?_, ?_, ?_⟩
    · simp only [htot]
      exact Nat.mod_eq_of_lt (by omega)
    · simp only [hcache, List.append_assoc]
    · rw [pagesText_append, htext, List.take_add]
      simp only [pagesText, List.flatMap_cons, List.flatMap_nil, List.append_nil, hchars]
    · intro k hk
      rw [List.length_append, List.length_singleton] at hk
      rcases Nat.lt_succ_iff_lt_or_eq.1 hk with hlt | rfl
      · rw [List.getElem_append_left hlt]
        exact hok k hlt
      · rw [List.getElem_concat_length rfl]
        rw [hcache, List.length_append] at hpage
        exact hpage

theorem readLoop_done {s : ReadState} (h : s.total = fileSize) (reads : List ReadCall) :
    readLoop file fileSize reads s = ⟨some s.pageCache.length, s, reads⟩ := by
  cases reads <;> exact if_pos h

theorem readLoop_nil {s : ReadState} (h : s.total ≠ fileSize) :
    readLoop file fileSize [] s = ⟨none, s, []⟩ :=
  if_neg h

theorem readLoop_error {c : ReadCall} {s : ReadState} (h : s.total ≠ fileSize)
    (hc : c.result = .error) (cs : List ReadCall) :
    readLoop file fileSize (c :: cs) s = ⟨some (-2), s, cs⟩ := by
  rw [readLoop, if_neg h, readPass_error hc]

theorem readLoop_ok {c : ReadCall} {s s' : ReadState} (h : s.total ≠ fileSize)
    (hpass : readPass file c s = .ok s') (cs : List ReadCall) :
    readLoop file fileSize (c :: cs) s = readLoop file fileSize cs s' := by
  rw [readLoop, if_neg h, hpass]

/-- **Where `Read` stops.** It returns a page count when the bytes paged
are the file size, `-2` at a read error and nothing else; every read it
asked for before is one page. -/
theorem readLoop_spec (fileSize : ℕ) {found : List PageInfo} (hlen : file.length < 2 ^ 32) :
    ∀ (reads : List ReadCall) (s : ReadState), Paged file found s →
      Paged file found (readLoop file fileSize reads s).state ∧
      ((readLoop file fileSize reads s).ret = none ∧
          (readLoop file fileSize reads s).unread = [] ∨
        (readLoop file fileSize reads s).ret = some (-2) ∨
        ((readLoop file fileSize reads s).ret
            = some ((readLoop file fileSize reads s).state.pageCache.length : ℤ) ∧
          (readLoop file fileSize reads s).state.total = fileSize)) := by
  intro reads
  induction reads with
  | nil =>
    intro s hs
    by_cases heq : s.total = fileSize
    · rw [readLoop_done heq]
      exact ⟨hs, Or.inr (Or.inr ⟨rfl, heq⟩)⟩
    · rw [readLoop_nil heq]
      exact ⟨hs, Or.inl ⟨rfl, rfl⟩⟩
  | cons c cs ih =>
    intro s hs
    by_cases heq : s.total = fileSize
    · rw [readLoop_done heq]
      exact ⟨hs, Or.inr (Or.inr ⟨rfl, heq⟩)⟩
    · cases hc : c.result with
      | error =>
        rw [readLoop_error heq hc]
        exact ⟨hs, Or.inr (Or.inl rfl)⟩
      | bytes count =>
        obtain ⟨page, hpass, -⟩ := readPass_bytes file s hc
        have hs' := paged_pass hlen hs hpass
        rw [readLoop_ok heq hpass]
        exact ih _ hs'

/-- Between its `open` and its `close`, `Read` is the loop. -/
theorem read_fst_of_open {c : LoadCalls} (hopen : c.openRead = true) (fileSize : ℕ)
    (pageCache : List PageInfo) (fds : Finset ℕ) :
    (read c fileSize pageCache fds).1 = readLoop c.file fileSize c.reads ⟨0, 0, pageCache⟩ := by
  unfold read
  rw [if_pos hopen]
  simp only
  split <;> rfl

theorem read_of_not_open {c : LoadCalls} (hopen : c.openRead = false) (fileSize : ℕ)
    (pageCache : List PageInfo) (fds : Finset ℕ) :
    read c fileSize pageCache fds = (⟨some (-1), ⟨0, 0, pageCache⟩, c.reads⟩, fds) := by
  unfold read
  rw [if_neg (by rw [hopen]; decide)]

/-- **`Read` is lossless.** -/
theorem read_lossless (c : LoadCalls) (fds : Finset ℕ) (n : ℤ)
    (hret : (read c c.file.length [] fds).1.ret = some n) (hn : 0 ≤ n) :
    n = (read c c.file.length [] fds).1.state.pageCache.length ∧
      (∀ k (hk : k < (read c c.file.length [] fds).1.state.pageCache.length),
        PageOK k (read c c.file.length [] fds).1.state.pageCache[k]) ∧
      pagesText (read c c.file.length [] fds).1.state.pageCache = c.file := by
  cases hopen : c.openRead with
  | false =>
    rw [read_of_not_open hopen] at hret
    cases hret
    omega
  | true =>
    rw [read_fst_of_open hopen] at hret ⊢
    obtain ⟨⟨hoff, htot, added, hcache, htext, hok⟩, hend⟩ :=
      readLoop_spec c.file.length c.fits c.reads ⟨0, 0, []⟩ (paged_init [])
    rw [List.nil_append] at hcache
    rcases hend with ⟨hnone, -⟩ | herr | ⟨hcount, hdone⟩
    · rw [hnone] at hret; cases hret
    · rw [herr] at hret; cases hret; omega
    · rw [hcount] at hret
      refine ⟨(Option.some.inj hret).symm, fun k hk => ?_, ?_⟩
      · have := hok k (by rw [← hcache]; exact hk)
        rw [List.length_nil, Nat.zero_add] at this
        simpa only [hcache] using this
      · rw [hcache, htext, ← htot, hdone, List.take_length]

/-- A two-line file, its reads short and whole, is two pages. -/
theorem read_lossless_two_reads :
    pagesText (read ⟨[0x61, 0x0D, 0x0A, 0xB0, 0xA1], by decide, true, true, true,
      [⟨.bytes 4, fun _ => 0⟩, ⟨.bytes 180, fun _ => 0⟩]⟩ 5 [] ∅).1.state.pageCache
        = [0x61, 0x0D, 0x0A, 0xB0, 0xA1] :=
  (read_lossless ⟨[0x61, 0x0D, 0x0A, 0xB0, 0xA1], by decide, true, true, true,
    [⟨.bytes 4, fun _ => 0⟩, ⟨.bytes 180, fun _ => 0⟩]⟩ ∅ 2 (by decide +kernel) (by decide)).2.2

end Reader

end RtSpark
