import RtSpark.Reader.Lossless
import RtSpark.Common.DoubleByte
/-!
# Progress of the pagination loop

A page is empty where no whole character stands at its start, and then
the loop stays there: the next window is the same one. The cut always
falls between characters, so whether this ever happens is decided by the
file alone. It does not on a file of whole characters
(`readLoop_ends`), and on any other the loop never returns
(`readLoop_never_returns`).
-/

namespace RtSpark

namespace Reader

open DoubleByte

variable {file : List UInt8} {offset count fileSize i : ℕ} {beyond : Mem}

/-- The bytes the filter sees are the file's, up to the first NUL. -/
theorem filterCopy_readBuf {M L : ℕ}
    (h : filterCopy (readBuf file offset count beyond) M L i ≠ 0) :
    (file.drop offset)[i]? = some (filterCopy (readBuf file offset count beyond) M L i) := by
  have hlt : i < ((file.drop offset).take (min count 180)).length := by
    by_contra hge
    exact h (Mem.strncpy_zeros_of_nul readBuf_nul (by omega))
  have h180 : i < 181 := by rw [List.length_take] at hlt; omega
  rw [filterCopy, (Mem.strncpy_zeros_eq h).2, readBuf_of_lt h180, List.getD_eq_getElem?_getD,
    List.getElem?_eq_getElem hlt, List.getElem_take]
  exact List.getElem?_eq_getElem _

/-- **The cut falls between characters**: what is left of the file is
complete when all of it is. -/
theorem charsComplete_drop_cut (file : List UInt8) (offset count : ℕ) (beyond : Mem) :
    charsComplete (file.drop (offset + windowCut file offset count beyond))
      = charsComplete (file.drop offset) := by
  have hexit := filter_exits (filterCopy (readBuf file offset count beyond) maxColumnSize
    maxLineSize) (dispLoop (readBuf file offset count beyond) maxColumnSize maxLineSize).dispNeed
  rw [windowCut, dispSizeCalculator_eq, halfWordFilter_eq hexit.1 hexit.2, ← List.drop_drop]
  refine hexit.1.invariant
    (I := fun s => charsComplete ((file.drop offset).drop s.p) = charsComplete (file.drop offset))
    rfl ?_
  intro s s' hs hpass
  rw [← hs]
  obtain ⟨-, h0, ⟨hlt, rfl⟩ | ⟨hge, h1, rfl⟩⟩ := filterPass_cases hpass
  · exact charsComplete_drop_one (filterCopy_readBuf h0) h0 (UInt8.not_le.1 hlt)
  · exact charsComplete_drop_two (filterCopy_readBuf h0) (filterCopy_readBuf h1) hge h1

/-- **A whole window that opens with a whole character is not cut
empty.** -/
theorem windowCut_pos (hlt : offset < file.length)
    (hfile : charsComplete (file.drop offset) = true) : 0 < windowCut file offset 180 beyond := by
  rw [windowCut, cut_pos_iff (by decide) (by decide)]
  have hwin : ∀ i, i < 180 → readBuf file offset 180 beyond i = (file.drop offset).getD i 0 := by
    intro i hi
    rw [readBuf_of_lt (by omega), Nat.min_self, List.getD_eq_getElem?_getD,
      List.getD_eq_getElem?_getD, List.getElem?_take_of_lt hi]
  rw [List.drop_eq_getElem_cons hlt] at hfile hwin
  obtain ⟨h0, hpair⟩ := head_of_charsComplete hfile
  refine ⟨by rw [hwin 0 (by decide)]; exact h0, ?_⟩
  rintro ⟨hge, hnul⟩
  rw [hwin 0 (by decide)] at hge
  obtain ⟨c, rest, hrest, hc⟩ := hpair hge
  rw [hwin 1 (by decide), hrest] at hnul
  exact hc hnul

/-! ## The loop -/

/-- Reads that deliver what is stored. -/
def FullReads (reads : List ReadCall) : Prop := ∀ c ∈ reads, c.result = .bytes 180

/-- What is left of the file is complete when all of it is. -/
def LeftComplete (file : List UInt8) (s : ReadState) : Prop :=
  charsComplete (file.drop s.offsetNext) = charsComplete file

theorem leftComplete_pass {c : ReadCall} {s s' : ReadState} (h : LeftComplete file s)
    (hpass : readPass file c s = .ok s') : LeftComplete file s' := by
  cases hc : c.result with
  | error => rw [readPass_error hc] at hpass; cases hpass
  | bytes count =>
    obtain ⟨page, heq, -⟩ := readPass_bytes file s hc
    rw [heq] at hpass
    cases hpass
    exact (charsComplete_drop_cut file s.offsetNext count c.beyond).trans h

/-- **Files of whole characters**: every pass adds a page that is not
empty, and passes as many as there are bytes left end the loop. -/
theorem readLoop_ends {found : List PageInfo} (hlen : file.length < 2 ^ 32)
    (hfile : charsComplete file = true) :
    ∀ (reads : List ReadCall) (s : ReadState), FullReads reads → Paged file found s →
      LeftComplete file s → (∀ page ∈ s.pageCache, 1 ≤ page.aPageBytes) →
      file.length - s.offsetNext ≤ reads.length →
      (readLoop file file.length reads s).ret ≠ none ∧
        ∀ page ∈ (readLoop file file.length reads s).state.pageCache, 1 ≤ page.aPageBytes := by
  intro reads
  induction reads with
  | nil =>
    intro s _ hs _ hpages hreads
    have htot : s.total = file.length := by
      have := hs.offset
      rw [hs.total]
      rw [List.length_nil] at hreads
      omega
    rw [readLoop_done htot]
    exact ⟨Option.some_ne_none _, hpages⟩
  | cons c cs ih =>
    intro s hfull hs hleft hpages hreads
    by_cases htot : s.total = file.length
    · rw [readLoop_done htot]
      exact ⟨Option.some_ne_none _, hpages⟩
    · have hc : c.result = .bytes 180 := hfull c (List.mem_cons_self ..)
      obtain ⟨page, hpass, -, hbytes, -⟩ := readPass_bytes file s hc
      have hoff := hs.offset
      have hpos : 0 < windowCut file s.offsetNext 180 c.beyond :=
        windowCut_pos (by rw [hs.total] at htot; omega) (hleft.trans hfile)
      rw [readLoop_ok htot hpass]
      refine ih _ (fun c hc => hfull c (List.mem_cons_of_mem _ hc)) (paged_pass hlen hs hpass)
        (leftComplete_pass hleft hpass) ?_ ?_
      · intro p hp
        rcases List.mem_append.1 hp with hp | hp
        · exact hpages p hp
        · rw [List.mem_singleton.1 hp, hbytes]
          exact hpos
      · rw [List.length_cons] at hreads
        simp only
        omega

/-- **Any other file**: the loop is still reading, whatever number of
reads it is given. -/
theorem readLoop_never_returns {found : List PageInfo} (hlen : file.length < 2 ^ 32)
    (hfile : charsComplete file = false) :
    ∀ (reads : List ReadCall) (s : ReadState), FullReads reads → Paged file found s →
      LeftComplete file s → (readLoop file file.length reads s).ret = none := by
  -- at the end of the file nothing would be left, and nothing is complete
  have hne : ∀ s : ReadState, Paged file found s → LeftComplete file s →
      s.total ≠ file.length := by
    intro s hs hleft htot
    rw [hs.total] at htot
    rw [LeftComplete, htot, List.drop_length, hfile] at hleft
    exact absurd hleft (by decide)
  intro reads
  induction reads with
  | nil =>
    intro s _ hs hleft
    rw [readLoop_nil (hne s hs hleft)]
  | cons c cs ih =>
    intro s hfull hs hleft
    have hc : c.result = .bytes 180 := hfull c (List.mem_cons_self ..)
    obtain ⟨page, hpass, -⟩ := readPass_bytes file s hc
    rw [readLoop_ok (hne s hs hleft) hpass]
    exact ih _ (fun c hc => hfull c (List.mem_cons_of_mem _ hc)) (paged_pass hlen hs hpass)
      (leftComplete_pass hleft hpass)

/-- **`Read` makes progress exactly on files of whole characters.** The
reads deliver what is stored, as many as the file has bytes. -/
theorem read_progress_iff (file : List UInt8) (reads : List ReadCall)
    (hsize : file.length < 2 ^ 32) (hfull : FullReads reads) (hcount : reads.length = file.length) :
    ((readLoop file file.length reads ⟨0, 0, []⟩).ret ≠ none ∧
        ∀ page ∈ (readLoop file file.length reads ⟨0, 0, []⟩).state.pageCache,
          1 ≤ page.aPageBytes) ↔
      charsComplete file = true := by
  constructor
  · rintro ⟨hret, -⟩
    cases hfile : charsComplete file with
    | true => rfl
    | false =>
      have hnever := readLoop_never_returns hsize hfile reads _ hfull (paged_init []) rfl
      exact absurd hnever hret
  · intro hfile
    exact readLoop_ends hsize hfile reads _ hfull (paged_init []) rfl
      (fun page hp => absurd hp List.not_mem_nil) (by rw [hcount]; exact Nat.sub_le _ _)

/-- A file of one letter and one double-byte character is paged. -/
theorem read_progress_three_bytes :
    (readLoop [0x61, 0xB0, 0xA1] 3 (List.replicate 3 ⟨.bytes 180, fun _ => 0⟩) ⟨0, 0, []⟩).ret
        ≠ none ∧
      ∀ page ∈ (readLoop [0x61, 0xB0, 0xA1] 3 (List.replicate 3 ⟨.bytes 180, fun _ => 0⟩)
        ⟨0, 0, []⟩).state.pageCache, 1 ≤ page.aPageBytes :=
  (read_progress_iff [0x61, 0xB0, 0xA1] (List.replicate 3 ⟨.bytes 180, fun _ => 0⟩) (by decide)
    (fun _ hc => by rw [List.eq_of_mem_replicate hc]) rfl).2 (by decide)

/-- A file that ends in half a character keeps `Read` in its loop,
whatever number of reads it is given, and pushes an empty page at the
second. -/
theorem read_stuck_on_half_character :
    (∀ n, (readLoop [0x61, 0xB0] 2 (List.replicate n ⟨.bytes 180, fun _ => 0⟩) ⟨0, 0, []⟩).ret
        = none) ∧
      ∃ page ∈ (readLoop [0x61, 0xB0] 2 (List.replicate 2 ⟨.bytes 180, fun _ => 0⟩)
        ⟨0, 0, []⟩).state.pageCache, page.aPageBytes = 0 :=
  ⟨fun _ => readLoop_never_returns (by decide) (by decide) _ _
    (fun _ hc => by rw [List.eq_of_mem_replicate hc]) (paged_init []) rfl, by decide +kernel⟩

end Reader

end RtSpark
