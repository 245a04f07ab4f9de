import RtSpark.Reader.Progress
import RtSpark.Common.Run
import Mathlib.Data.Finset.Erase
/-!
# `Load`: what a failure leaves

`Load` looks at neither the size it stores nor the page count: every
`Read` that returns becomes an entry of the list, and `Load` returns
`true`. `Read` itself returns only when the bytes it has paged are that
size. All-or-nothing and the balance of the descriptors are then each
equivalent to a condition on the state and on the outcomes of its calls.
-/

namespace RtSpark

namespace Reader

open DoubleByte

variable {r : Reader} {fds : Finset ℕ} {path name : String} {c : LoadCalls}

/-! ## Descriptors -/

/-- The descriptor `open` hands out was not open. -/
theorem fdAlloc_notMem (fds : Finset ℕ) : fdAlloc fds ∉ fds := by
  unfold fdAlloc
  cases hfind : (List.range (fds.card + 1)).find? fun fd => decide (fd ∉ fds) with
  | some fd => simpa using List.find?_some hfind
  | none =>
    exfalso
    -- otherwise one descriptor too many is open
    have hall : ∀ fd ∈ Finset.range (fds.card + 1), fd ∈ fds := fun fd hfd => by
      have := List.find?_eq_none.1 hfind fd (List.mem_range.2 (Finset.mem_range.1 hfd))
      simpa using this
    have hcard := Finset.card_le_card hall
    rw [Finset.card_range] at hcard
    omega

/-- **`Read` gives back what it opens.** -/
theorem read_fds (c : LoadCalls) (fileSize : ℕ) (pageCache : List PageInfo) (fds : Finset ℕ)
    (hret : (read c fileSize pageCache fds).1.ret ≠ none) :
    (read c fileSize pageCache fds).2 = fds := by
  cases hopen : c.openRead with
  | false => rw [read_of_not_open hopen]
  | true =>
    rw [read_fst_of_open hopen] at hret
    unfold read
    rw [if_pos hopen]
    simp only
    cases hrun : (readLoop c.file fileSize c.reads ⟨0, 0, pageCache⟩).ret with
    | none => exact absurd hrun hret
    | some n => exact Finset.erase_insert (fdAlloc_notMem fds)

/-- `getFileSize` keeps what it opens. -/
theorem getFileSize_fds (c : LoadCalls) (fds : Finset ℕ) :
    (getFileSize c fds).2 = if c.openSize then insert (fdAlloc fds) fds else fds := by
  unfold getFileSize
  by_cases hopen : c.openSize = true
  · rw [if_pos hopen, if_pos hopen]
  · rw [if_neg hopen, if_neg hopen]

/-! ## What a `Load` does -/

/-- The value `Load` stores as the novel's size. -/
def loadFileSize (c : LoadCalls) : ℕ := toUInt32 (getFileSize c ∅).1

theorem getFileSize_fst (c : LoadCalls) (fds : Finset ℕ) :
    toUInt32 (getFileSize c fds).1 = loadFileSize c := by
  unfold loadFileSize getFileSize
  by_cases hopen : c.openSize = true
  · rw [if_pos hopen, if_pos hopen]
  · rw [if_neg hopen, if_neg hopen]

/-- `Read` as `Load` calls it. -/
def loadRead (r : Reader) (c : LoadCalls) : ReadRun :=
  (read c (loadFileSize c) r.pageCache ∅).1

theorem read_fst (c : LoadCalls) (fileSize : ℕ) (pageCache : List PageInfo)
    (fds fds' : Finset ℕ) :
    (read c fileSize pageCache fds).1 = (read c fileSize pageCache fds').1 := by
  cases hopen : c.openRead with
  | false => rw [read_of_not_open hopen, read_of_not_open hopen]
  | true => rw [read_fst_of_open hopen, read_fst_of_open hopen]

/-- The entry `Load` makes of a page count. -/
def loadNovel (r : Reader) (path name : String) (c : LoadCalls) (n : ℤ) : NovelInfo where
  id := (r.novelList.length : ℤ).bmod (2 ^ 16)
  path := path
  name := name
  totalPages := toUInt32 n
  fileSize := loadFileSize c
  pagelist := (loadRead r c).state.pageCache

theorem load_of_not_open (h : c.openLoad = false) :
    load r fds path name c = ⟨some false, r, fds, c.reads⟩ := by
  unfold load
  rw [if_neg (by rw [h]; decide)]

theorem load_of_isLoad (hopen : c.openLoad = true) (h : r.isLoad name = true) :
    load r fds path name c = ⟨some false, r, insert (fdAlloc fds) fds, c.reads⟩ := by
  unfold load
  rw [if_pos hopen]
  simp only [if_pos h]

/-- **Past the two guards `Load` stores what `Read` returned**, whatever
that is. -/
theorem load_of_read (fds : Finset ℕ) (path : String) (hopen : c.openLoad = true)
    (hload : r.isLoad name = false) :
    (load r fds path name c).unread = (loadRead r c).unread ∧
      ((loadRead r c).ret = none ∧ (load r fds path name c).ret = none ∨
        ∃ n, (loadRead r c).ret = some n ∧ (load r fds path name c).ret = some true ∧
          (load r fds path name c).reader
            = ⟨[], r.novelList ++ [loadNovel r path name c n], false, 0, 0⟩ ∧
          (load r fds path name c).fds =
            if c.openSize then insert (fdAlloc (insert (fdAlloc fds) fds)) fds else fds) := by
  unfold load
  rw [if_pos hopen]
  simp only [if_neg (by rw [hload]; decide : ¬ r.isLoad name = true)]
  set fds₁ := insert (fdAlloc fds) fds with hfds₁
  set fds₂ := (getFileSize c fds₁).2 with hfds₂
  have hrun : (read c (loadFileSize c) r.pageCache fds₂).1 = loadRead r c := read_fst ..
  rw [getFileSize_fst, hrun]
  cases hret : (loadRead r c).ret with
  | none => exact ⟨rfl, Or.inl ⟨rfl, rfl⟩⟩
  | some n =>
    have hfds : (read c (loadFileSize c) r.pageCache fds₂).2 = fds₂ :=
      read_fds _ _ _ _ (by rw [hrun, hret]; exact Option.some_ne_none n)
    refine ⟨rfl, Or.inr ⟨n, rfl, rfl, rfl, ?_⟩⟩
    show (read c (loadFileSize c) r.pageCache fds₂).2.erase (fdAlloc fds) = _
    rw [hfds, hfds₂, getFileSize_fds]
    have hnew := fdAlloc_notMem fds
    have hnew₁ := fdAlloc_notMem fds₁
    by_cases hsize : c.openSize = true
    · rw [if_pos hsize, if_pos hsize, hfds₁, Finset.insert_comm]
      refine Finset.erase_insert fun hmem => ?_
      rcases Finset.mem_insert.1 hmem with heq | hmem
      · rw [hfds₁, ← heq] at hnew₁
        exact hnew₁ (Finset.mem_insert_self _ _)
      · exact hnew hmem
    · rw [if_neg hsize, if_neg hsize]
      exact Finset.erase_insert hnew

/-! ## Where `Read` stops -/

section

variable {file : List UInt8} {fileSize k n : ℕ} {reads : ℕ → ReadCall} {found : List PageInfo}

/-- How many bytes a `read()` delivers at most. -/
def ReadResult.count : ReadResult → ℕ
  | .error => 0
  | .bytes count => count

/-- The bytes `Read` has paged after its first `k` reads: the page of each
is what `DispSizeCalculator` cuts from the window. -/
def bytesPaged (file : List UInt8) (reads : ℕ → ReadCall) : ℕ → ℕ
  | 0 => 0
  | k + 1 =>
    bytesPaged file reads k +
      windowCut file (bytesPaged file reads k) (reads k).result.count (reads k).beyond

theorem bytesPaged_le (file : List UInt8) (reads : ℕ → ReadCall) (k : ℕ) :
    bytesPaged file reads k ≤ file.length := by
  induction k with
  | zero => exact Nat.zero_le _
  | succ k ih =>
    have hcut := (windowCut_le file (bytesPaged file reads k) (reads k).result.count
      (reads k).beyond).2
    rw [bytesPaged]
    omega

theorem charsComplete_drop_bytesPaged (file : List UInt8) (reads : ℕ → ReadCall) (k : ℕ) :
    charsComplete (file.drop (bytesPaged file reads k)) = charsComplete file := by
  induction k with
  | zero => rfl
  | succ k ih => exact (charsComplete_drop_cut _ _ _ _).trans ih

/-- **Reads that deliver what is stored page a file to its end exactly when
its characters are whole.** -/
theorem exists_bytesPaged_iff (hfull : ∀ k, (reads k).result = .bytes 180) :
    (∃ n, bytesPaged file reads n = file.length) ↔ charsComplete file = true := by
  constructor
  · rintro ⟨n, hn⟩
    have hleft := charsComplete_drop_bytesPaged file reads n
    rw [hn, List.drop_length] at hleft
    exact hleft.symm
  · intro hfile
    have hgrows : ∀ k, min k file.length ≤ bytesPaged file reads k := by
      intro k
      induction k with
      | zero => exact Nat.zero_le _
      | succ k ih =>
        rcases Nat.lt_or_ge (bytesPaged file reads k) file.length with hlt | hge
        · have hcount : (reads k).result.count = 180 := by rw [hfull k]; rfl
          have hpos : 0 < windowCut file (bytesPaged file reads k) 180 (reads k).beyond :=
            windowCut_pos hlt ((charsComplete_drop_bytesPaged file reads k).trans hfile)
          rw [bytesPaged, hcount]
          omega
        · rw [bytesPaged]
          omega
    have hend := hgrows file.length
    have hle := bytesPaged_le file reads file.length
    exact ⟨file.length, by omega⟩

/-- The reads before the read `k` deliver, and do not end the loop. -/
def Reading (file : List UInt8) (fileSize : ℕ) (reads : ℕ → ReadCall) (k : ℕ) : Prop :=
  ∀ i < k, (reads i).result ≠ .error ∧ bytesPaged file reads i ≠ fileSize

theorem reading_succ (h : Reading file fileSize reads k)
    (hread : (reads k).result ≠ .error) (hsize : bytesPaged file reads k ≠ fileSize) :
    Reading file fileSize reads (k + 1) := by
  intro i hi
  rcases Nat.lt_succ_iff_lt_or_eq.1 hi with hlt | rfl
  · exact h i hlt
  · exact ⟨hread, hsize⟩

/-- **The head of the loop** before the read `k`, whatever reads follow. -/
theorem exists_readLoop_state (found : List PageInfo) (hlen : file.length < 2 ^ 32)
    (h : Reading file fileSize reads k) :
    ∃ s, Paged file found s ∧ s.total = bytesPaged file reads k ∧
      s.pageCache.length = found.length + k ∧
      ∀ rest, readLoop file fileSize ((List.range k).map reads ++ rest) ⟨0, 0, found⟩ =
        readLoop file fileSize rest s := by
  induction k with
  | zero => exact ⟨_, paged_init found, rfl, rfl, fun _ => rfl⟩
  | succ k ih =>
    obtain ⟨s, hs, htotal, hcache, hloop⟩ := ih fun i hi => h i (Nat.lt_succ_of_lt hi)
    obtain ⟨hread, hsize⟩ := h k (Nat.lt_succ_self k)
    have hstay : s.total ≠ fileSize := by rwa [htotal]
    cases hc : (reads k).result with
    | error => exact absurd hc hread
    | bytes count =>
      obtain ⟨page, hpass, -⟩ := readPass_bytes file s hc
      have hs' := paged_pass hlen hs hpass
      refine ⟨_, hs', ?_, ?_, fun rest => ?_⟩
      · have hcut : bytesPaged file reads (k + 1) =
            s.offsetNext + windowCut file s.offsetNext count (reads k).beyond := by
          rw [bytesPaged, hc, ← htotal, hs.total]
          rfl
        rw [hcut]
        exact hs'.total
      · simp only [List.length_append, List.length_singleton, hcache]
        omega
      · rw [List.range_succ, List.map_append, List.append_assoc, hloop]
        exact readLoop_ok hstay hpass rest

/-- There is a read at which the loop stops, or it makes them all. -/
theorem exists_reading (file : List UInt8) (fileSize : ℕ) (reads : ℕ → ReadCall) (n : ℕ) :
    ∃ k ≤ n, Reading file fileSize reads k ∧
      (bytesPaged file reads k = fileSize ∨ (reads k).result = .error ∨ k = n) := by
  induction n with
  | zero =>
    exact ⟨0, Nat.le_refl 0, fun i hi => absurd hi (Nat.not_lt_zero i), Or.inr (Or.inr rfl)⟩
  | succ n ih =>
    obtain ⟨k, hk, hreading, hstop⟩ := ih
    by_cases hsize : bytesPaged file reads k = fileSize
    · exact ⟨k, Nat.le_succ_of_le hk, hreading, Or.inl hsize⟩
    by_cases hread : (reads k).result = .error
    · exact ⟨k, Nat.le_succ_of_le hk, hreading, Or.inr (Or.inl hread)⟩
    obtain rfl := (hstop.resolve_left hsize).resolve_left hread
    exact ⟨k + 1, Nat.le_refl _, reading_succ hreading hread hsize, Or.inr (Or.inr rfl)⟩

/-- What `Read` comes to at the read `k`: it has paged the file's size, or
the read fails. -/
inductive StopsAt (file : List UInt8) (fileSize : ℕ) (reads : ℕ → ReadCall)
    (found : List PageInfo) (run : ReadRun) (k : ℕ) : Prop where
  | counted (size : bytesPaged file reads k = fileSize)
      (ret : run.ret = some ((found.length + k : ℕ) : ℤ))
      (pages : run.state.pageCache.length = found.length + k)
      (text : pagesText run.state.pageCache = pagesText found ++ file.take fileSize)
  | failed (size : bytesPaged file reads k ≠ fileSize) (read : (reads k).result = .error)
      (ret : run.ret = some (-2))

/-- **Where `Read` stops** in its first `n` reads, if it does. -/
theorem readLoop_stops (fileSize : ℕ) (reads : ℕ → ReadCall) (found : List PageInfo)
    (hlen : file.length < 2 ^ 32) (n : ℕ) :
    (∃ k, Reading file fileSize reads k ∧ StopsAt file fileSize reads found
        (readLoop file fileSize ((List.range n).map reads) ⟨0, 0, found⟩) k) ∨
      (readLoop file fileSize ((List.range n).map reads) ⟨0, 0, found⟩).ret = none ∧
        Reading file fileSize reads n ∧ bytesPaged file reads n ≠ fileSize := by
  obtain ⟨k, hk, hreading, hstop⟩ := exists_reading file fileSize reads n
  obtain ⟨s, hs, htotal, hcache, hloop⟩ := exists_readLoop_state found hlen hreading
  obtain ⟨m, rfl⟩ := Nat.exists_eq_add_of_le hk
  rw [List.range_add, List.map_append, hloop]
  by_cases hsize : bytesPaged file reads k = fileSize
  · have hdone : s.total = fileSize := htotal.trans hsize
    rw [readLoop_done hdone]
    refine Or.inl ⟨k, hreading, .counted hsize ?_ hcache ?_⟩
    · rw [hcache]
    · rw [hs.text, ← hs.total, hdone]
  · have hstay : s.total ≠ fileSize := by rwa [htotal]
    cases m with
    | zero =>
      rw [List.range_zero, List.map_nil, List.map_nil, readLoop_nil hstay]
      exact Or.inr ⟨rfl, hreading, hsize⟩
    | succ m =>
      have hread := (hstop.resolve_left hsize).resolve_right (by omega)
      rw [List.range_succ_eq_map, List.map_cons, List.map_cons, Nat.add_zero,
        readLoop_error hstay hread]
      exact Or.inl ⟨k, hreading, .failed hsize hread rfl⟩

end

/-! ## All or nothing -/

/-- What the calls of a `Load` come to, with a `read()` for every pass of the
loop of `Read`, however many it makes. -/
structure LoadOutcomes where
  file : List UInt8
  fits : file.length < 2 ^ 32
  openLoad : Bool
  openSize : Bool
  openRead : Bool
  reads : ℕ → ReadCall

/-- The first `n` reads. -/
def LoadOutcomes.calls (o : LoadOutcomes) (n : ℕ) : LoadCalls where
  file := o.file
  fits := o.fits
  openLoad := o.openLoad
  openSize := o.openSize
  openRead := o.openRead
  reads := (List.range n).map o.reads

/-- What `Load` comes to in the first `n` reads. -/
def loadAfter (r : Reader) (fds : Finset ℕ) (path name : String) (o : LoadOutcomes) (n : ℕ) :
    LoadRun :=
  load r fds path name (o.calls n)

/-- **What `Load` is to do.** It returns; it returns `true` only with the
file paginated completely; and a pagination that fails makes it return
`false` and leave the reader. -/
structure AllOrNothing (r : Reader) (fds : Finset ℕ) (path name : String)
    (o : LoadOutcomes) : Prop where
  returns : ∃ n, (loadAfter r fds path name o n).ret ≠ none
  complete : ∀ n, (loadAfter r fds path name o n).ret = some true →
    ∃ novel, (loadAfter r fds path name o n).reader.novelList = r.novelList ++ [novel] ∧
      novel.totalPages = novel.pagelist.length ∧ pagesText novel.pagelist = o.file
  leaves : ∀ n, (∃ e < 0, (loadRead r (o.calls n)).ret = some e) →
    (loadAfter r fds path name o n).ret = some false ∧
      (loadAfter r fds path name o n).reader.novelList = r.novelList ∧
      (loadAfter r fds path name o n).reader.pageCache = r.pageCache ∧
      (loadAfter r fds path name o n).reader.currnetID = r.currnetID ∧
      (loadAfter r fds path name o n).reader.currentPageNum = r.currentPageNum

/-- What `getFileSize` makes of the file's size: as an `off_t` it is negative
from `2 ^ 31` bytes on, and the -1 of an `open` that fails is the largest
size there is. -/
def sizeTaken (file : List UInt8) (openSize : Bool) : ℕ :=
  if openSize then (if file.length < 2 ^ 31 then file.length else 0) else 2 ^ 32 - 1

/-- No text waits in the cache; or `getFileSize` takes the file for empty,
its size negative as an `off_t`, and the text waiting is the file. -/
def CacheFits (r : Reader) (o : LoadOutcomes) : Prop :=
  if o.openSize = true ∧ 2 ^ 31 ≤ o.file.length then pagesText r.pageCache = o.file
  else pagesText r.pageCache = []

/-- One of the two guards of `Load` stops it, or nothing in the pagination
fails: `Read` opens the file, nothing else is in the cache, and reads that
deliver page as many bytes as the file is taken to have, in no more pages
than 32 bits count. -/
def NothingFails (r : Reader) (name : String) (o : LoadOutcomes) : Prop :=
  o.openLoad = false ∨ r.isLoad name = true ∨
    (o.openRead = true ∧ CacheFits r o ∧
      ∃ n, (∀ k < n, (o.reads k).result ≠ .error) ∧
        bytesPaged o.file o.reads n = sizeTaken o.file o.openSize ∧
        r.pageCache.length + n < 2 ^ 32)

/-- A size in an `off_t` is negative from `2 ^ 31` on. -/
theorem bmod_size {n : ℕ} (h : n < 2 ^ 32) :
    (n : ℤ).bmod (2 ^ 32) = if n < 2 ^ 31 then (n : ℤ) else n - 2 ^ 32 := by
  rw [Int.bmod_def]
  split <;> split <;> omega

theorem loadFileSize_eq (c : LoadCalls) : loadFileSize c = sizeTaken c.file c.openSize := by
  have hsize := bmod_size c.fits
  have hfits := c.fits
  unfold loadFileSize getFileSize toUInt32 sizeTaken
  by_cases hopen : c.openSize = true
  · simp only [if_pos hopen, hsize]
    by_cases hlarge : c.file.length < 2 ^ 31
    · simp only [if_pos hlarge]
      split <;> omega
    · simp only [if_neg hlarge]
      split <;> omega
  · simp only [if_neg hopen]
    rfl

/-- **The bytes `Load` has paged** are the file, except one of `2 ^ 31`
bytes or more, of which there are none. -/
theorem cacheFits_iff (r : Reader) (o : LoadOutcomes) :
    pagesText r.pageCache ++ o.file.take (sizeTaken o.file o.openSize) = o.file ↔
      CacheFits r o := by
  by_cases hnone : o.openSize = true ∧ 2 ^ 31 ≤ o.file.length
  · have hzero : sizeTaken o.file o.openSize = 0 := by
      rw [sizeTaken, if_pos hnone.1, if_neg (Nat.not_lt.2 hnone.2)]
    rw [CacheFits, if_pos hnone, hzero, List.take_zero, List.append_nil]
  · have hall : o.file.length ≤ sizeTaken o.file o.openSize := by
      have hfits := o.fits
      unfold sizeTaken
      split
      · rename_i hopen
        rw [if_pos (Nat.not_le.1 fun h => hnone ⟨hopen, h⟩)]
      · omega
    rw [CacheFits, if_neg hnone, List.take_of_length_le hall]
    exact List.append_left_eq_self

theorem toUInt32_lt (n : ℤ) : toUInt32 n < 2 ^ 32 := by
  unfold toUInt32
  omega

theorem toUInt32_natCast {n : ℕ} (h : n < 2 ^ 32) : toUInt32 n = n := by
  unfold toUInt32
  omega

section

variable {o : LoadOutcomes}

theorem loadRead_calls (r : Reader) (o : LoadOutcomes) (n : ℕ) :
    loadRead r (o.calls n) =
      if o.openRead then
        readLoop o.file (sizeTaken o.file o.openSize) ((List.range n).map o.reads)
          ⟨0, 0, r.pageCache⟩
      else ⟨some (-1), ⟨0, 0, r.pageCache⟩, (List.range n).map o.reads⟩ := by
  unfold loadRead
  rw [loadFileSize_eq]
  cases hopen : o.openRead with
  | false => rw [read_of_not_open hopen, if_neg (by decide)]; rfl
  | true => rw [read_fst_of_open hopen, if_pos rfl]; rfl

/-- Before `Read` a guard stops `Load`, and it leaves everything. -/
theorem allOrNothing_of_false (h : ∀ n, (loadAfter r fds path name o n).ret = some false ∧
    (loadAfter r fds path name o n).reader = r) : AllOrNothing r fds path name o where
  returns := ⟨0, by rw [(h 0).1]; exact Option.some_ne_none false⟩
  complete := fun n htrue => by
    rw [(h n).1] at htrue
    cases htrue
  leaves := fun n _ => by
    rw [(h n).1, (h n).2]
    exact ⟨rfl, rfl, rfl, rfl, rfl⟩

/-- `Read` in a `Load` has paged the file's size: `k` reads delivered, and
each is a page. -/
structure Counted (r : Reader) (o : LoadOutcomes) (run : ReadRun) (k : ℕ) : Prop where
  ret : run.ret = some ((r.pageCache.length + k : ℕ) : ℤ)
  pages : run.state.pageCache.length = r.pageCache.length + k
  text : pagesText run.state.pageCache =
    pagesText r.pageCache ++ o.file.take (sizeTaken o.file o.openSize)

/-- What a page count says of the reads. -/
theorem loadRead_of_nonneg {n : ℕ} {m : ℤ} (hm : 0 ≤ m)
    (hret : (loadRead r (o.calls n)).ret = some m) :
    o.openRead = true ∧ ∃ k, (∀ i < k, (o.reads i).result ≠ .error) ∧
      bytesPaged o.file o.reads k = sizeTaken o.file o.openSize ∧
      Counted r o (loadRead r (o.calls n)) k := by
  rw [loadRead_calls] at hret ⊢
  cases hread : o.openRead with
  | false =>
    rw [hread, if_neg (by decide)] at hret
    cases hret
    omega
  | true =>
    rw [hread, if_pos rfl] at hret
    rw [if_pos rfl]
    rcases readLoop_stops (sizeTaken o.file o.openSize) o.reads r.pageCache o.fits n with
      ⟨k, hreading, hstop⟩ | ⟨hnone, -⟩
    · cases hstop with
      | counted size ret pages text =>
        exact ⟨rfl, k, fun i hi => (hreading i hi).1, size, ret, pages, text⟩
      | failed size read ret =>
        rw [ret] at hret
        cases hret
        omega
    · rw [hnone] at hret
      cases hret

/-- Reads that deliver up to the file's size make it return that, in no more
passes than there are. -/
theorem loadRead_counted {j : ℕ} (hread : o.openRead = true)
    (hok : ∀ k < j, (o.reads k).result ≠ .error)
    (hsize : bytesPaged o.file o.reads j = sizeTaken o.file o.openSize) (n : ℕ) :
    (loadRead r (o.calls n)).ret = none ∧ n ≠ j ∨
      ∃ k ≤ j, Counted r o (loadRead r (o.calls n)) k := by
  rw [loadRead_calls, if_pos hread]
  -- the loop does not pass the read that ends it
  have hle : ∀ {k}, Reading o.file (sizeTaken o.file o.openSize) o.reads k → k ≤ j :=
    fun hreading => Nat.le_of_not_lt fun hlt => (hreading j hlt).2 hsize
  rcases readLoop_stops (sizeTaken o.file o.openSize) o.reads r.pageCache o.fits n with
    ⟨k, hreading, hstop⟩ | ⟨hnone, -, hne⟩
  · cases hstop with
    | counted size ret pages text => exact Or.inr ⟨k, hle hreading, ret, pages, text⟩
    | failed size read ret =>
      rcases Nat.lt_or_eq_of_le (hle hreading) with hlt | rfl
      · exact absurd read (hok k hlt)
      · exact absurd hsize size
  · refine Or.inl ⟨hnone, ?_⟩
    rintro rfl
    exact hne hsize

/-- **Past the guards** it is for `Read` to return, and with the file. -/
theorem allOrNothing_iff_of_read (fds : Finset ℕ) (path : String) (hopen : o.openLoad = true)
    (hload : r.isLoad name = false) :
    AllOrNothing r fds path name o ↔
      o.openRead = true ∧ CacheFits r o ∧
        ∃ n, (∀ k < n, (o.reads k).result ≠ .error) ∧
          bytesPaged o.file o.reads n = sizeTaken o.file o.openSize ∧
          r.pageCache.length + n < 2 ^ 32 := by
  have hrun : ∀ n, _ := fun n => (load_of_read (c := o.calls n) fds path hopen hload).2
  constructor
  · rintro ⟨⟨n, hn⟩, hcomplete, hleaves⟩
    obtain ⟨-, hnone⟩ | ⟨m, hret, htrue, hreader, -⟩ := hrun n
    · exact absurd hnone hn
    have hm : 0 ≤ m := by
      by_contra hneg
      have hfalse := (hleaves n ⟨m, by omega, hret⟩).1
      rw [loadAfter, htrue] at hfalse
      cases hfalse
    obtain ⟨hread, k, hok, hsize, hcounted⟩ := loadRead_of_nonneg hm hret
    obtain ⟨novel, hlist, hcount, htext⟩ := hcomplete n htrue
    rw [loadAfter, hreader] at hlist
    have hnovel : loadNovel r path name (o.calls n) m = novel := by simpa using hlist
    subst hnovel
    refine ⟨hread, (cacheFits_iff r o).1 (hcounted.text.symm.trans htext), k, hok, hsize, ?_⟩
    rw [← hcounted.pages]
    exact hcount ▸ toUInt32_lt m
  · rintro ⟨hread, hfits, j, hok, hsize, hlt⟩
    have hcounts := loadRead_counted (r := r) hread hok hsize
    refine ⟨⟨j, ?_⟩, fun n htrue => ?_, fun n => ?_⟩
    · obtain ⟨hnone, -⟩ | ⟨m, -, htrue, -⟩ := hrun j
      · obtain ⟨-, hne⟩ | ⟨k, -, hcounted⟩ := hcounts j
        · exact absurd rfl hne
        · rw [hcounted.ret] at hnone
          cases hnone
      · rw [loadAfter, htrue]
        exact Option.some_ne_none true
    · obtain ⟨-, hnone⟩ | ⟨m, hret, -, hreader, -⟩ := hrun n
      · rw [loadAfter, hnone] at htrue
        cases htrue
      obtain ⟨hnone, -⟩ | ⟨k, hk, hcounted⟩ := hcounts n
      · rw [hnone] at hret
        cases hret
      rw [loadAfter, hreader]
      refine ⟨_, rfl, ?_, hcounted.text.trans ((cacheFits_iff r o).2 hfits)⟩
      rw [hcounted.ret] at hret
      show toUInt32 m = (loadRead r (o.calls n)).state.pageCache.length
      rw [← Option.some.inj hret, hcounted.pages]
      exact toUInt32_natCast (by omega)
    · rintro ⟨e, he, hret⟩
      obtain ⟨hnone, -⟩ | ⟨k, hk, hcounted⟩ := hcounts n
      · rw [hnone] at hret
        cases hret
      · rw [hcounted.ret] at hret
        cases hret
        omega

end

/-- **`Load` is all-or-nothing exactly where nothing fails.** -/
theorem load_allOrNothing_iff (r : Reader) (fds : Finset ℕ) (path name : String)
    (o : LoadOutcomes) :
    (AllOrNothing r fds path name o ↔ NothingFails r name o) ∧
      ((∀ k, (o.reads k).result = .bytes 180) →
        ((∃ n, bytesPaged o.file o.reads n = o.file.length) ↔ charsComplete o.file = true)) := by
  refine ⟨?_, exists_bytesPaged_iff⟩
  cases hopen : o.openLoad with
  | false =>
    refine iff_of_true (allOrNothing_of_false fun n => ?_) (Or.inl hopen)
    rw [loadAfter, load_of_not_open hopen]
    exact ⟨rfl, rfl⟩
  | true =>
    cases hload : r.isLoad name with
    | true =>
      refine iff_of_true (allOrNothing_of_false fun n => ?_) (Or.inr (Or.inl hload))
      rw [loadAfter, load_of_isLoad hopen hload]
      exact ⟨rfl, rfl⟩
    | false =>
      rw [allOrNothing_iff_of_read fds path hopen hload, NothingFails, hopen, hload]
      simp

/-- A file of one byte, and no call that fails. -/
def oneByteCalls : LoadCalls :=
  ⟨[0x61], by decide, true, true, true, [⟨.bytes 180, fun _ => 0⟩]⟩

/-- Calls that succeed, the open of `getFileSize` and the reads apart. -/
def loadOutcomes (file : List UInt8) (fits : file.length < 2 ^ 32) (openSize : Bool)
    (result : ReadResult) : LoadOutcomes :=
  ⟨file, fits, true, openSize, true, fun _ => ⟨result, fun _ => 0⟩⟩

/-- A first `Load` whose reads are short, of a file that comes to two pages. -/
theorem load_allOrNothing_two_pages :
    AllOrNothing new ∅ "/sdcard/a.txt" "a"
      (loadOutcomes [0x61, 0xB0, 0xA1] (by decide) true (.bytes 2)) :=
  (load_allOrNothing_iff new ∅ "/sdcard/a.txt" "a"
    (loadOutcomes [0x61, 0xB0, 0xA1] (by decide) true (.bytes 2))).1.2
    (Or.inr (Or.inr ⟨rfl, by unfold CacheFits; decide, 2,
      fun _ _ => ReadResult.noConfusion, by decide +kernel, by decide⟩))

/-- A read error makes an entry of no pages, and `Load` returns `true`; where
the size is not to be had, or the file ends in half a character, it never
returns. -/
theorem load_not_allOrNothing :
    (loadAfter new ∅ "/sdcard/a.txt" "a" (loadOutcomes [0x61] (by decide) true .error) 1).ret =
        some true ∧
      ¬ AllOrNothing new ∅ "/sdcard/a.txt" "a" (loadOutcomes [0x61] (by decide) true .error) ∧
      ¬ AllOrNothing new ∅ "/sdcard/a.txt" "a"
        (loadOutcomes [0x61] (by decide) false (.bytes 180)) ∧
      ¬ AllOrNothing new ∅ "/sdcard/a.txt" "a"
        (loadOutcomes [0x61, 0xB0] (by decide) true (.bytes 180)) := by
  have hnew : new.isLoad "a" = false := by decide +kernel
  refine ⟨by decide +kernel, fun h => ?_, fun h => ?_, fun h => ?_⟩
  · obtain ⟨-, -, n, hok, hsize, -⟩ := (allOrNothing_iff_of_read ∅ _ rfl hnew).1 h
    cases n with
    | zero => exact absurd hsize (by decide)
    | succ n => exact hok 0 (Nat.succ_pos n) rfl
  · obtain ⟨-, -, n, -, hsize, -⟩ := (allOrNothing_iff_of_read ∅ _ rfl hnew).1 h
    have hle := bytesPaged_le [0x61] (loadOutcomes [0x61] (by decide) false (.bytes 180)).reads n
    rw [show bytesPaged [0x61] (loadOutcomes [0x61] (by decide) false (.bytes 180)).reads n =
      2 ^ 32 - 1 from hsize] at hle
    exact absurd hle (by decide)
  · obtain ⟨-, -, n, -, hsize, -⟩ := (allOrNothing_iff_of_read ∅ _ rfl hnew).1 h
    have hfull : ∀ k, ((loadOutcomes [0x61, 0xB0] (by decide) true (.bytes 180)).reads k).result =
        .bytes 180 := fun _ => rfl
    have hwhole := (exists_bytesPaged_iff hfull).1 ⟨n, hsize⟩
    exact absurd hwhole (by decide)

/-! ## Descriptors over a run -/

/-- The open of `getFileSize` and the early return leak: a `Load` gives
back what it opens only where it comes to neither. -/
def GivesBack (r : Reader) (name : String) (c : LoadCalls) : Prop :=
  c.openLoad = false ∨ (r.isLoad name = false ∧ c.openSize = false)

/-- A `Load` that returns leaves the descriptors it found exactly there. -/
theorem load_fds_iff (path : String) (hret : (load r fds path name c).ret ≠ none) :
    (load r fds path name c).fds = fds ↔ GivesBack r name c := by
  have leaks : ∀ fd, fd ∉ fds → insert fd fds ≠ fds := fun fd hnew heq =>
    hnew (heq ▸ Finset.mem_insert_self fd fds)
  unfold GivesBack
  cases hopen : c.openLoad with
  | false =>
    rw [load_of_not_open hopen]
    exact iff_of_true rfl (Or.inl rfl)
  | true =>
    cases hload : r.isLoad name with
    | true =>
      rw [load_of_isLoad hopen hload]
      exact iff_of_false (leaks _ (fdAlloc_notMem fds)) (by simp)
    | false =>
      obtain ⟨-, ⟨-, hnone⟩ | ⟨n, -, -, -, hfds⟩⟩ :=
        load_of_read fds path hopen hload
      · exact absurd hnone hret
      rw [hfds]
      cases hsize : c.openSize with
      | false => exact iff_of_true rfl (Or.inr ⟨rfl, rfl⟩)
      | true =>
        refine iff_of_false (leaks _ fun hmem => ?_) (by simp)
        exact fdAlloc_notMem (insert (fdAlloc fds) fds) (Finset.mem_insert_of_mem hmem)

/-- One call of `Load`. -/
structure LoadRequest where
  path : String
  name : String
  calls : LoadCalls

/-- The reader and the open descriptors after a call. -/
def loadStep (s : Reader × Finset ℕ) (q : LoadRequest) : Reader × Finset ℕ :=
  let run := load s.1 s.2 q.path q.name q.calls
  (run.reader, run.fds)

/-- The call returns. -/
def LoadReturns (s : Reader × Finset ℕ) (q : LoadRequest) : Prop :=
  (load s.1 s.2 q.path q.name q.calls).ret ≠ none

/-- **The open descriptors are the same after every `Load` of a run
exactly where no `Load` of it leaks**, over runs whose `Load`s return. -/
theorem loads_fds_iff (r : Reader) (fds : Finset ℕ) (requests : List LoadRequest)
    (hret : Run.AlongRun loadStep (fun s q _ => LoadReturns s q) (r, fds) requests) :
    Run.AlongRun loadStep (fun s _ s' => s'.2 = s.2) (r, fds) requests ↔
      Run.AlongRun loadStep (fun s q _ => GivesBack s.1 q.name q.calls) (r, fds) requests :=
  Run.alongRun_iff (I := fun _ => True) (fun s q _ hq => load_fds_iff (r := s.1) q.path hq)
    (fun _ _ _ _ => trivial) trivial hret

/-- Two `Load`s that leak nothing: the open of the first fails, and that of
`getFileSize` in the second. -/
theorem loads_fds_two_requests :
    Run.AlongRun loadStep (fun s _ s' => s'.2 = s.2) (new, ∅)
      [⟨"/sdcard/a.txt", "a", ⟨[0x61], by decide, false, true, true, []⟩⟩,
        ⟨"/sdcard/b.txt", "b", ⟨[0x62], by decide, true, false, false, []⟩⟩] :=
  (loads_fds_iff new ∅
    [⟨"/sdcard/a.txt", "a", ⟨[0x61], by decide, false, true, true, []⟩⟩,
      ⟨"/sdcard/b.txt", "b", ⟨[0x62], by decide, true, false, false, []⟩⟩]
    ⟨by unfold LoadReturns; decide +kernel, by unfold LoadReturns; decide +kernel, trivial⟩).2
    ⟨Or.inl rfl, Or.inr ⟨by decide +kernel, rfl⟩, trivial⟩

/-- A `Load` that succeeds keeps the descriptor of `getFileSize` open. -/
theorem load_leaks_descriptor :
    (load new ∅ "/sdcard/a.txt" "a" oneByteCalls).ret = some true ∧
      ¬ Run.AlongRun loadStep (fun s _ s' => s'.2 = s.2) (new, ∅)
        [⟨"/sdcard/a.txt", "a", oneByteCalls⟩] := by
  refine ⟨by decide +kernel, fun h => ?_⟩
  have hleak : (load new ∅ "/sdcard/a.txt" "a" oneByteCalls).fds = {1} := by
    decide +kernel
  have hsame := h.1
  simp only [loadStep, hleak] at hsame
  exact absurd hsame (by decide)

end Reader

end RtSpark
