import RtSpark.SdCard.Model.FileCommands
import RtSpark.Reader.Load
/-!
# The file commands end and close

Each command is a loop over the results of `read()`. A run stands before
the read number `k` only if the results before it let the loop go on, so
how a command can end is decided by the first result that does not.
`SD_Read` and the font update return from inside without a `close`, the
font update waits for bytes that a file at its end does not have, and
`hal::sd_fontlib_update` stores behind its block after every read.
-/

namespace RtSpark

namespace SdCard

open Reader (fdAlloc fdAlloc_notMem)
open Flash (bufSize)

variable {reads : ℕ → Option ℕ} {fds : Finset ℕ} {pass : CmdState → Option CmdState}
variable {s s' : CmdState}

/-- A `read()` that ends a file or fails. -/
def EndsAt (reads : ℕ → Option ℕ) (n : ℕ) : Prop := reads n = none ∨ reads n = some 0

/-- What a command is to do: to come to an end once `read()` has returned
zero or an error, to store inside its buffer of `size` bytes, and to leave
the descriptors as they were. -/
structure EndsAndCloses (reads : ℕ → Option ℕ) (size : ℕ) (fds : Finset ℕ)
    (pass : CmdState → Option CmdState) (init : CmdState) : Prop where
  ends : (∃ n, EndsAt reads n) → ∃ s, Loop.Exits pass init s
  inside : ∀ s, Loop.Reaches pass init s → ∀ p ∈ s.stores, p.1 + p.2 ≤ size
  closes : ∀ s, Loop.Exits pass init s → s.fds = fds

/-! ## Descriptors and stores -/

/-- What closes the descriptor that was opened. -/
theorem erase_insert_fdAlloc (fds : Finset ℕ) :
    (insert (fdAlloc fds) fds).erase (fdAlloc fds) = fds :=
  Finset.erase_insert (fdAlloc_notMem fds)

/-- A descriptor that stays open is one more. -/
theorem insert_fdAlloc_ne (fds : Finset ℕ) : insert (fdAlloc fds) fds ≠ fds := by
  intro h
  exact fdAlloc_notMem fds (Finset.insert_eq_self.1 h)

/-- Every stretch so far lies in the buffer. -/
def StoresInside (size : ℕ) (s : CmdState) : Prop := ∀ p ∈ s.stores, p.1 + p.2 ≤ size

theorem StoresInside.store {size first count : ℕ} (h : StoresInside size s)
    (hle : first + count ≤ size) : StoresInside size (s.store first count) := by
  intro p hp
  rcases List.mem_append.1 hp with hp | hp
  · exact h p hp
  · rw [List.mem_singleton.1 hp]
    exact hle

theorem storesInside_start {size : ℕ} : StoresInside size (CmdState.start fds) :=
  fun _ hp => absurd hp List.not_mem_nil

theorem StoresInside.leave {size : ℕ} (h : StoresInside size s) (ret : ℤ) :
    StoresInside size (s.leave ret) := h

/-- A command that returned at once. -/
theorem endsAndCloses_of_returned {size : ℕ} (hstop : pass s = none) (hin : StoresInside size s) :
    EndsAndCloses reads size fds pass s ↔ s.fds = fds := by
  have hexit : Loop.Exits pass s s := ⟨Relation.ReflTransGen.refl, hstop⟩
  constructor
  · exact fun h => h.closes s hexit
  · intro hfds
    refine ⟨fun _ => ⟨s, hexit⟩, fun t ht => ?_, fun t ht => ?_⟩
    · rw [ht.eq_of_none hstop]
      exact hin
    · rw [ht.1.eq_of_none hstop]
      exact hfds

/-! ## `SD_Read` -/

/-- A `read()` that fills the buffer. -/
def Full (reads : ℕ → Option ℕ) (k : ℕ) : Prop := ∃ n, reads k = some n ∧ 127 ≤ n

/-- The results before the read `k` let the loop go on. -/
def FullBefore (reads : ℕ → Option ℕ) (k : ℕ) : Prop := ∀ j, j < k → Full reads j

theorem fullBefore_succ {k : ℕ} (h : FullBefore reads k) (hk : Full reads k) :
    FullBefore reads (k + 1) := by
  intro j hj
  rcases Nat.lt_succ_iff_lt_or_eq.1 hj with hlt | rfl
  · exact h j hlt
  · exact hk

theorem not_full_of_none {k : ℕ} (hk : reads k = none) : ¬ Full reads k := by
  rintro ⟨n, hn, -⟩
  rw [hk] at hn
  cases hn

theorem not_full_of_short {k n : ℕ} (hk : reads k = some n) (hn : n < 127) : ¬ Full reads k := by
  rintro ⟨m, hm, hle⟩
  obtain rfl := Option.some.inj (hk.symm.trans hm)
  omega

/-- The first read that does not fill the buffer. -/
theorem exists_fullBefore {k : ℕ} (hk : ¬ Full reads k) :
    ∃ m, m ≤ k ∧ FullBefore reads m ∧ ¬ Full reads m := by
  classical
  have hexists : ∃ m, ¬ Full reads m := ⟨k, hk⟩
  exact ⟨Nat.find hexists, Nat.find_min' hexists hk,
    fun j hj => not_not.1 (Nat.find_min hexists hj), Nat.find_spec hexists⟩

/-- The loop stops at one read only. -/
theorem FullBefore.unique {k m : ℕ} (hk : FullBefore reads k) (hk' : ¬ Full reads k)
    (hm : FullBefore reads m) (hm' : ¬ Full reads m) : k = m := by
  rcases lt_trichotomy k m with hlt | heq | hgt
  · exact absurd (hm k hlt) hk'
  · exact heq
  · exact absurd (hk m hgt) hm'

/-- The head of the loop of `SD_Read`. -/
structure SdReadInv (reads : ℕ → Option ℕ) (fds : Finset ℕ) (s : CmdState) : Prop where
  inside : StoresInside sdReadBuf s
  stays : s.returned = none → s.fds = insert (fdAlloc fds) fds ∧ FullBefore reads s.reads
  left : s.returned ≠ none → ∃ k, FullBefore reads k ∧
    ((reads k = none ∧ s.fds = insert (fdAlloc fds) fds) ∨
      ((∃ n, reads k = some n ∧ n < 127) ∧ s.fds = fds))

theorem sdReadInv_init : SdReadInv reads fds ((CmdState.start fds).opened.store 0 sdReadBuf) where
  inside := storesInside_start.store (Nat.le_refl _)
  stays := fun _ => ⟨rfl, fun j hj => absurd hj (Nat.not_lt_zero j)⟩
  left := fun h => absurd rfl h

/-- **A pass of `SD_Read`** leaves at the first read that does not fill the
buffer. -/
theorem sdReadInv_step (h : SdReadInv reads fds s)
    (hpass : sdReadPass reads (fdAlloc fds) s = some s') :
    s.returned = none ∧ SdReadInv reads fds s' ∧ s'.reads = s.reads + 1 ∧
      (s'.returned = none ↔ Full reads s.reads) := by
  unfold sdReadPass at hpass
  split at hpass
  · cases hpass
  rename_i hsome
  have hgoes : s.returned = none := by simpa using hsome
  obtain ⟨hfds, hbefore⟩ := h.stays hgoes
  cases hread : reads s.reads with
  | none =>
    rw [hread] at hpass
    rw [← Option.some.inj hpass]
    refine ⟨hgoes, ⟨h.inside, fun h => (nomatch h), fun _ => ?_⟩, rfl, fun h => (nomatch h), ?_⟩
    · exact ⟨s.reads, hbefore, Or.inl ⟨hread, hfds⟩⟩
    · exact fun hfull => absurd hfull (not_full_of_none hread)
  | some n =>
    have hbuf : sdReadBuf = 128 := rfl
    have hcnt : min n (sdReadBuf - 1) + 1 ≤ sdReadBuf := by omega
    have hinside : StoresInside sdReadBuf
        ((({ s with reads := s.reads + 1 } : CmdState).store 0 (min n (sdReadBuf - 1))).store
          (min n (sdReadBuf - 1)) 1) := by
      have hs : StoresInside sdReadBuf ({ s with reads := s.reads + 1 } : CmdState) := h.inside
      exact (hs.store (by omega)).store hcnt
    simp only [hread] at hpass
    split at hpass
    · rename_i hshort
      rw [← Option.some.inj hpass]
      refine ⟨hgoes, ⟨hinside, fun h => (nomatch h), fun _ => ⟨s.reads, hbefore, Or.inr ?_⟩⟩, rfl,
        fun h => (nomatch h), ?_⟩
      · refine ⟨⟨n, hread, by omega⟩, ?_⟩
        show s.fds.erase (fdAlloc fds) = fds
        rw [hfds, erase_insert_fdAlloc]
      · exact fun hfull => absurd hfull (not_full_of_short hread (by omega))
    · rename_i hfull
      have hle : Full reads s.reads := ⟨n, hread, by omega⟩
      rw [← Option.some.inj hpass]
      exact ⟨hgoes, ⟨hinside, fun _ => ⟨hfds, fullBefore_succ hbefore hle⟩,
        fun hne => absurd hgoes hne⟩, rfl, fun _ => hle, fun _ => hgoes⟩

/-- The loop of `SD_Read` is left only by a `return`. -/
theorem returned_of_sdReadPass_none {fd : ℕ} (hstop : sdReadPass reads fd s = none) :
    s.returned ≠ none := by
  intro hgoes
  unfold sdReadPass at hstop
  rw [if_neg (by rw [hgoes]; decide)] at hstop
  cases hread : reads s.reads with
  | none =>
    rw [hread] at hstop
    cases hstop
  | some n =>
    simp only [hread] at hstop
    split at hstop <;> cases hstop

/-- The loop ends where some read does not fill the buffer. -/
theorem sdRead_exits (fds : Finset ℕ) {k : ℕ} (hk : ¬ Full reads k) :
    ∃ s, Loop.Exits (sdReadPass reads (fdAlloc fds))
      ((CmdState.start fds).opened.store 0 sdReadBuf) s := by
  refine ⟨_, Loop.run_exits (I := SdReadInv reads fds)
    (μ := fun s => if s.returned = none then k + 1 - s.reads else 0) (n := k + 2) ?_
    sdReadInv_init ?_⟩
  · intro s s' h hpass
    obtain ⟨hgoes, h', hreads, hiff⟩ := sdReadInv_step h hpass
    have hbefore := (h.stays hgoes).2
    have hle : s.reads ≤ k := Nat.le_of_not_lt fun hlt => hk (hbefore k hlt)
    refine ⟨h', ?_⟩
    simp only [hgoes, if_true, hreads]
    split_ifs <;> omega
  · simp only [CmdState.store, CmdState.opened, CmdState.start, if_true]
    omega

theorem sdReadInv_of_reaches
    (h : Loop.Reaches (sdReadPass reads (fdAlloc fds))
      ((CmdState.start fds).opened.store 0 sdReadBuf) s) :
    SdReadInv reads fds s :=
  h.invariant sdReadInv_init fun _ _ hinv hpass => (sdReadInv_step hinv hpass).2.1

/-- The read the loop stops at says whether it closes. -/
theorem sdRead_fds_iff {k : ℕ} (hk : FullBefore reads k) (hk' : ¬ Full reads k)
    (hexit : Loop.Exits (sdReadPass reads (fdAlloc fds))
      ((CmdState.start fds).opened.store 0 sdReadBuf) s) :
    s.fds = fds ↔ reads k ≠ none := by
  obtain ⟨m, hm, hcases⟩ :=
    (sdReadInv_of_reaches hexit.1).left (returned_of_sdReadPass_none hexit.2)
  rcases hcases with ⟨hfails, hopen⟩ | ⟨⟨n, hn, hshort⟩, hclosed⟩
  · obtain rfl := hm.unique (not_full_of_none hfails) hk hk'
    refine iff_of_false ?_ (not_not.2 hfails)
    rw [hopen]
    exact insert_fdAlloc_ne fds
  · obtain rfl := hm.unique (not_full_of_short hn hshort) hk hk'
    refine iff_of_true hclosed ?_
    rw [hn]
    exact Option.some_ne_none n

/-- **When `SD_Read` gives its descriptor back**: no read fails before one
is short. -/
theorem sdRead_endsAndCloses_iff (argc : ℤ) (opens : Bool) (reads : ℕ → Option ℕ)
    (fds : Finset ℕ) :
    EndsAndCloses reads sdReadBuf fds (sdReadPass reads (fdAlloc fds))
        (sdReadStart argc opens fds) ↔
      argc ≠ 2 ∨ opens = false ∨
        ∀ k, reads k = none → ∃ j, j < k ∧ ∃ n, reads j = some n ∧ n < 127 := by
  unfold sdReadStart
  split_ifs with hargc hopens
  · rw [endsAndCloses_of_returned rfl (storesInside_start.leave _)]
    exact iff_of_true rfl (Or.inl hargc)
  · rw [endsAndCloses_of_returned rfl (storesInside_start.leave _)]
    exact iff_of_true rfl (Or.inr (Or.inl hopens))
  constructor
  · intro h
    refine Or.inr (Or.inr fun k hk => ?_)
    obtain ⟨m, hle, hm, hm'⟩ := exists_fullBefore (not_full_of_none hk)
    obtain ⟨s, hexit⟩ := sdRead_exits fds hm'
    have hread : reads m ≠ none := (sdRead_fds_iff hm hm' hexit).1 (h.closes s hexit)
    obtain ⟨n, hn⟩ := Option.ne_none_iff_exists'.1 hread
    refine ⟨m, Nat.lt_of_le_of_ne hle ?_, n, hn, Nat.lt_of_not_le fun hge => hm' ⟨n, hn, hge⟩⟩
    rintro rfl
    exact hread hk
  · rintro (hne | hfalse | hshort)
    · exact absurd hne hargc
    · exact absurd hfalse hopens
    · refine ⟨?_, fun s hs => ?_, fun s hexit => ?_⟩
      · rintro ⟨n, hn | hn⟩
        · exact sdRead_exits fds (not_full_of_none hn)
        · exact sdRead_exits fds (not_full_of_short hn (by decide))
      · exact (sdReadInv_of_reaches hs).inside
      · obtain ⟨k, hk, ⟨hfails, -⟩ | ⟨-, hclosed⟩⟩ :=
          (sdReadInv_of_reaches hexit.1).left (returned_of_sdReadPass_none hexit.2)
        · obtain ⟨j, hj, n, hn, hlt⟩ := hshort k hfails
          exact absurd (hk j hj) (not_full_of_short hn hlt)
        · exact hclosed

/-! ## `hal::sd_fontlib_update` -/

theorem sdFontlibPass_returned {fd : ℕ} (h : s.returned ≠ none) :
    sdFontlibPass reads fd s = none := by
  unfold sdFontlibPass
  rw [if_pos (Option.isSome_iff_ne_none.2 h)]

/-- **When `hal::sd_fontlib_update` does what it is to do**: it reads
nothing. A read that succeeds is followed by a store behind the block. -/
theorem sdFontlib_endsAndCloses_iff (opens : Bool) (reads : ℕ → Option ℕ) (fds : Finset ℕ) :
    EndsAndCloses reads fontBufSize fds (sdFontlibPass reads (fdAlloc fds))
      (sdFontlibStart opens fds) ↔ opens = false ∨ reads 0 = none := by
  unfold sdFontlibStart
  split_ifs with hopens
  · rw [endsAndCloses_of_returned rfl (storesInside_start.leave _)]
    exact iff_of_true rfl (Or.inl hopens)
  cases hread : reads 0 with
  | some n =>
    refine iff_of_false (fun h => ?_) ?_
    · have hpass : sdFontlibPass reads (fdAlloc fds) (CmdState.start fds).opened =
          some ((({ (CmdState.start fds).opened with reads := 1 } : CmdState).store 0
            (min n (fontBufSize - 1))).store fontBufSize 1) := by
        simp [sdFontlibPass, CmdState.start, CmdState.opened, hread]
      have hin := h.inside _ (Relation.ReflTransGen.single hpass) (fontBufSize, 1)
        (List.mem_append_right _ (List.mem_singleton_self _))
      exact absurd hin (Nat.not_succ_le_self _)
    · rintro (hfalse | hnone)
      · exact hopens hfalse
      · cases hnone
  | none =>
    refine iff_of_true ?_ (Or.inr rfl)
    have hpass : sdFontlibPass reads (fdAlloc fds) (CmdState.start fds).opened =
        some ((({ (CmdState.start fds).opened with reads := 1 } : CmdState).close
          (fdAlloc fds)).leave 0) := by
      simp [sdFontlibPass, CmdState.start, CmdState.opened, hread]
    have hexit : Loop.Exits (sdFontlibPass reads (fdAlloc fds)) (CmdState.start fds).opened _ :=
      ⟨Relation.ReflTransGen.single hpass, sdFontlibPass_returned (fun h => (nomatch h))⟩
    refine ⟨fun _ => ⟨_, hexit⟩, fun t ht => ?_, fun t ht => ?_⟩
    · rcases Relation.ReflTransGen.cases_head ht with rfl | ⟨u, hu, hrest⟩
      · exact storesInside_start
      · obtain rfl := Option.some.inj (hpass.symm.trans hu)
        rw [Loop.Reaches.eq_of_none hrest hexit.2]
        exact fun _ hp => absurd hp List.not_mem_nil
    · rw [ht.unique hexit]
      exact erase_insert_fdAlloc fds

end SdCard

end RtSpark
