import RtSpark.SdCard.FileCommands
import Mathlib.Algebra.Group.Nat.Defs
/-!
# The font update ends and closes

`SPI_Flash_FontLibUpdate` opens the library first and has eight returns
after that, of which one closes it. So it gives the descriptor back only
where none of the others is taken: the partition and its device are
there, the erase and its check succeed, and no write fails. The copy loop
counts bytes, so a file shorter than it was said to be keeps it reading.
-/

namespace RtSpark

namespace SdCard

open Reader (fdAlloc)
open Flash (bufSize)

variable {c : FontLibCalls} {fds : Finset ℕ} {len : ℕ} {s s' : CmdState}
variable {verify : ℕ → ℤ × Bool}

/-! ## The check of the erase -/

/-- The read of the chunk at `i` succeeds, and finds it erased. -/
def ChunkErased (verify : ℕ → ℤ × Bool) (i : ℕ) : Prop :=
  0 ≤ (verify i).1 ∧ (verify i).2 = true

/-- The check stores into the buffer and sets the results; the rest stays. -/
theorem verifyLoop_frame (verify : ℕ → ℤ × Bool) (len i : ℕ) (s : CmdState) :
    (verifyLoop verify len i s).fds = s.fds ∧ (verifyLoop verify len i s).reads = s.reads ∧
      (verifyLoop verify len i s).total = s.total := by
  fun_induction verifyLoop verify len i s with
  | case1 i s hi n s₁ hneg => exact ⟨rfl, rfl, rfl⟩
  | case2 i s hi n s₁ hneg hbad => exact ⟨rfl, rfl, rfl⟩
  | case3 i s hi n s₁ hneg hbad ih => exact ih
  | case4 i s hi => exact ⟨rfl, rfl, rfl⟩

theorem verifyLoop_inside (verify : ℕ → ℤ × Bool) (len i : ℕ)
    (h : StoresInside bufSize s) :
    StoresInside bufSize (verifyLoop verify len i s) := by
  have hchunk : ∀ {s : CmdState} {i : ℕ} {ret : ℤ}, StoresInside bufSize s →
      StoresInside bufSize ({ (s.store 0 bufSize).store 0
        (if bufSize < len - i then bufSize else len - i) with ret := ret } : CmdState) := by
    intro s i ret hs
    refine (hs.store (Nat.le_of_eq (Nat.zero_add _))).store ?_
    split <;> omega
  fun_induction verifyLoop verify len i s with
  | case1 i s hi n s₁ hneg => exact (hchunk h).leave _
  | case2 i s hi n s₁ hneg hbad => exact (hchunk h).leave _
  | case3 i s hi n s₁ hneg hbad ih => exact ih (hchunk h)
  | case4 i s hi => exact h

/-- The check goes through where every chunk is erased. -/
theorem verifyLoop_returned_iff (verify : ℕ → ℤ × Bool) (s : CmdState) {i : ℕ}
    (hi : i % bufSize = 0 ∨ len ≤ i) (h : s.returned = none) :
    (verifyLoop verify len i s).returned = none ↔
      ∀ m, i ≤ m → m < len → m % bufSize = 0 → ChunkErased verify m := by
  fun_induction verifyLoop verify len i s with
  | case1 i s hlt n s₁ hneg =>
    refine iff_of_false (fun h => (nomatch h)) fun hall => ?_
    have herased := (hall i (Nat.le_refl i) hlt (hi.resolve_right (by omega))).1
    omega
  | case2 i s hlt n s₁ hneg hbad =>
    refine iff_of_false (fun h => (nomatch h)) fun hall => ?_
    have herased := (hall i (Nat.le_refl i) hlt (hi.resolve_right (by omega))).2
    rw [hbad] at herased
    cases herased
  | case3 i s hlt n s₁ hneg hbad ih =>
    have hmod : i % bufSize = 0 := hi.resolve_right (by omega)
    have hn : n = if bufSize < len - i then bufSize else len - i := rfl
    have hnext : (i + n) % bufSize = 0 ∨ len ≤ i + n := by
      rw [hn]
      unfold bufSize at *
      split <;> omega
    rw [ih hnext h]
    constructor
    · intro hall m him hm hmm
      -- the next chunk begins `bufSize` on
      rcases Nat.eq_or_lt_of_le him with rfl | hgt
      · exact ⟨by omega, by simpa using hbad⟩
      · refine hall m ?_ hm hmm
        rw [hn]
        unfold bufSize at *
        split <;> omega
    · exact fun hall m him => hall m (Nat.le_trans (Nat.le_add_right i n) him)
  | case4 i s hlt => exact iff_of_true h fun m him hm => absurd hm (by omega)

/-! ## A pass of the copy loop -/

theorem leave_returned_ne (s : CmdState) (ret : ℤ) : (s.leave ret).returned ≠ none :=
  Option.some_ne_none ret

theorem fontLibPass_returned {fd : ℕ} (h : s.returned ≠ none) : fontLibPass c fd s = none := by
  unfold fontLibPass
  rw [if_pos (Option.isSome_iff_ne_none.2 h)]

/-- The state after a read of `n` bytes and its write. -/
def wrote (c : FontLibCalls) (n : ℕ) (s : CmdState) : CmdState :=
  { s.store 0 (min n bufSize) with
    reads := s.reads + 1
    total := (s.total + min n bufSize) % 2 ^ 32
    ret := c.writes s.reads }

/-- A pass that reads, and whose write goes through. -/
theorem fontLibPass_of_written (fd : ℕ) {n : ℕ} (hpart : c.partition = some len)
    (hgoes : s.returned = none) (hguard : s.total < c.stSize % 2 ^ 32 ∧ s.total < len)
    (hread : c.reads s.reads = some n) (hwrite : 0 ≤ c.writes s.reads) :
    fontLibPass c fd s = some (wrote c n s) := by
  simp only [fontLibPass, hgoes, Option.isSome_none, Bool.false_eq_true, if_false, hpart,
    Option.getD_some, hguard, hread, Int.not_lt.2 hwrite, CmdState.store, and_self, if_true, wrote]

/-- A pass whose write fails. -/
theorem fontLibPass_of_failed (fd : ℕ) {n : ℕ} (hpart : c.partition = some len)
    (hgoes : s.returned = none) (hguard : s.total < c.stSize % 2 ^ 32 ∧ s.total < len)
    (hread : c.reads s.reads = some n) (hwrite : c.writes s.reads < 0) :
    fontLibPass c fd s = some (({ s.store 0 (min n bufSize) with
      reads := s.reads + 1
      ret := c.writes s.reads } : CmdState).leave (-8)) := by
  simp only [fontLibPass, hgoes, Option.isSome_none, Bool.false_eq_true, if_false, hpart,
    Option.getD_some, hguard, hread, hwrite, CmdState.store, and_self, if_true]

/-- A pass whose read fails. -/
theorem fontLibPass_of_none (fd : ℕ) (hpart : c.partition = some len)
    (hgoes : s.returned = none) (hguard : s.total < c.stSize % 2 ^ 32 ∧ s.total < len)
    (hread : c.reads s.reads = none) :
    fontLibPass c fd s =
      some ((({ s with reads := s.reads + 1 } : CmdState).close fd).leave s.ret) := by
  simp only [fontLibPass, hgoes, Option.isSome_none, Bool.false_eq_true, if_false, hpart,
    Option.getD_some, hguard, hread, and_self, if_true]

/-- What follows the loop. -/
theorem fontLibPass_of_done (fd : ℕ) (hpart : c.partition = some len)
    (hgoes : s.returned = none) (hguard : ¬ (s.total < c.stSize % 2 ^ 32 ∧ s.total < len)) :
    fontLibPass c fd s = some ((s.close fd).leave s.ret) := by
  simp only [fontLibPass, hgoes, Option.isSome_none, Bool.false_eq_true, if_false, hpart,
    Option.getD_some, hguard]

/-- **What a pass does.** -/
theorem fontLibPass_cases (fd : ℕ) (hpart : c.partition = some len) (hgoes : s.returned = none) :
    (¬ (s.total < c.stSize % 2 ^ 32 ∧ s.total < len) ∧
        fontLibPass c fd s = some ((s.close fd).leave s.ret)) ∨
      ((s.total < c.stSize % 2 ^ 32 ∧ s.total < len) ∧
        ((c.reads s.reads = none ∧ fontLibPass c fd s =
            some ((({ s with reads := s.reads + 1 } : CmdState).close fd).leave s.ret)) ∨
          ∃ n, c.reads s.reads = some n ∧
            ((c.writes s.reads < 0 ∧ fontLibPass c fd s = some (({ s.store 0 (min n bufSize) with
                reads := s.reads + 1
                ret := c.writes s.reads } : CmdState).leave (-8))) ∨
              (0 ≤ c.writes s.reads ∧ fontLibPass c fd s = some (wrote c n s))))) := by
  by_cases hguard : s.total < c.stSize % 2 ^ 32 ∧ s.total < len
  · refine Or.inr ⟨hguard, ?_⟩
    cases hread : c.reads s.reads with
    | none => exact Or.inl ⟨rfl, fontLibPass_of_none fd hpart hgoes hguard hread⟩
    | some n =>
      refine Or.inr ⟨n, rfl, ?_⟩
      rcases Int.lt_or_le (c.writes s.reads) 0 with hneg | hpos
      · exact Or.inl ⟨hneg, fontLibPass_of_failed fd hpart hgoes hguard hread hneg⟩
      · exact Or.inr ⟨hpos, fontLibPass_of_written fd hpart hgoes hguard hread hpos⟩
  · exact Or.inl ⟨hguard, fontLibPass_of_done fd hpart hgoes hguard⟩

/-- The loop is left only by a `return`. -/
theorem returned_of_fontLibPass_none {fd : ℕ} (hpart : c.partition = some len)
    (hstop : fontLibPass c fd s = none) : s.returned ≠ none := by
  intro hgoes
  rcases fontLibPass_cases fd hpart hgoes with
    ⟨-, hpass⟩ | ⟨-, ⟨-, hpass⟩ | ⟨n, -, ⟨-, hpass⟩ | ⟨-, hpass⟩⟩⟩ <;>
  · rw [hstop] at hpass
    cases hpass

/-! ## The copy loop -/

/-- `total` before the read `k`. -/
def copied (reads : ℕ → Option ℕ) : ℕ → ℕ
  | 0 => 0
  | k + 1 => (copied reads k + min ((reads k).getD 0) bufSize) % 2 ^ 32

/-- How far the copy loop is to go. -/
def copyLimit (c : FontLibCalls) (len : ℕ) : ℕ := min (c.stSize % 2 ^ 32) len

/-- The results before the read `k` let the loop go on. -/
def Copying (c : FontLibCalls) (len k : ℕ) : Prop :=
  ∀ j, j < k → copied c.reads j < copyLimit c len ∧ c.reads j ≠ none ∧ 0 ≤ c.writes j

theorem copying_succ {k : ℕ} (h : Copying c len k) (hlt : copied c.reads k < copyLimit c len)
    (hread : c.reads k ≠ none) (hwrite : 0 ≤ c.writes k) : Copying c len (k + 1) := by
  intro j hj
  rcases Nat.lt_succ_iff_lt_or_eq.1 hj with hlt' | rfl
  · exact h j hlt'
  · exact ⟨hlt, hread, hwrite⟩

/-- The write after the read `k` is made, and fails. -/
def WriteFails (c : FontLibCalls) (len k : ℕ) : Prop :=
  Copying c len k ∧ copied c.reads k < copyLimit c len ∧ c.reads k ≠ none ∧ c.writes k < 0

/-- The copy loop goes as far as the read `k`, and ends there. -/
def CopyEnds (c : FontLibCalls) (len k : ℕ) : Prop :=
  Copying c len k ∧ (c.reads k = none ∨ copyLimit c len ≤ copied c.reads k)

/-- The head of the copy loop. -/
structure CopyInv (c : FontLibCalls) (len : ℕ) (fds : Finset ℕ) (s : CmdState) : Prop where
  inside : StoresInside bufSize s
  stays : s.returned = none → s.fds = insert (fdAlloc fds) fds ∧ Copying c len s.reads ∧
    s.total = copied c.reads s.reads
  left : s.returned ≠ none →
    (s.fds = fds ∧ ∃ k, CopyEnds c len k) ∨
      (s.fds = insert (fdAlloc fds) fds ∧ ∃ k, WriteFails c len k)

/-- **A pass of the copy loop** goes on after a write, and leaves
otherwise. -/
theorem copyInv_step (hpart : c.partition = some len) (h : CopyInv c len fds s)
    (hpass : fontLibPass c (fdAlloc fds) s = some s') :
    s.returned = none ∧ CopyInv c len fds s' ∧ (s'.returned = none → s'.reads = s.reads + 1) := by
  have hgoes : s.returned = none := by
    by_contra hne
    rw [fontLibPass_returned hne] at hpass
    cases hpass
  obtain ⟨hfds, hcopying, htotal⟩ := h.stays hgoes
  have hclosed : s.fds.erase (fdAlloc fds) = fds := by rw [hfds, erase_insert_fdAlloc]
  have hlimit : (s.total < c.stSize % 2 ^ 32 ∧ s.total < len) ↔
      copied c.reads s.reads < copyLimit c len := by
    rw [← htotal, copyLimit, lt_min_iff]
  have hinside : ∀ n, StoresInside bufSize (s.store 0 (min n bufSize)) :=
    fun n => h.inside.store (by omega)
  refine ⟨hgoes, ?_⟩
  rcases fontLibPass_cases (fdAlloc fds) hpart hgoes with
    ⟨hguard, heq⟩ | ⟨hguard, ⟨hread, heq⟩ | ⟨n, hread, ⟨hwrite, heq⟩ | ⟨hwrite, heq⟩⟩⟩
  all_goals rw [← Option.some.inj (heq.symm.trans hpass)]
  · refine ⟨⟨h.inside, fun h => absurd h (leave_returned_ne _ _),
      fun _ => Or.inl ⟨hclosed, s.reads, hcopying, Or.inr ?_⟩⟩,
      fun h => absurd h (leave_returned_ne _ _)⟩
    exact Nat.le_of_not_lt fun hlt => hguard (hlimit.2 hlt)
  · exact ⟨⟨h.inside, fun h => absurd h (leave_returned_ne _ _),
      fun _ => Or.inl ⟨hclosed, s.reads, hcopying, Or.inl hread⟩⟩,
      fun h => absurd h (leave_returned_ne _ _)⟩
  · have hne : c.reads s.reads ≠ none := by rw [hread]; exact Option.some_ne_none n
    exact ⟨⟨hinside n, fun h => absurd h (leave_returned_ne _ _),
      fun _ => Or.inr ⟨hfds, s.reads, hcopying, hlimit.1 hguard, hne, hwrite⟩⟩,
      fun h => absurd h (leave_returned_ne _ _)⟩
  · have hne : c.reads s.reads ≠ none := by rw [hread]; exact Option.some_ne_none n
    refine ⟨⟨hinside n, fun _ => ⟨hfds, copying_succ hcopying (hlimit.1 hguard) hne hwrite, ?_⟩,
      fun hleft => absurd hgoes hleft⟩, fun _ => rfl⟩
    show (s.total + min n bufSize) % 2 ^ 32 = copied c.reads (s.reads + 1)
    rw [copied, hread, Option.getD_some, htotal]

section

variable {init : CmdState}

/-- The copy loop ends where it has an end. -/
theorem fontLib_exits (hpart : c.partition = some len) (hinit : CopyInv c len fds init)
    (hgoes : init.returned = none) {n : ℕ}
    (hn : c.reads n = none ∨ copyLimit c len ≤ copied c.reads n) :
    ∃ s, Loop.Exits (fontLibPass c (fdAlloc fds)) init s := by
  refine ⟨_, Loop.run_exits (I := CopyInv c len fds)
    (μ := fun s => if s.returned = none then n + 1 - s.reads else 0) (n := n + 2) ?_ hinit ?_⟩
  · intro s s' h hpass
    obtain ⟨hs, h', hreads⟩ := copyInv_step hpart h hpass
    have hcopying := (h.stays hs).2.1
    have hle : s.reads ≤ n := Nat.le_of_not_lt fun hlt => by
      obtain ⟨hlim, hread, -⟩ := hcopying n hlt
      rcases hn with hn | hn
      · exact hread hn
      · omega
    refine ⟨h', ?_⟩
    simp only [hs, if_true]
    split_ifs with hs'
    · rw [hreads hs']
      omega
    · omega
  · simp only [hgoes, if_true]
    omega

/-- A read that the results before it let come is made. -/
theorem fontLib_reaches (hpart : c.partition = some len) (hgoes : init.returned = none)
    (hreads : init.reads = 0) (htotal : init.total = 0) {k : ℕ} (hk : Copying c len k) :
    ∃ s, Loop.Reaches (fontLibPass c (fdAlloc fds)) init s ∧ s.returned = none ∧ s.reads = k ∧
      s.fds = init.fds ∧ s.total = copied c.reads k := by
  induction k with
  | zero => exact ⟨init, Relation.ReflTransGen.refl, hgoes, hreads, rfl, htotal⟩
  | succ k ih =>
    obtain ⟨s, hs, hret, rfl, hfds, hsum⟩ := ih fun j hj => hk j (Nat.lt_succ_of_lt hj)
    obtain ⟨hlim, hread, hwrite⟩ := hk s.reads (Nat.lt_succ_self _)
    obtain ⟨n, hn⟩ := Option.ne_none_iff_exists'.1 hread
    have hguard : s.total < c.stSize % 2 ^ 32 ∧ s.total < len := by
      rw [hsum]
      exact lt_min_iff.1 hlim
    have hpass := fontLibPass_of_written (fdAlloc fds) hpart hret hguard hn hwrite
    refine ⟨_, hs.tail hpass, hret, rfl, hfds, ?_⟩
    show (s.total + min n bufSize) % 2 ^ 32 = copied c.reads (s.reads + 1)
    rw [copied, hn, Option.getD_some, hsum]

end

/-! ## `SPI_Flash_FontLibUpdate` -/

/-- The update takes none of the returns after its `open`, and the copy
has an end where `read()` comes to one. -/
structure Completes (c : FontLibCalls) (len : ℕ) : Prop where
  name : c.name = true
  device : c.device = true
  erase : 0 ≤ c.erase
  erased : ∀ m, m < len → m % bufSize = 0 → ChunkErased c.verify m
  writes : ∀ k, ¬ WriteFails c len k
  ends : (∃ n, EndsAt c.reads n) →
    ∃ n, c.reads n = none ∨ copyLimit c len ≤ copied c.reads n

/-- A return with the descriptor open. -/
theorem not_endsAndCloses_of_open {size : ℕ} (h : s.returned ≠ none)
    (hfds : s.fds = insert (fdAlloc fds) fds) :
    ¬ EndsAndCloses c.reads size fds (fontLibPass c (fdAlloc fds)) s := by
  intro hends
  have hclosed := hends.closes s ⟨Relation.ReflTransGen.refl, fontLibPass_returned h⟩
  exact insert_fdAlloc_ne fds (hfds.symm.trans hclosed)

/-- Where the copy loop is entered, it decides. -/
theorem copyLoop_endsAndCloses_iff {init : CmdState} (hpart : c.partition = some len)
    (hinit : CopyInv c len fds init) (hgoes : init.returned = none) (hreads : init.reads = 0)
    (htotal : init.total = 0) :
    EndsAndCloses c.reads bufSize fds (fontLibPass c (fdAlloc fds)) init ↔
      (∀ k, ¬ WriteFails c len k) ∧ ((∃ n, EndsAt c.reads n) →
        ∃ n, c.reads n = none ∨ copyLimit c len ≤ copied c.reads n) := by
  have hinv : ∀ {t}, Loop.Reaches (fontLibPass c (fdAlloc fds)) init t → CopyInv c len fds t :=
    fun ht => ht.invariant hinit fun _ _ h hpass => (copyInv_step hpart h hpass).2.1
  have hfds : init.fds = insert (fdAlloc fds) fds := (hinit.stays hgoes).1
  constructor
  · intro h
    refine ⟨?_, fun hend => ?_⟩
    · rintro k ⟨hcopying, hlim, hread, hneg⟩
      obtain ⟨t, ht, hret, rfl, htfds, hsum⟩ := fontLib_reaches hpart hgoes hreads htotal hcopying
      obtain ⟨n, hn⟩ := Option.ne_none_iff_exists'.1 hread
      have hguard : t.total < c.stSize % 2 ^ 32 ∧ t.total < len := by
        rw [hsum]
        exact lt_min_iff.1 hlim
      have hpass := fontLibPass_of_failed (fdAlloc fds) hpart hret hguard hn hneg
      have hclosed := h.closes _ ⟨ht.tail hpass, fontLibPass_returned (leave_returned_ne _ _)⟩
      exact insert_fdAlloc_ne fds ((htfds.trans hfds).symm.trans hclosed)
    · obtain ⟨t, ht⟩ := h.ends hend
      rcases (hinv ht.1).left (returned_of_fontLibPass_none hpart ht.2) with ⟨-, k, hk⟩ | ⟨hopen, -⟩
      · exact ⟨k, hk.2⟩
      · exact absurd (hopen.symm.trans (h.closes t ht)) (insert_fdAlloc_ne fds)
  · rintro ⟨hwrites, hends⟩
    refine ⟨fun hend => ?_, fun t ht => (hinv ht).inside, fun t ht => ?_⟩
    · obtain ⟨n, hn⟩ := hends hend
      exact fontLib_exits hpart hinit hgoes hn
    · rcases (hinv ht.1).left (returned_of_fontLibPass_none hpart ht.2) with
        ⟨hclosed, -⟩ | ⟨-, k, hk⟩
      · exact hclosed
      · exact absurd hk (hwrites k)

/-- The check of the erase and the copy, once the partition is found. -/
theorem fontLibFound_endsAndCloses_iff (hpart : c.partition = some len) (hname : c.name = true) :
    EndsAndCloses c.reads bufSize fds (fontLibPass c (fdAlloc fds))
      (fontLibFound c len (CmdState.start fds).opened) ↔ Completes c len := by
  unfold fontLibFound
  split_ifs with hdevice herase
  · refine iff_of_false (not_endsAndCloses_of_open (leave_returned_ne _ _) rfl) fun hall => ?_
    exact absurd (hdevice.symm.trans hall.device) Bool.false_ne_true
  · refine iff_of_false (not_endsAndCloses_of_open (leave_returned_ne _ _) rfl) fun hall => ?_
    exact absurd hall.erase (Int.not_le.2 herase)
  have hbuf : StoresInside bufSize
      ({ (CmdState.start fds).opened.store 0 bufSize with ret := c.erase } : CmdState) :=
    storesInside_start.store (Nat.le_of_eq (Nat.zero_add _))
  obtain ⟨hfds, hreads, htotal⟩ := verifyLoop_frame c.verify len 0
    { (CmdState.start fds).opened.store 0 bufSize with ret := c.erase }
  have herased := verifyLoop_returned_iff c.verify
    { (CmdState.start fds).opened.store 0 bufSize with ret := c.erase }
    (Or.inl (Nat.zero_mod bufSize) : 0 % bufSize = 0 ∨ len ≤ 0) rfl
  have hinside := verifyLoop_inside c.verify len 0 hbuf
  generalize verifyLoop c.verify len 0
    { (CmdState.start fds).opened.store 0 bufSize with ret := c.erase } = t at *
  show EndsAndCloses c.reads bufSize fds (fontLibPass c (fdAlloc fds))
    (if t.returned.isSome then t else t.store 0 bufSize) ↔ Completes c len
  split_ifs with hsome
  · refine iff_of_false (not_endsAndCloses_of_open (Option.isSome_iff_ne_none.1 hsome) hfds) ?_
    intro hall
    rw [herased.2 fun m _ hm hmod => hall.erased m hm hmod] at hsome
    cases hsome
  · have hgoes : t.returned = none := by simpa using hsome
    have hinit : CopyInv c len fds (t.store 0 bufSize) := {
      inside := hinside.store (Nat.le_of_eq (Nat.zero_add _))
      stays := fun _ => ⟨hfds,
        fun j hj => absurd (Nat.lt_of_lt_of_eq hj hreads) (Nat.not_lt_zero j),
        htotal.trans (congrArg (copied c.reads) hreads).symm⟩
      left := fun hleft => absurd hgoes hleft }
    rw [copyLoop_endsAndCloses_iff hpart hinit hgoes hreads htotal]
    constructor
    · rintro ⟨hwrites, hends⟩
      exact ⟨hname, by simpa using hdevice, Int.not_lt.1 herase,
        fun m hm hmod => herased.1 hgoes m (Nat.zero_le m) hm hmod, hwrites, hends⟩
    · exact fun hall => ⟨hall.writes, hall.ends⟩

/-- **When the font update gives its descriptor back.** -/
theorem fontLib_endsAndCloses_iff (c : FontLibCalls) (fds : Finset ℕ) :
    EndsAndCloses c.reads bufSize fds (fontLibPass c (fdAlloc fds)) (fontLibStart c fds) ↔
      c.argc ≠ 3 ∨ c.opens = false ∨ ∃ len, c.partition = some len ∧ Completes c len := by
  unfold fontLibStart
  split_ifs with hargc hopens hname
  · rw [endsAndCloses_of_returned (fontLibPass_returned (leave_returned_ne _ _))
      (storesInside_start.leave _)]
    exact iff_of_true rfl (Or.inl hargc)
  · rw [endsAndCloses_of_returned (fontLibPass_returned (leave_returned_ne _ _))
      (storesInside_start.leave _)]
    exact iff_of_true rfl (Or.inr (Or.inl hopens))
  · refine iff_of_false (not_endsAndCloses_of_open (leave_returned_ne _ _) rfl) ?_
    rintro (hne | hfalse | ⟨len, -, hall⟩)
    · exact hargc hne
    · exact hopens hfalse
    · exact absurd (hname.symm.trans hall.name) Bool.false_ne_true
  cases hpart : c.partition with
  | none =>
    refine iff_of_false (not_endsAndCloses_of_open (leave_returned_ne _ _) rfl) ?_
    rintro (hne | hfalse | ⟨len, hlen, -⟩)
    · exact hargc hne
    · exact hopens hfalse
    · cases hlen
  | some len =>
    have hiff : (c.argc ≠ 3 ∨ c.opens = false ∨ ∃ len', some len = some len' ∧ Completes c len') ↔
        Completes c len := by
      simp [hargc, hopens]
    rw [hiff]
    exact fontLibFound_endsAndCloses_iff hpart (by simpa using hname)

/-! ## The three commands -/

/-- **When the file commands end and close.** -/
theorem fileCommands_endAndClose_iff (argc : ℤ) (opens : Bool) (reads : ℕ → Option ℕ)
    (c : FontLibCalls) (fds : Finset ℕ) :
    (EndsAndCloses reads sdReadBuf fds (sdReadPass reads (fdAlloc fds))
        (sdReadStart argc opens fds) ↔
      argc ≠ 2 ∨ opens = false ∨
        ∀ k, reads k = none → ∃ j, j < k ∧ ∃ n, reads j = some n ∧ n < 127) ∧
    (EndsAndCloses reads fontBufSize fds (sdFontlibPass reads (fdAlloc fds))
        (sdFontlibStart opens fds) ↔
      opens = false ∨ reads 0 = none) ∧
    (EndsAndCloses c.reads bufSize fds (fontLibPass c (fdAlloc fds)) (fontLibStart c fds) ↔
      c.argc ≠ 3 ∨ c.opens = false ∨ ∃ len, c.partition = some len ∧ Completes c len) :=
  ⟨sdRead_endsAndCloses_iff argc opens reads fds, sdFontlib_endsAndCloses_iff opens reads fds,
    fontLib_endsAndCloses_iff c fds⟩

/-- An update whose calls all succeed, of a file that was longer when it
was asked for its size. -/
def shrunkUpdate : FontLibCalls where
  argc := 3
  opens := true
  stSize := 600
  name := true
  partition := some 1024
  device := true
  erase := 1024
  verify := fun _ => (512, true)
  reads := fun _ => some 0
  writes := fun _ => 0

/-- The same, of a partition that is not there. -/
def unknownPartition : FontLibCalls := { shrunkUpdate with partition := none }

/-- A read that fails, a read that succeeds, a file that has shrunk and a
partition that is not there. -/
theorem fileCommands_not_endAndClose :
    ¬ EndsAndCloses (fun _ => none) sdReadBuf ∅ (sdReadPass (fun _ => none) (fdAlloc ∅))
        (sdReadStart 2 true ∅) ∧
    ¬ EndsAndCloses (fun _ => some 0) fontBufSize ∅ (sdFontlibPass (fun _ => some 0) (fdAlloc ∅))
        (sdFontlibStart true ∅) ∧
    ¬ EndsAndCloses shrunkUpdate.reads bufSize ∅ (fontLibPass shrunkUpdate (fdAlloc ∅))
        (fontLibStart shrunkUpdate ∅) ∧
    ¬ EndsAndCloses unknownPartition.reads bufSize ∅ (fontLibPass unknownPartition (fdAlloc ∅))
        (fontLibStart unknownPartition ∅) := by
  refine ⟨?_, ?_, ?_, ?_⟩
  · rw [sdRead_endsAndCloses_iff]
    rintro (h | h | h)
    · exact h rfl
    · cases h
    · obtain ⟨j, hj, -⟩ := h 0 rfl
      exact Nat.not_lt_zero j hj
  · rw [sdFontlib_endsAndCloses_iff]
    rintro (h | h) <;> cases h
  · rw [fontLib_endsAndCloses_iff]
    rintro (h | h | ⟨len, hlen, hall⟩)
    · exact h rfl
    · cases h
    obtain rfl := Option.some.inj hlen
    have hcopied : ∀ n, copied (fun _ => some 0) n = 0 := by
      intro n
      induction n with
      | zero => rfl
      | succ n ih => rw [copied, ih]; rfl
    obtain ⟨n, hn | hn⟩ := hall.ends ⟨0, Or.inr rfl⟩
    · cases hn
    · rw [show shrunkUpdate.reads = fun _ => some 0 from rfl, hcopied n] at hn
      exact absurd hn (by decide)
  · rw [fontLib_endsAndCloses_iff]
    rintro (h | h | ⟨len, hlen, -⟩)
    · exact h rfl
    · cases h
    · cases hlen

end SdCard

end RtSpark
