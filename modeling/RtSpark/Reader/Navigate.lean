import RtSpark.Reader.Load
import Mathlib.Algebra.BigOperators.Group.List.Basic
/-!
# Page navigation

`Next` and `Prev` against a walk around the pages. `Next` falls out of
step only past page 65535. `Prev` decrements before it looks, and looks
for page 0: from page 1 it wraps too early, from page 0 too late. So a
run goes around the pages exactly as long as it stays clear of those
(`navigate_cyclic_iff`), and the page it is on is then the turns made,
modulo the pages (`page_of_cyclic`).
-/

namespace RtSpark

namespace Reader

/-- A key that turns the page. -/
inductive Nav where
  | next
  | prev
deriving DecidableEq

/-- The way the page is turned. -/
def Nav.turn : Nav → ℤ
  | .next => 1
  | .prev => -1

def navigate (r : Reader) : Nav → Option Reader
  | .next => r.next
  | .prev => r.prev

/-- A reader whose `at()` throws stays as it is. -/
def navStep (r : Reader) (op : Nav) : Reader := (navigate r op).getD r

/-- The step turns one page of `n`, around the end or the start of them. -/
structure Cyclic (n : ℕ) (r : Reader) (op : Nav) (r' : Reader) : Prop where
  runs : navigate r op = some r'
  below : r'.currentPageNum < n
  turned : (r'.currentPageNum : ℤ) = (r.currentPageNum + op.turn) % n

/-- The page a call starts from is none of those it goes wrong at. -/
def InStep (n : ℕ) (r : Reader) : Nav → Prop
  | .next => r.currentPageNum ≠ 65535 ∨ n ≤ 65536
  | .prev => 2 ≤ r.currentPageNum ∨ (r.currentPageNum = 0 ∧ n = 65536) ∨
      (r.currentPageNum = 1 ∧ n % 65536 = 1)

instance (n : ℕ) (r : Reader) : DecidablePred (InStep n r)
  | .next => inferInstanceAs (Decidable (_ ∨ _))
  | .prev => inferInstanceAs (Decidable (_ ∨ _))

/-! ## One call -/

/-- The reader stands on a page of the novel it shows. -/
structure OnPage (novel : NovelInfo) (r : Reader) : Prop where
  shown : r.novelList[r.currnetID]? = some novel
  below : r.currentPageNum < novel.pagelist.length
  fits : r.currentPageNum < 2 ^ 16

variable {novel : NovelInfo} {r r' : Reader} {op : Nav}

theorem navigate_next (h : r.novelList[r.currnetID]? = some novel) :
    navigate r .next = some { r with currentPageNum :=
      if novel.pagelist.length ≤ (r.currentPageNum + 1) % 2 ^ 16 then 0
      else (r.currentPageNum + 1) % 2 ^ 16 } := by
  unfold navigate next
  simp only [h, Option.pure_def, Option.bind_eq_bind, Option.bind_some]
  split <;> rfl

theorem navigate_prev (h : r.novelList[r.currnetID]? = some novel) :
    navigate r .prev = some { r with currentPageNum :=
      if (r.currentPageNum + (2 ^ 16 - 1)) % 2 ^ 16 ≤ 0 then
        (novel.pagelist.length + (2 ^ 16 - 1)) % 2 ^ 16
      else (r.currentPageNum + (2 ^ 16 - 1)) % 2 ^ 16 } := by
  unfold navigate prev
  simp only [h, Option.pure_def, Option.bind_eq_bind, Option.bind_some]
  split <;> rfl

/-- Where a call sets page `k`, it turns one page when `k` is the page
next to the one it starts from. -/
theorem cyclic_iff {k : ℕ} (hrun : navigate r op = some { r with currentPageNum := k }) :
    Cyclic novel.pagelist.length r op (navStep r op) ↔
      k < novel.pagelist.length ∧
        (k : ℤ) = (r.currentPageNum + op.turn) % novel.pagelist.length := by
  have hstep : navStep r op = { r with currentPageNum := k } := by
    rw [navStep, hrun]
    rfl
  rw [hstep]
  exact ⟨fun h => ⟨h.below, h.turned⟩, fun h => ⟨hrun, h.1, h.2⟩⟩

/-- The page next to `i` in either direction, as a natural number. -/
theorem emod_next {i n : ℕ} (h : i < n) :
    ((i : ℤ) + 1) % n = if i + 1 = n then 0 else (i : ℤ) + 1 := by
  split
  · rename_i heq
    rw [← heq]
    push_cast
    exact Int.emod_self
  · exact Int.emod_eq_of_lt (by omega) (by omega)

theorem emod_prev {i n : ℕ} (h : i < n) :
    ((i : ℤ) + -1) % n = if i = 0 then (n : ℤ) - 1 else (i : ℤ) - 1 := by
  split
  · rename_i heq
    rw [heq, ← Int.add_emod_right]
    rw [Int.emod_eq_of_lt (by omega) (by omega)]
    omega
  · rw [Int.emod_eq_of_lt (by omega) (by omega)]
    omega

/-- **One call turns a page exactly where it is in step.** -/
theorem navigate_cyclic (h : OnPage novel r) (op : Nav) :
    Cyclic novel.pagelist.length r op (navStep r op) ↔ InStep novel.pagelist.length r op := by
  obtain ⟨hshown, hbelow, hfits⟩ := h
  cases op with
  | next =>
    rw [cyclic_iff (navigate_next hshown), Nav.turn, emod_next hbelow, InStep]
    split <;> split <;> omega
  | prev =>
    rw [cyclic_iff (navigate_prev hshown), Nav.turn, emod_prev hbelow, InStep]
    split <;> split <;> omega

/-- A call that turns a page keeps the reader on the novel's pages. -/
theorem onPage_step (h : OnPage novel r) (hcyclic : Cyclic novel.pagelist.length r op r') :
    OnPage novel r' := by
  have hrun := hcyclic.runs
  have hfits : ∀ k, k % 2 ^ 16 < 2 ^ 16 := fun k => Nat.mod_lt k (by decide)
  cases op with
  | next =>
    rw [navigate_next h.shown] at hrun
    cases hrun
    refine ⟨h.shown, hcyclic.below, ?_⟩
    simp only
    split
    · decide
    · exact hfits _
  | prev =>
    rw [navigate_prev h.shown] at hrun
    cases hrun
    refine ⟨h.shown, hcyclic.below, ?_⟩
    simp only
    split
    · exact hfits _
    · exact hfits _

/-! ## A run -/

/-- **A run that turns a page at every call is on the page its turns lead
to.** So a turn back undoes a turn, and every page is some turns away. -/
theorem page_of_cyclic {n : ℕ} {ops : List Nav} (hpage : r.currentPageNum < n)
    (h : Run.AlongRun navStep (Cyclic n) r ops) :
    ((Run.stateAfter navStep r ops).currentPageNum : ℤ)
      = (r.currentPageNum + (ops.map Nav.turn).sum) % n := by
  induction ops generalizing r with
  | nil =>
    rw [Run.stateAfter_nil, List.map_nil, List.sum_nil, Int.add_zero]
    exact (Int.emod_eq_of_lt (by omega) (by omega)).symm
  | cons op ops ih =>
    rw [Run.stateAfter_cons, ih h.1.below h.2, h.1.turned, List.map_cons, List.sum_cons,
      Int.emod_add_emod, Int.add_assoc]

/-- A `Load` that makes the only entry of the list shows its first page. -/
theorem onPage_load {fds : Finset ℕ} {path name : String} {c : LoadCalls}
    (hload : (load r fds path name c).ret = some true)
    (hlist : (load r fds path name c).reader.novelList = [novel])
    (hn : 1 ≤ novel.pagelist.length) :
    OnPage novel (load r fds path name c).reader ∧
      (load r fds path name c).reader.currentPageNum = 0 := by
  cases hopen : c.openLoad with
  | false =>
    rw [load_of_not_open hopen] at hload
    cases hload
  | true =>
    cases hname : r.isLoad name with
    | true =>
      rw [load_of_isLoad hopen hname] at hload
      cases hload
    | false =>
      obtain ⟨-, ⟨-, hnone⟩ | ⟨n, -, -, hreader, -⟩⟩ :=
        load_of_read fds path hopen hname
      · rw [hload] at hnone
        cases hnone
      · rw [hreader] at hlist ⊢
        refine ⟨⟨?_, hn, show 0 < 2 ^ 16 by decide⟩, rfl⟩
        simp only at hlist ⊢
        rw [hlist]
        rfl

/-- **Navigation goes around the pages exactly where every call is in
step**, and then the page shown is the turns made, modulo the pages. -/
theorem navigate_cyclic_iff (r : Reader) (fds : Finset ℕ) (path name : String) (c : LoadCalls)
    (novel : NovelInfo) (ops : List Nav)
    (hload : (load r fds path name c).ret = some true)
    (hlist : (load r fds path name c).reader.novelList = [novel])
    (hn : 1 ≤ novel.pagelist.length) :
    (Run.AlongRun navStep (Cyclic novel.pagelist.length) (load r fds path name c).reader ops ↔
        Run.AlongRun navStep (fun s op _ => InStep novel.pagelist.length s op)
          (load r fds path name c).reader ops) ∧
      (Run.AlongRun navStep (fun s op _ => InStep novel.pagelist.length s op)
          (load r fds path name c).reader ops →
        ((Run.stateAfter navStep (load r fds path name c).reader ops).currentPageNum : ℤ)
          = (ops.map Nav.turn).sum % novel.pagelist.length) := by
  obtain ⟨hpage, hzero⟩ := onPage_load hload hlist hn
  have hiff : Run.AlongRun navStep (Cyclic novel.pagelist.length)
        (load r fds path name c).reader ops ↔
      Run.AlongRun navStep (fun s op _ => InStep novel.pagelist.length s op)
        (load r fds path name c).reader ops :=
    Run.alongRun_iff (I := OnPage novel) (Q := fun _ _ _ => True)
      (fun s op hs _ => navigate_cyclic hs op) (fun s op hs hcyclic => onPage_step hs hcyclic) hpage
      (Run.alongRun_of_forall fun _ _ => trivial)
  refine ⟨hiff, fun hstep => ?_⟩
  rw [page_of_cyclic hpage.below (hiff.2 hstep), hzero]
  simp

/-- A file of nineteen empty lines, read in three goes. -/
def emptyLineCalls : LoadCalls where
  file := (List.replicate 19 [cr, lf]).flatten
  fits := by decide +kernel
  openLoad := true
  openSize := true
  openRead := true
  reads := List.replicate 3 ⟨.bytes 180, fun _ => 0⟩

/-- Its three pages, to the last one, back by one, and on over the end. -/
theorem navigate_cyclic_three_pages :
    let r := (load new ∅ "/sdcard/a.txt" "a" emptyLineCalls).reader
    let ops := [Nav.next, .next, .prev, .next, .next]
    Run.AlongRun navStep (Cyclic 3) r ops ∧
      ((Run.stateAfter navStep r ops).currentPageNum : ℤ) = 0 := by
  intro r ops
  have hpages : r.novelList.map (fun novel => novel.pagelist.length) = [3] := by decide +kernel
  obtain ⟨novel, hlist, hn⟩ := List.map_eq_singleton_iff.1 hpages
  obtain ⟨hiff, hpage⟩ := navigate_cyclic_iff new ∅ "/sdcard/a.txt" "a" emptyLineCalls novel ops
    (by decide +kernel) hlist (by omega)
  rw [hn] at hiff hpage
  have hstep : Run.AlongRun navStep (fun s op _ => InStep 3 s op) r ops := by decide +kernel
  exact ⟨hiff.2 hstep, hpage hstep⟩

/-- `Prev` on the page of a one-page novel goes to page 65535. -/
theorem prev_leaves_the_pages :
    (navStep (load new ∅ "/sdcard/a.txt" "a" oneByteCalls).reader .prev).currentPageNum = 65535 ∧
      ¬ Run.AlongRun navStep (Cyclic 1) (load new ∅ "/sdcard/a.txt" "a" oneByteCalls).reader
        [.prev] := by
  have hpage : (navStep (load new ∅ "/sdcard/a.txt" "a" oneByteCalls).reader
      .prev).currentPageNum = 65535 := by decide +kernel
  refine ⟨hpage, fun h => ?_⟩
  have hbelow := h.1.below
  rw [hpage] at hbelow
  omega

end Reader

end RtSpark
