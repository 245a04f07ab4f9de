import RtSpark.Kernel.Chain
/-!
# What the heap operations do to the line

One result for each of `rt_smem_alloc`, `rt_smem_free` and the two ways of
`rt_smem_realloc`, in terms of the line of blocks the heap represents. None
of them fails an assertion, none of them writes into the data of a block
that is in use afterwards, and each leaves the allocator's own figures in
agreement with the line: the first free item, the bytes in use and their
high-water mark.
-/

namespace RtSpark

namespace Kernel

open Blocks RtSmallMem

variable {m m' : RtSmallMem} {b c : Block} {bs pre mid post : List Block} {n size : ℕ}
  {heap heap' : ℕ → ℕ} {es es' : List (ℕ × ℕ)}

theorem SameData.mono (h : SameData es heap heap') (hsub : ∀ e ∈ es', e ∈ es) :
    SameData es' heap heap' := fun e he => h e (hsub e he)

/-! ## Marking and cutting an item -/

theorem live_middle_used :
    live 0 (pre ++ ⟨n, true⟩ :: post) =
      live 0 pre ++ (Blocks.total pre, n) :: live (Blocks.total pre + n) post := by
  rw [live_append, live_used rfl, Nat.zero_add]

theorem live_middle_free :
    live 0 (pre ++ ⟨n, false⟩ :: post) =
      live 0 pre ++ live (Blocks.total pre + n) post := by
  rw [live_append, live_free rfl, Nat.zero_add]

/-- What is in use with the block free is in use with it in use. -/
theorem mem_live_of_free {e : ℕ × ℕ} (h : e ∈ live 0 (pre ++ ⟨n, false⟩ :: post)) :
    e ∈ live 0 (pre ++ ⟨n, true⟩ :: post) := by
  rw [live_middle_free] at h
  rw [live_middle_used]
  rcases List.mem_append.1 h with h | h
  · exact List.mem_append_left _ h
  · exact List.mem_append_right _ (List.mem_cons_of_mem _ h)

/-- `pool_ptr` written marks the block. -/
theorem Chained.mark (h : Chained m (pre ++ b :: post)) (u : Bool) :
    Chained (m.setPoolPtr (Blocks.total pre) (m.addr / 2 * 2 + u.toNat))
        (pre ++ ⟨b.len, u⟩ :: post) ∧
      SameData (live 0 (pre ++ ⟨b.len, true⟩ :: post)) m.heap
        (m.setPoolPtr (Blocks.total pre) (m.addr / 2 * 2 + u.toNat)).heap := by
  have hlen := h.len_middle
  have hat := h.headerAt
  have hne : ∀ a, a ≠ Blocks.total pre →
      (m.setPoolPtr (Blocks.total pre) (m.addr / 2 * 2 + u.toNat)).heap a = m.heap a :=
    fun a ha => Function.update_of_ne ha _ _
  constructor
  · refine Chained.splice [b] [⟨b.len, u⟩] h ⟨rfl, rfl, rfl, rfl⟩ ?_
      ⟨⟨?_, ?_, ?_⟩, trivial⟩ (by simp) (fun hpost => ?_) ?_
    · intro a ha _
      simp only [total_cons, total_nil] at ha
      exact hne a (by omega)
    · exact Function.update_self ..
    · rw [hne _ (by omega), hat.next]
    · rw [hne _ (by omega), hat.prev]
    · obtain ⟨c, cs, rfl⟩ := List.exists_cons_of_ne_nil hpost
      have h' : Chained m ((pre ++ [b]) ++ c :: cs) := by rwa [List.append_assoc]
      have hprev := h'.headerAt.prev
      rw [lastAt_append] at hprev
      simp only [total_append, total_cons, total_nil, Nat.add_zero, Nat.zero_add] at hprev ⊢
      rw [hne _ (by omega), hprev]
      rfl
    · intro d hd
      rw [List.mem_singleton] at hd
      subst hd
      exact hlen
  · intro e he a h1 h2
    refine hne a ?_
    have hh : sizeofStructMem = 12 := rfl
    rw [live_middle_used] at he
    rcases List.mem_append.1 he with he | he
    · have := bounds_of_mem_live he
      omega
    · rcases List.mem_cons.1 he with rfl | he
      · change Blocks.total pre + _ ≤ a at h1
        omega
      · have := bounds_of_mem_live he
        omega

/-- The writes of `cut`, one by one. -/
theorem cut_eq {p q : ℕ} (hnext : m.next p = q) (hsize : p + size + 24 ≤ q) :
    ∃ heap', m.cut p size = { m with heap := heap' } ∧
      heap' (p + size + 12) = m.addr / 2 * 2 ∧ heap' (p + size + 16) = q ∧
      heap' (p + size + 20) = p ∧ heap' (p + 4) = p + size + 12 ∧
      (q ≠ m.memSizeAligned + 12 → heap' (q + 8) = p + size + 12) ∧
      ∀ a, a ≠ p + size + 12 → a ≠ p + size + 16 → a ≠ p + size + 20 → a ≠ p + 4 →
        (q ≠ m.memSizeAligned + 12 → a ≠ q + 8) → heap' a = m.heap a := by
  let heap' := Function.update (Function.update (Function.update (Function.update m.heap
    (p + size + 12) (m.addr / 2 * 2)) (p + size + 16) q) (p + size + 20) p) (p + 4) (p + size + 12)
  have hcut : m.cut p size = if q ≠ m.memSizeAligned + 12 then
      { m with heap := Function.update heap' (q + 8) (p + size + 12) }
      else { m with heap := heap' } := by
    have h1 : p + sizeofStructMem + size = p + size + 12 := by unfold sizeofStructMem; omega
    unfold RtSmallMem.next at hnext
    unfold RtSmallMem.cut
    simp only [h1, RtSmallMem.setPoolPtr, RtSmallMem.setNext, RtSmallMem.setPrev,
      RtSmallMem.store, RtSmallMem.next, RtSmallMem.memFreed]
    rw [Function.update_of_ne (by omega) _ m.heap, hnext]
    simp only [Nat.add_assoc, Nat.reduceAdd]
    rw [Function.update_of_ne (by omega), Function.update_of_ne (by omega), Function.update_self]
    simp only [heap', sizeofStructMem, Nat.add_assoc]
    rfl
  by_cases hq : q ≠ m.memSizeAligned + 12
  · rw [if_pos hq] at hcut
    refine ⟨_, hcut, ?_, ?_, ?_, ?_, fun _ => Function.update_self .., fun a h1 h2 h3 h4 h5 => ?_⟩
    · simp only [heap', Function.update_apply]
      rw [if_neg (by omega), if_neg (by omega), if_neg (by omega), if_neg (by omega), if_true]
    · simp only [heap', Function.update_apply]
      rw [if_neg (by omega), if_neg (by omega), if_neg (by omega), if_true]
    · simp only [heap', Function.update_apply]
      rw [if_neg (by omega), if_neg (by omega), if_true]
    · simp only [heap', Function.update_apply]
      rw [if_neg (by omega), if_true]
    · simp only [heap', Function.update_apply]
      rw [if_neg (h5 hq), if_neg h4, if_neg h3, if_neg h2, if_neg h1]
  · rw [if_neg hq] at hcut
    refine ⟨_, hcut, ?_, ?_, ?_, Function.update_self .., fun h => absurd h hq,
      fun a h1 h2 h3 h4 _ => ?_⟩
    · simp only [heap', Function.update_apply]
      rw [if_neg (by omega), if_neg (by omega), if_neg (by omega), if_true]
    · simp only [heap', Function.update_apply]
      rw [if_neg (by omega), if_neg (by omega), if_true]
    · simp only [heap', Function.update_apply]
      rw [if_neg (by omega), if_true]
    · simp only [heap', Function.update_apply]
      rw [if_neg h4, if_neg h3, if_neg h2, if_neg h1]

/-- A block cut in two, the second of the pieces free. -/
theorem Chained.cut (h : Chained m (pre ++ b :: post)) (hsize : size % 4 = 0)
    (hroom : size + 24 ≤ b.len) :
    ∃ heap', m.cut (Blocks.total pre) size = { m with heap := heap' } ∧
      Chained { m with heap := heap' }
        (pre ++ ⟨size + 12, b.used⟩ :: ⟨b.len - (size + 12), false⟩ :: post) ∧
      SameData (live 0 (pre ++ ⟨size + 12, true⟩ :: ⟨b.len - (size + 12), false⟩ :: post))
        m.heap heap' := by
  have hlen := h.len_middle
  have hat := h.headerAt
  have htot := h.total_split
  have hend := h.heapEnd
  obtain ⟨heap', hcut, h0, h4, h8, hn, hprev, hout⟩ :=
    cut_eq h.next (show Blocks.total pre + size + 24 ≤ Blocks.total pre + b.len by omega)
  refine ⟨heap', hcut, ?_, ?_⟩
  · refine Chained.splice [b] [⟨size + 12, b.used⟩, ⟨b.len - (size + 12), false⟩] h
      ⟨rfl, rfl, rfl, rfl⟩ ?_
      ⟨⟨?_, ?_, ?_⟩, ⟨?_, ?_, ?_⟩, trivial⟩ ?_ (fun hpost => ?_) ?_
    · intro a ha hne
      simp only [total_cons, total_nil, Nat.add_zero] at ha hne
      exact hout a (by omega) (by omega) (by omega) (by omega) (fun _ => hne)
    · show heap' _ = _
      rw [hout _ (by omega) (by omega) (by omega) (by omega) (fun _ => by omega), hat.poolPtr]
    · exact hn
    · show heap' _ = _
      rw [hout _ (by omega) (by omega) (by omega) (by omega) (fun _ => by omega), hat.prev]
    · exact h0
    · show heap' _ = Blocks.total pre + (size + 12) + (b.len - (size + 12))
      rw [show Blocks.total pre + (size + 12) + 4 = Blocks.total pre + size + 16 by omega, h4]
      omega
    · exact h8
    · simp only [total_cons, total_nil]
      omega
    · obtain ⟨c, cs, rfl⟩ := List.exists_cons_of_ne_nil hpost
      have hclen := h.wide c (by simp)
      rw [total_cons] at htot
      simp only [total_cons, total_nil, Nat.add_zero]
      exact hprev (by omega)
    · intro d hd
      rcases List.mem_cons.1 hd with rfl | hd
      · exact ⟨by show 12 ≤ size + 12; omega, by show (size + 12) % 4 = 0; omega⟩
      · rw [List.mem_singleton] at hd
        subst hd
        exact ⟨by show 12 ≤ b.len - (size + 12); omega,
          by show (b.len - (size + 12)) % 4 = 0; omega⟩
  · intro e he a h1 h2
    have hh : sizeofStructMem = 12 := rfl
    rw [live_middle_used, live_free rfl] at he
    rcases List.mem_append.1 he with he | he
    · have hb := bounds_of_mem_live he
      exact hout a (by omega) (by omega) (by omega) (by omega) (fun _ => by omega)
    · rcases List.mem_cons.1 he with rfl | he
      · change Blocks.total pre + 12 ≤ a at h1
        change a < Blocks.total pre + (size + 12) at h2
        exact hout a (by omega) (by omega) (by omega) (by omega) (fun _ => by omega)
      · have hb := bounds_of_mem_live he
        change Blocks.total pre + (size + 12) + (b.len - (size + 12)) ≤ e.1 ∧ _ at hb
        exact hout a (by omega) (by omega) (by omega) (by omega) (fun _ => by omega)

/-! ## Allocation -/

/-- The request as `rt_smem_alloc` rounds it. -/
def request (n : ℕ) : ℕ := max (rtAlign n) minSizeAligned

theorem rtAlign_mod (n : ℕ) : rtAlign n % 4 = 0 := by
  unfold rtAlign rtAlignSize
  omega

theorem request_mod (n : ℕ) : request n % 4 = 0 := by
  have := rtAlign_mod n
  unfold request minSizeAligned
  omega

/-- A line that starts aligned stays so. -/
theorem Chained.total_mod (h : Chained m (pre ++ post)) : Blocks.total pre % 4 = 0 := by
  have hal : ∀ b ∈ pre, b.len % 4 = 0 := fun b hb => h.aligned b (List.mem_append_left _ hb)
  clear h
  induction pre with
  | nil => rfl
  | cons b bs ih =>
    have hb := hal b (List.mem_cons_self ..)
    have hbs := ih fun c hc => hal c (List.mem_cons_of_mem _ hc)
    rw [total_cons]
    omega

/-- The item `lfree` is moved to is free, or the end of the heap. -/
theorem Chained.lowest_free (h : Chained m bs) :
    lowest 0 bs = m.heapEnd ∨ m.memIsUsed (lowest 0 bs) = false := by
  obtain ⟨pre, post, rfl, -, hlow, hpost⟩ := exists_lowest_split 0 bs
  rw [hlow, Nat.zero_add]
  cases post with
  | nil =>
    have := h.total
    rw [List.append_nil] at this
    exact Or.inl this
  | cons c cs =>
    refine Or.inr ?_
    rw [h.memIsUsed]
    exact hpost c rfl

/-- The line is read off the words alone. -/
theorem Chained.of_heap (h : Chained m bs) (hm : SameHeap m m') (hheap : m'.heap = m.heap) :
    Chained m' bs where
  headers := by rw [hm.addr, hheap]; exact h.headers
  endUsed := by rw [hm.addr, hm.heapEnd, hheap]; exact h.endUsed
  total := by rw [hm.heapEnd]; exact h.total
  heapEnd := by rw [hm.heapEnd, hm.memSizeAligned]; exact h.heapEnd
  wide := h.wide
  aligned := h.aligned
  base := by rw [hm.heapPtr]; exact h.base
  addr := by rw [hm.addr]; exact h.addr

theorem Chained.pos_left (h : Chained m (pre ++ post)) : ∀ a ∈ pre, 0 < a.len := fun a ha => by
  have := h.wide a (List.mem_append_left _ ha)
  omega

/-- Where the item taken was the first free one, `lfree` moves on to the
next; otherwise it stays, and is right in both cases. -/
theorem lfree_settled (h : Represents m (pre ++ b :: post)) (hb : b.used = false)
    (hlfree : m'.lfree = m.lfree) (hch : Chained m' (pre ++ mid)) :
    (if Blocks.total pre = m'.lfree then m'.setLfree m'.nextFree else m').lfree =
      lowest 0 (pre ++ mid) := by
  by_cases hall : ∀ a ∈ pre, a.used = true
  · have hlow : m'.lfree = Blocks.total pre := by
      rw [hlfree, h.lfree, lowest_append_of_used hall, Blocks.lowest_free hb, Nat.zero_add]
    have hnext : m'.nextFree = lowest (Blocks.total pre) mid := by
      unfold RtSmallMem.nextFree
      rw [hlow]
      exact hch.run_lfreePass hch.length_lt
    rw [if_pos hlow.symm, lowest_append_of_used hall, Nat.zero_add]
    exact hnext
  · push Not at hall
    obtain ⟨a, ha, hau⟩ := hall
    have hfree : a.used = false := Bool.eq_false_iff.2 hau
    have hlt := lowest_lt_of_free (p := 0) (b :: post) ha hfree h.toChained.pos_left
    rw [Nat.zero_add, ← h.lfree] at hlt
    rw [if_neg (by rw [hlfree]; omega), hlfree, h.lfree]
    exact lowest_append_of_free ha hfree

/-- `used` and `max` leave the line alone. -/
theorem Chained.addUsed (h : Chained m bs) (n : ℕ) : Chained (m.addUsed n) bs :=
  h.of_heap ⟨rfl, rfl, rfl, rfl⟩ rfl

theorem addUsed_max (m : RtSmallMem) (n : ℕ) : (m.addUsed n).used ≤ (m.addUsed n).max := by
  show m.used + n ≤ if m.max < m.used + n then m.used + n else m.max
  split_ifs <;> omega

/-- The item taken, before `lfree` is seen to. -/
theorem place_spec (h : Chained m (pre ++ b :: post)) (hb : b.used = false)
    (hsize : size % 4 = 0) (hroom : size + 12 ≤ b.len) :
    SameHeap m (m.place (Blocks.total pre) size) ∧
      (m.place (Blocks.total pre) size).lfree = m.lfree ∧
      Chained (m.place (Blocks.total pre) size) (pre ++ (carve (size + 12) 24 b ++ post)) ∧
      (m.used = usedLen (pre ++ b :: post) → (m.place (Blocks.total pre) size).used =
        usedLen (pre ++ (carve (size + 12) 24 b ++ post))) ∧
      (m.place (Blocks.total pre) size).used ≤ (m.place (Blocks.total pre) size).max ∧
      SameData (live 0 (pre ++ (carve (size + 12) 24 b ++ post))) m.heap
        (m.place (Blocks.total pre) size).heap := by
  have hlen := h.len_middle
  have hnext := h.next
  have hh : sizeofStructMem = 12 := rfl
  have hmin : minSizeAligned = 12 := rfl
  by_cases hcut : size + 12 + 24 ≤ b.len
  · obtain ⟨heap1, hcutEq, hch1, hsame1⟩ := h.cut hsize (by omega)
    obtain ⟨hch2, hsame2⟩ := (hch1.addUsed (size + 12)).mark true
    have hcarve : carve (size + 12) 24 b = [⟨size + 12, true⟩, ⟨b.len - (size + 12), false⟩] :=
      if_pos hcut
    have hplace : m.place (Blocks.total pre) size =
        (({ m with heap := heap1 } : RtSmallMem).addUsed (size + 12)).setPoolPtr
          (Blocks.total pre) (m.addr / 2 * 2 + 1) := by
      unfold RtSmallMem.place
      rw [if_pos (by rw [hnext]; omega), hcutEq]
      rfl
    rw [hplace, hcarve]
    refine ⟨⟨rfl, rfl, rfl, rfl⟩, rfl, hch2, fun hused => ?_, addUsed_max _ _,
      hsame1.trans hsame2⟩
    show m.used + (size + 12) = _
    simp only [usedLen_append, usedLen_cons, hb, List.cons_append, List.nil_append,
      Bool.false_eq_true, if_false, if_true] at hused ⊢
    omega
  · obtain ⟨hch2, hsame2⟩ := (h.addUsed b.len).mark true
    have hcarve : carve (size + 12) 24 b = [⟨b.len, true⟩] := if_neg hcut
    have hplace : m.place (Blocks.total pre) size =
        (m.addUsed b.len).setPoolPtr (Blocks.total pre) (m.addr / 2 * 2 + 1) := by
      unfold RtSmallMem.place
      rw [if_neg (by rw [hnext]; omega), hnext, Nat.add_sub_cancel_left]
      rfl
    rw [hplace, hcarve]
    refine ⟨⟨rfl, rfl, rfl, rfl⟩, rfl, hch2, fun hused => ?_, addUsed_max _ _, hsame2⟩
    show m.used + b.len = _
    simp only [usedLen_append, usedLen_cons, hb, List.cons_append, List.nil_append,
      Bool.false_eq_true, if_false, if_true] at hused ⊢
    omega

/-- **The item settled on is taken.** -/
theorem Represents.take (h : Represents m (pre ++ b :: post)) (hb : b.used = false)
    (hsize : size % 4 = 0) (hroom : size + 12 ≤ b.len) :
    Represents (m.take (Blocks.total pre) size) (pre ++ (carve (size + 12) 24 b ++ post)) ∧
      SameHeap m (m.take (Blocks.total pre) size) ∧
      SameData (live 0 (pre ++ (carve (size + 12) 24 b ++ post))) m.heap
        (m.take (Blocks.total pre) size).heap := by
  obtain ⟨hm, hlfree, hch, hused, hmax, hsame⟩ := place_spec h.toChained hb hsize hroom
  have hset := lfree_settled h hb hlfree hch
  have hkeep : ∀ v, SameHeap (m.place (Blocks.total pre) size)
      ((m.place (Blocks.total pre) size).setLfree v) := fun v => ⟨rfl, rfl, rfl, rfl⟩
  have htidy := tidy_carve (size + 12) 24 h.tidy hb
  unfold RtSmallMem.take
  by_cases hmem : Blocks.total pre = (m.place (Blocks.total pre) size).lfree
  · rw [if_pos hmem] at hset ⊢
    exact ⟨⟨hch.of_heap (hkeep _) rfl, htidy, hset, hused h.used, hmax⟩, hm.trans (hkeep _), hsame⟩
  · rw [if_neg hmem] at hset ⊢
    exact ⟨⟨hch, htidy, hset, hused h.used, hmax⟩, hm, hsame⟩

/-- **Allocation.** The first free block with room for the request, in order
of address, is taken, and cut where what is left makes a block of its own;
where there is none the heap is left as it is. -/
theorem Represents.alloc (h : Represents m bs) (hn : 0 < n) :
    (∃ pre b post, bs = pre ++ b :: post ∧ (b.used = false ∧ request n + 12 ≤ b.len) ∧
      (∀ c ∈ pre, ¬ (c.used = false ∧ request n + 12 ≤ c.len)) ∧
      ∃ m', rtSmemAlloc m n = some (m', some (Blocks.total pre + 12)) ∧ SameHeap m m' ∧
        Represents m' (pre ++ (carve (request n + 12) 24 b ++ post)) ∧
        SameData (live 0 (pre ++ (carve (request n + 12) 24 b ++ post))) m.heap m'.heap) ∨
    (∀ c ∈ bs, ¬ (c.used = false ∧ request n + 12 ≤ c.len)) ∧
      rtSmemAlloc m n = some (m, none) := by
  have hend := h.heapEnd
  have halloc : rtSmemAlloc m n =
      if m.memSizeAligned < request n then some (m, none)
      else if m.allocPtr (request n) ≤ m.memSizeAligned - request n then
        if (m.allocPtr (request n) = m.lfree →
              (m.take (m.allocPtr (request n)) (request n)).lfree =
                  (m.take (m.allocPtr (request n)) (request n)).heapEnd ∨
                (m.take (m.allocPtr (request n)) (request n)).memIsUsed
                  (m.take (m.allocPtr (request n)) (request n)).lfree = false) ∧
            m.allocPtr (request n) + sizeofStructMem + request n ≤
              (m.take (m.allocPtr (request n)) (request n)).heapEnd ∧
            (m.heapPtr + m.allocPtr (request n) + sizeofStructMem) % rtAlignSize = 0 ∧
            (m.heapPtr + m.allocPtr (request n)) % rtAlignSize = 0 then
          some (m.take (m.allocPtr (request n)) (request n),
            some (m.allocPtr (request n) + sizeofStructMem))
        else none
      else some (m, none) := if_neg (by omega)
  by_cases hbig : m.memSizeAligned < request n
  · refine Or.inr ⟨fun c hc hroom => ?_, by rw [halloc, if_pos hbig]⟩
    have h1 := len_le_total hc
    have h2 := h.total
    omega
  · rw [if_neg hbig] at halloc
    obtain ⟨pre0, rest, rfl, hpre0, hlow, -⟩ := exists_lowest_split 0 bs
    rw [Nat.zero_add, ← h.lfree] at hlow
    have hused : ∀ c ∈ pre0, ¬ (c.used = false ∧ request n + 12 ≤ c.len) := fun c hc hf => by
      rw [hpre0 c hc] at hf
      exact Bool.noConfusion hf.1
    have hptr : m.allocPtr (request n) =
        Loop.run (m.allocPass (request n)) m.heapEnd (Blocks.total pre0) := by
      rw [RtSmallMem.allocPtr, hlow]
    rcases h.toChained.run_allocPass (request n) h.toChained.length_lt with
      ⟨mid, b, post, rfl, hb, hmid, hrun⟩ | ⟨hno, hrun⟩
    · -- found at the end of `pre0 ++ mid`
      rw [hrun] at hptr
      rw [← List.append_assoc] at h ⊢
      have hch := h.toChained
      have htot := hch.total_split
      have hmod := hch.total_mod
      have hbase := hch.base
      obtain ⟨hrep, hm, hsame⟩ := h.take hb.1 (request_mod n) hb.2
      refine Or.inl ⟨pre0 ++ mid, b, post, rfl, hb, fun c hc => ?_, _, ?_, hm, hrep, hsame⟩
      · rcases List.mem_append.1 hc with hc | hc
        · exact hused c hc
        · exact hmid c hc
      · rw [halloc, hptr, if_pos (by omega), if_pos]
        · rfl
        · refine ⟨fun _ => ?_, ?_, ?_, ?_⟩
          · rw [hrep.lfree]
            exact hrep.toChained.lowest_free
          · rw [hm.heapEnd]
            unfold sizeofStructMem
            omega
          · unfold sizeofStructMem rtAlignSize
            omega
          · unfold rtAlignSize
            omega
    · refine Or.inr ⟨fun c hc => ?_, ?_⟩
      · rcases List.mem_append.1 hc with hc | hc
        · exact hused c hc
        · exact hno c hc
      · rw [halloc, hptr, if_neg (by omega)]

/-! ## Freeing -/

/-- What stands behind an item names the heap. -/
theorem Chained.memPool_next (h : Chained m (pre ++ b :: post)) :
    m.memPool (m.next (Blocks.total pre)) = m.addr := by
  have htot := h.total_split
  rw [h.next]
  cases post with
  | nil =>
    rw [total_nil, Nat.add_zero] at htot
    rw [htot]
    exact h.memPool_heapEnd
  | cons c cs =>
    have h' : Chained m ((pre ++ [b]) ++ c :: cs) := by rwa [List.append_assoc]
    have hpool := h'.memPool
    rw [total_append, total_cons, total_nil, Nat.add_zero] at hpool
    exact hpool

/-- `lfree` after an item at `p` has become free. -/
theorem setLfree_eq_min (m : RtSmallMem) (p : ℕ) :
    (if p < m.lfree then m.setLfree p else m) = m.setLfree (min m.lfree p) := by
  split_ifs with h
  · rw [min_eq_right h.le]
  · rw [min_eq_left (Nat.not_lt.1 h)]
    rfl

/-- **Freeing.** The block is given back and joined to its free neighbours. -/
theorem Represents.free (h : Represents m (pre ++ ⟨n, true⟩ :: post)) (hn : 12 < n) :
    ∃ m', rtSmemFree m (some (Blocks.total pre + 12)) = some m' ∧ SameHeap m m' ∧
      Represents m' (coalesce (pre ++ ⟨n, false⟩ :: post)) ∧
      SameData (live 0 (pre ++ ⟨n, false⟩ :: post)) m.heap m'.heap := by
  have hch := h.toChained
  have htot := hch.total_split
  have hbase := hch.base
  have hmod := hch.total_mod
  have hnext := hch.next
  have hused := hch.memIsUsed
  obtain ⟨hch1, hsame1⟩ := hch.mark false
  let m3 : RtSmallMem :=
    { m with
      heap := (m.setPoolPtr (Blocks.total pre) m.memFreed).heap
      lfree := min m.lfree (Blocks.total pre)
      used := m.used - n }
  have hch3 : Chained m3 (pre ++ ⟨n, false⟩ :: post) := hch1.of_heap ⟨rfl, rfl, rfl, rfl⟩ rfl
  have hlfree3 : m3.lfree = lowest 0 (pre ++ ⟨n, false⟩ :: post) := by
    rw [lowest_middle_free hch.pos_left, ← h.lfree, Nat.zero_add]
  have hfree : rtSmemFree m (some (Blocks.total pre + 12)) = m3.plugHoles (Blocks.total pre) := by
    have hguard : (m.heapPtr + (Blocks.total pre + 12)) % rtAlignSize = 0 ∧
        m.memPool (Blocks.total pre) = m.addr ∧ m.memIsUsed (Blocks.total pre) = true ∧
        Blocks.total pre + 12 < m.heapEnd ∧ m.memPool (m.next (Blocks.total pre)) = m.addr := by
      change Blocks.total pre + n + Blocks.total post = m.heapEnd at htot
      refine ⟨?_, hch.memPool, hused, by omega, hch.memPool_next⟩
      unfold rtAlignSize
      omega
    have hnext1 : (m.setPoolPtr (Blocks.total pre) m.memFreed).next (Blocks.total pre) =
        Blocks.total pre + n := hch1.next
    unfold rtSmemFree
    simp only [sizeofStructMem, Nat.add_sub_cancel]
    rw [if_pos hguard, setLfree_eq_min]
    show RtSmallMem.plugHoles { m with
      heap := _, lfree := _,
      used := m.used - ((m.setPoolPtr (Blocks.total pre) m.memFreed).next (Blocks.total pre) -
        Blocks.total pre) } (Blocks.total pre) = _
    rw [hnext1, Nat.add_sub_cancel_left]
    rfl
  obtain ⟨heap', hplug, hch4, hsame4⟩ :=
    hch3.plugHoles rfl h.tidy.left h.tidy.right.tail hlfree3
  refine ⟨_, hfree.trans hplug, ⟨rfl, rfl, rfl, rfl⟩, ⟨hch4, tidy_coalesce, ?_, ?_, ?_⟩, ?_⟩
  · rw [lowest_coalesce]
    exact hlfree3
  · rw [usedLen_coalesce]
    show m.used - n = _
    rw [h.used]
    simp only [usedLen_append, usedLen_cons, if_true, Bool.false_eq_true, if_false]
    omega
  · exact le_trans (Nat.sub_le ..) h.max
  · exact (hsame1.mono fun e he => mem_live_of_free he).trans hsame4

/-! ## Shrinking -/

/-- **A block shrunk in place** keeps what it held; what is cut off it is
given back. -/
theorem Represents.shrink (h : Represents m (pre ++ ⟨n, true⟩ :: post)) (hsize : size % 4 = 0)
    (hroom : size + 36 < n) :
    ∃ m', m.shrink (Blocks.total pre) (n - 12) size = some m' ∧ SameHeap m m' ∧
      Represents m' (coalesce (pre ++ ⟨size + 12, true⟩ :: ⟨n - (size + 12), false⟩ :: post)) ∧
      SameData (live 0 (pre ++ ⟨size + 12, true⟩ :: ⟨n - (size + 12), false⟩ :: post))
        m.heap m'.heap := by
  have hch0 : Chained ({ m with used := m.used - (n - 12 - size) } : RtSmallMem)
      (pre ++ ⟨n, true⟩ :: post) := h.toChained.of_heap ⟨rfl, rfl, rfl, rfl⟩ rfl
  have hroom' : size + 24 ≤ n := by omega
  obtain ⟨heap1, hcut, hch1, hsame1⟩ := hch0.cut hsize hroom'
  have hat : Blocks.total (pre ++ [⟨size + 12, true⟩]) = Blocks.total pre + 12 + size := by
    simp only [total_append, total_cons, total_nil]
    omega
  let m2 : RtSmallMem :=
    { m with
      heap := heap1
      lfree := min m.lfree (Blocks.total pre + 12 + size)
      used := m.used - (n - 12 - size) }
  have hch2 : Chained m2 ((pre ++ [⟨size + 12, true⟩]) ++ ⟨n - (size + 12), false⟩ :: post) := by
    rw [List.append_assoc]
    exact hch1.of_heap ⟨rfl, rfl, rfl, rfl⟩ rfl
  have hlow : lowest 0 ((pre ++ [⟨size + 12, true⟩]) ++ ⟨n - (size + 12), true⟩ :: post) =
      lowest 0 (pre ++ ⟨n, true⟩ :: post) := by
    have hlen : (⟨size + 12, true⟩ : Block).len + (n - (size + 12)) = n := by
      show size + 12 + (n - (size + 12)) = n
      omega
    rw [List.append_assoc]
    by_cases hall : ∀ a ∈ pre, a.used = true
    · rw [lowest_append_of_used hall, lowest_append_of_used hall, List.singleton_append,
        lowest_used rfl, lowest_used rfl, lowest_used rfl, Nat.add_assoc, hlen]
    · push Not at hall
      obtain ⟨a, ha, hau⟩ := hall
      exact lowest_append_of_free ha (Bool.eq_false_iff.2 hau)
  have hlfree2 : m2.lfree =
      lowest 0 ((pre ++ [⟨size + 12, true⟩]) ++ ⟨n - (size + 12), false⟩ :: post) := by
    rw [lowest_middle_free hch2.pos_left, hlow, ← h.lfree, Nat.zero_add, hat]
  have htidy : Tidy (pre ++ [⟨size + 12, true⟩]) := h.tidy.left.join List.isChain_nil rfl
  obtain ⟨heap', hplug, hch3, hsame3⟩ :=
    hch2.plugHoles rfl htidy h.tidy.right.tail hlfree2
  rw [hat] at hplug
  rw [List.append_assoc] at hch3 hsame3 hlfree2
  refine ⟨{ m2 with heap := heap' }, ?_, ⟨rfl, rfl, rfl, rfl⟩, ⟨hch3, tidy_coalesce, ?_, ?_, ?_⟩,
    hsame1.trans ?_⟩
  · unfold RtSmallMem.shrink
    rw [← hplug]
    simp only [hcut, sizeofStructMem]
    exact congrArg (fun k => RtSmallMem.plugHoles k _) (setLfree_eq_min
      { m with heap := heap1, used := m.used - (n - 12 - size) } _)
  · rw [lowest_coalesce]
    exact hlfree2
  · rw [usedLen_coalesce]
    show m.used - (n - 12 - size) = _
    rw [h.used]
    simp only [usedLen_append, usedLen_cons, if_true, Bool.false_eq_true, if_false]
    omega
  · exact le_trans (Nat.sub_le ..) h.max
  · exact hsame3

end Kernel

end RtSpark
