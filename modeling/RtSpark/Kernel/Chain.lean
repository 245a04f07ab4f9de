import RtSpark.Common.Blocks
import RtSpark.Kernel.Model.Mem
/-!
# The items of the heap as a line of blocks

`Headers` reads a line of blocks off the items of the heap, `Chained` says
that the whole heap is such a line. `Chained.splice` is the one rule about
changing it: a stretch of blocks is replaced by one of the same length, and
outside of it nothing is written but the `prev` of the item behind. The
searches of the allocator and the two halves of `plug_holes` are then read
on the line.
-/

namespace RtSpark

namespace Kernel

open Blocks RtSmallMem

/-- The header of block `b` stands at `p`, and names the item at `q` as the
one before it. -/
structure HeaderAt (addr : ℕ) (heap : ℕ → ℕ) (q p : ℕ) (b : Block) : Prop where
  poolPtr : heap p = addr / 2 * 2 + b.used.toNat
  next : heap (p + 4) = p + b.len
  prev : heap (p + 8) = q

/-- The headers of the blocks of a line that begins at `p`. -/
def Headers (addr : ℕ) (heap : ℕ → ℕ) : ℕ → ℕ → List Block → Prop
  | _, _, [] => True
  | q, p, b :: bs => HeaderAt addr heap q p b ∧ Headers addr heap p (p + b.len) bs

/-- The words of the blocks in use hold what they held. -/
def SameData (es : List (ℕ × ℕ)) (heap heap' : ℕ → ℕ) : Prop :=
  ∀ e ∈ es, ∀ a, e.1 + sizeofStructMem ≤ a → a < e.1 + e.2 → heap' a = heap a

section Headers

variable {addr q q' p : ℕ} {heap heap' heap'' : ℕ → ℕ} {b : Block}
  {as bs pre mid mid' post : List Block} {es : List (ℕ × ℕ)}

theorem SameData.refl : SameData es heap heap := fun _ _ _ _ _ => rfl

theorem SameData.trans (h : SameData es heap heap') (h' : SameData es heap' heap'') :
    SameData es heap heap'' := fun e he a h1 h2 => (h' e he a h1 h2).trans (h e he a h1 h2)

theorem headers_append : Headers addr heap q p (as ++ bs) ↔
    Headers addr heap q p as ∧ Headers addr heap (lastAt q p as) (p + total as) bs := by
  induction as generalizing q p with
  | nil => exact (and_iff_right trivial).symm
  | cons a as ih =>
    rw [List.cons_append, Headers, Headers, ih, lastAt, total_cons, Nat.add_assoc, and_assoc]

/-- The headers are where they were if nothing of the line is written but
the `prev` of its first item. -/
theorem Headers.congr (h : Headers addr heap q p bs) (hwide : ∀ b ∈ bs, 12 ≤ b.len)
    (hsame : ∀ a, p ≤ a → a < p + total bs → a ≠ p + 8 → heap' a = heap a)
    (hprev : bs ≠ [] → heap' (p + 8) = q') : Headers addr heap' q' p bs := by
  induction bs generalizing q q' p with
  | nil => trivial
  | cons b bs ih =>
    obtain ⟨hb, hbs⟩ := h
    have hlen := hwide b (List.mem_cons_self ..)
    rw [total_cons] at hsame
    refine ⟨⟨?_, ?_, hprev (List.cons_ne_nil _ _)⟩, ?_⟩
    · rw [hsame p (by omega) (by omega) (by omega), hb.poolPtr]
    · rw [hsame (p + 4) (by omega) (by omega) (by omega), hb.next]
    · refine ih hbs (fun c hc => hwide c (List.mem_cons_of_mem _ hc))
        (fun a h1 h2 _ => hsame a (by omega) (by omega) (by omega)) fun hne => ?_
      obtain ⟨c, cs, rfl⟩ := List.exists_cons_of_ne_nil hne
      have hclen := hwide c (List.mem_cons_of_mem _ (List.mem_cons_self ..))
      rw [total_cons] at hsame
      rw [hsame (p + b.len + 8) (by omega) (by omega) (by omega), hbs.1.prev]

/-- **A stretch of the line replaced.** -/
theorem Headers.splice (h : Headers addr heap q p (pre ++ (mid ++ post)))
    (hwide : ∀ b ∈ pre ++ (mid ++ post), 12 ≤ b.len)
    (hout : ∀ a, a < p + total pre ∨ p + total pre + total mid ≤ a →
      a ≠ p + total pre + total mid + 8 → heap' a = heap a)
    (hmid : Headers addr heap' (lastAt q p pre) (p + total pre) mid')
    (htotal : total mid' = total mid)
    (hpost : post ≠ [] → heap' (p + total pre + total mid + 8) =
      lastAt (lastAt q p pre) (p + total pre) mid') :
    Headers addr heap' q p (pre ++ (mid' ++ post)) := by
  rw [headers_append, headers_append] at h ⊢
  obtain ⟨hpre, -, hrest⟩ := h
  have hpreWide : ∀ b ∈ pre, 12 ≤ b.len := fun b hb => hwide b (List.mem_append_left _ hb)
  have hpostWide : ∀ b ∈ post, 12 ≤ b.len := fun b hb =>
    hwide b (List.mem_append_right _ (List.mem_append_right _ hb))
  refine ⟨?_, hmid, ?_⟩
  · refine hpre.congr hpreWide (fun a h1 h2 _ => hout a (Or.inl h2) (by omega)) fun hne => ?_
    obtain ⟨c, cs, rfl⟩ := List.exists_cons_of_ne_nil hne
    have hlen := hpreWide c (List.mem_cons_self ..)
    rw [hout (p + 8) (Or.inl (by rw [total_cons]; omega)) (by rw [total_cons]; omega)]
    exact hpre.1.prev
  · rw [htotal]
    exact hrest.congr hpostWide (fun a h1 h2 h3 => hout a (Or.inr h1) h3) hpost

/-- What lies outside the stretch keeps its data. -/
theorem sameData_outside
    (hout : ∀ a, a < p + total pre ∨ p + total pre + total mid ≤ a →
      a ≠ p + total pre + total mid + 8 → heap' a = heap a) :
    SameData (live p pre ++ live (p + total pre + total mid) post) heap heap' := by
  intro e he a h1 h2
  have hh : sizeofStructMem = 12 := rfl
  rcases List.mem_append.1 he with he | he
  · have hb := bounds_of_mem_live he
    exact hout a (Or.inl (by omega)) (by omega)
  · have hb := bounds_of_mem_live he
    exact hout a (Or.inr (by omega)) (by omega)

end Headers

/-- The heap is the line `bs`, from its start to `heap_end`. -/
structure Chained (m : RtSmallMem) (bs : List Block) : Prop where
  headers : Headers m.addr m.heap 0 0 bs
  endUsed : m.heap m.heapEnd = m.addr / 2 * 2 + 1
  total : total bs = m.heapEnd
  heapEnd : m.heapEnd = m.memSizeAligned + 12
  wide : ∀ b ∈ bs, 12 ≤ b.len
  aligned : ∀ b ∈ bs, b.len % 4 = 0
  base : m.heapPtr % 4 = 0
  addr : m.addr % 2 = 0

/-- The heap is the line `bs`, and the allocator's own figures agree with
it. -/
structure Represents (m : RtSmallMem) (bs : List Block) : Prop extends Chained m bs where
  tidy : Tidy bs
  lfree : m.lfree = lowest 0 bs
  used : m.used = usedLen bs
  max : m.used ≤ m.max

/-- `m'` is `m` with other words in the heap and other figures. -/
structure SameHeap (m m' : RtSmallMem) : Prop where
  addr : m'.addr = m.addr
  heapPtr : m'.heapPtr = m.heapPtr
  heapEnd : m'.heapEnd = m.heapEnd
  memSizeAligned : m'.memSizeAligned = m.memSizeAligned

section Chained

variable {m m' : RtSmallMem} {b c : Block} {bs pre mid mid' post : List Block} {p n a v : ℕ}

theorem SameHeap.refl : SameHeap m m := ⟨rfl, rfl, rfl, rfl⟩

theorem SameHeap.trans {m'' : RtSmallMem} (h : SameHeap m m') (h' : SameHeap m' m'') :
    SameHeap m m'' :=
  ⟨h'.addr.trans h.addr, h'.heapPtr.trans h.heapPtr, h'.heapEnd.trans h.heapEnd,
    h'.memSizeAligned.trans h.memSizeAligned⟩

/-- **A stretch of the heap replaced.** -/
theorem Chained.splice (mid mid' : List Block) (h : Chained m (pre ++ (mid ++ post))) (hm : SameHeap m m')
    (hout : ∀ a, a < Blocks.total pre ∨ Blocks.total pre + Blocks.total mid ≤ a →
      a ≠ Blocks.total pre + Blocks.total mid + 8 → m'.heap a = m.heap a)
    (hmid : Headers m.addr m'.heap (lastAt 0 0 pre) (Blocks.total pre) mid')
    (htotal : Blocks.total mid' = Blocks.total mid)
    (hpost : post ≠ [] → m'.heap (Blocks.total pre + Blocks.total mid + 8) =
      lastAt (lastAt 0 0 pre) (Blocks.total pre) mid')
    (hwide : ∀ b ∈ mid', 12 ≤ b.len ∧ b.len % 4 = 0) :
    Chained m' (pre ++ (mid' ++ post)) where
  headers := by
    rw [hm.addr]
    refine h.headers.splice h.wide ?_ ?_ htotal ?_ <;> simp only [Nat.zero_add]
    · exact hout
    · exact hmid
    · exact hpost
  endUsed := by
    have htot := h.total
    simp only [total_append] at htot
    rw [hm.heapEnd, hm.addr, hout _ (Or.inr (by omega)), h.endUsed]
    cases post with
    | nil => rw [total_nil] at htot; omega
    | cons c cs =>
      have hlen := h.wide c (by simp)
      rw [total_cons] at htot
      omega
  total := by
    have htot := h.total
    simp only [total_append] at htot ⊢
    rw [hm.heapEnd]
    omega
  heapEnd := by rw [hm.heapEnd, hm.memSizeAligned, h.heapEnd]
  wide b hb := by
    rcases List.mem_append.1 hb with hb | hb
    · exact h.wide b (List.mem_append_left _ hb)
    · rcases List.mem_append.1 hb with hb | hb
      · exact (hwide b hb).1
      · exact h.wide b (List.mem_append_right _ (List.mem_append_right _ hb))
  aligned b hb := by
    rcases List.mem_append.1 hb with hb | hb
    · exact h.aligned b (List.mem_append_left _ hb)
    · rcases List.mem_append.1 hb with hb | hb
      · exact (hwide b hb).2
      · exact h.aligned b (List.mem_append_right _ (List.mem_append_right _ hb))
  base := by rw [hm.heapPtr, h.base]
  addr := by rw [hm.addr, h.addr]

/-- The header of a block of the heap. -/
theorem Chained.headerAt (h : Chained m (pre ++ b :: post)) :
    HeaderAt m.addr m.heap (lastAt 0 0 pre) (Blocks.total pre) b := by
  have hh := (headers_append.1 h.headers).2.1
  rwa [Nat.zero_add] at hh

/-- What stands where a block ends: the header of the next, or the item at
the end of the heap. -/
theorem Chained.memIsUsed (h : Chained m (pre ++ b :: post)) :
    m.memIsUsed (Blocks.total pre) = b.used := by
  unfold RtSmallMem.memIsUsed RtSmallMem.poolPtr
  rw [h.headerAt.poolPtr]
  cases b.used <;> simp

theorem Chained.next (h : Chained m (pre ++ b :: post)) :
    m.next (Blocks.total pre) = Blocks.total pre + b.len := h.headerAt.next

theorem Chained.prev (h : Chained m (pre ++ b :: post)) :
    m.prev (Blocks.total pre) = lastAt 0 0 pre := h.headerAt.prev

theorem Chained.memPool (h : Chained m (pre ++ b :: post)) :
    m.memPool (Blocks.total pre) = m.addr := by
  have := h.addr
  unfold RtSmallMem.memPool RtSmallMem.poolPtr
  rw [h.headerAt.poolPtr]
  cases b.used <;> simp only [Bool.toNat_false, Bool.toNat_true] <;> omega

theorem Chained.memPool_heapEnd (h : Chained m bs) : m.memPool m.heapEnd = m.addr := by
  have := h.addr
  unfold RtSmallMem.memPool RtSmallMem.poolPtr
  rw [h.endUsed]
  omega

theorem Chained.total_split (h : Chained m (pre ++ b :: post)) :
    Blocks.total pre + b.len + Blocks.total post = m.heapEnd := by
  have := h.total
  rw [total_append, total_cons] at this
  omega

theorem Chained.len_middle (h : Chained m (pre ++ b :: post)) : 12 ≤ b.len ∧ b.len % 4 = 0 :=
  ⟨h.wide b (by simp), h.aligned b (by simp)⟩

/-! ## The two loops -/

theorem Chained.fits (h : Chained m (pre ++ b :: post)) (size : ℕ) :
    m.fits size (Blocks.total pre) = true ↔ b.used = false ∧ size + 12 ≤ b.len := by
  have hlen := h.len_middle.1
  unfold RtSmallMem.fits sizeofStructMem
  rw [h.memIsUsed, h.next, decide_eq_true_eq]
  exact and_congr_right fun _ => by omega

/-- The search of `rt_smem_alloc`, from a block of the line on: it stops at
the first free block with room, or past the last place one could be. -/
theorem Chained.run_allocPass (h : Chained m (pre ++ bs)) (size : ℕ) (hfuel : bs.length < n) :
    (∃ mid b post, bs = mid ++ b :: post ∧ (b.used = false ∧ size + 12 ≤ b.len) ∧
      (∀ c ∈ mid, ¬ (c.used = false ∧ size + 12 ≤ c.len)) ∧
      Loop.run (m.allocPass size) n (Blocks.total pre) = Blocks.total (pre ++ mid)) ∨
    (∀ c ∈ bs, ¬ (c.used = false ∧ size + 12 ≤ c.len)) ∧
      m.memSizeAligned - size < Loop.run (m.allocPass size) n (Blocks.total pre) := by
  have hend := h.heapEnd
  induction bs generalizing pre n with
  | nil =>
    have htot := h.total
    rw [List.append_nil] at htot
    have hstop : m.allocPass size (Blocks.total pre) = none := if_neg (by omega)
    refine Or.inr ⟨fun c hc => absurd hc List.not_mem_nil, ?_⟩
    rw [Loop.run_of_none hstop]
    omega
  | cons b bs ih =>
    have htot := h.total_split
    by_cases hfit : b.used = false ∧ size + 12 ≤ b.len
    · have hstop : m.allocPass size (Blocks.total pre) = none :=
        if_neg fun hc => by rw [(h.fits size).2 hfit] at hc; exact Bool.noConfusion hc.2
      refine Or.inl ⟨[], b, bs, rfl, hfit, fun c hc => absurd hc List.not_mem_nil, ?_⟩
      rw [Loop.run_of_none hstop, List.append_nil]
    · by_cases hle : Blocks.total pre ≤ m.memSizeAligned - size
      · -- the search goes on behind `b`
        have hnofit : m.fits size (Blocks.total pre) = false :=
          Bool.eq_false_iff.2 fun hf => hfit ((h.fits size).1 hf)
        have hpass : m.allocPass size (Blocks.total pre) = some (Blocks.total (pre ++ [b])) := by
          rw [RtSmallMem.allocPass, if_pos ⟨hle, hnofit⟩, h.next]
          simp
        have h' : Chained m ((pre ++ [b]) ++ bs) := by rwa [List.append_assoc]
        obtain ⟨k, rfl⟩ : ∃ k, n = k + 1 := ⟨n - 1, by omega⟩
        rw [Loop.run_succ_of_some hpass]
        rcases ih h' (Nat.lt_of_succ_lt_succ hfuel) with ⟨mid, c, post, hbs, hc, hmid, hrun⟩ | hno
        · refine Or.inl ⟨b :: mid, c, post, by rw [hbs]; rfl, hc, fun d hd => ?_, ?_⟩
          · rcases List.mem_cons.1 hd with rfl | hd
            · exact hfit
            · exact hmid d hd
          · rw [hrun, List.append_assoc]
            rfl
        · refine Or.inr ⟨fun c hc => ?_, hno.2⟩
          rcases List.mem_cons.1 hc with rfl | hc
          · exact hfit
          · exact hno.1 c hc
      · have hstop : m.allocPass size (Blocks.total pre) = none := if_neg fun hc => hle hc.1
        refine Or.inr ⟨fun c hc hroom => ?_, ?_⟩
        · have := len_le_total hc
          rw [total_cons] at this
          omega
        · rw [Loop.run_of_none hstop]
          omega

/-- The loop that moves `lfree` on ends at the first free block. -/
theorem Chained.run_lfreePass (h : Chained m (pre ++ bs)) (hfuel : bs.length < n) :
    Loop.run m.lfreePass n (Blocks.total pre) = lowest (Blocks.total pre) bs := by
  induction bs generalizing pre n with
  | nil =>
    have htot := h.total
    rw [List.append_nil] at htot
    have hstop : m.lfreePass (Blocks.total pre) = none := if_neg fun hc => hc.2 htot
    rw [Loop.run_of_none hstop]
    rfl
  | cons b bs ih =>
    have htot := h.total_split
    have hlen := h.len_middle.1
    cases hb : b.used with
    | false =>
      have hstop : m.lfreePass (Blocks.total pre) = none :=
        if_neg fun hc => by rw [h.memIsUsed, hb] at hc; exact Bool.noConfusion hc.1
      rw [Loop.run_of_none hstop, lowest_free hb]
    | true =>
      have hpass : m.lfreePass (Blocks.total pre) = some (Blocks.total (pre ++ [b])) := by
        rw [RtSmallMem.lfreePass, if_pos ⟨by rw [h.memIsUsed, hb], by omega⟩, h.next]
        simp
      have h' : Chained m ((pre ++ [b]) ++ bs) := by rwa [List.append_assoc]
      obtain ⟨k, rfl⟩ : ∃ k, n = k + 1 := ⟨n - 1, by omega⟩
      rw [Loop.run_succ_of_some hpass, ih h' (Nat.lt_of_succ_lt_succ hfuel), lowest_used hb]
      simp

/-- There are fewer blocks than bytes. -/
theorem Chained.length_lt (h : Chained m (pre ++ bs)) : bs.length < m.heapEnd := by
  have htot := h.total
  have hend := h.heapEnd
  rw [total_append] at htot
  have hcount : 12 * bs.length ≤ Blocks.total bs :=
    length_le_total fun b hb => h.wide b (List.mem_append_right _ hb)
  omega

/-! ## `plug_holes` -/

/-- A free item takes in the free item behind it. -/
theorem Chained.takeIn (h : Chained m (pre ++ b :: c :: post)) (hb : b.used = false)
    (hc : c.used = false) (hlfree : m.lfree ≠ Blocks.total pre + b.len) :
    ∃ heap', m.takeIn (Blocks.total pre) (Blocks.total pre + b.len) = { m with heap := heap' } ∧
      Chained { m with heap := heap' } (pre ++ ⟨b.len + c.len, false⟩ :: post) ∧
      SameData (live 0 (pre ++ b :: c :: post)) m.heap heap' := by
  have hlen := h.len_middle
  have h' : Chained m ((pre ++ [b]) ++ c :: post) := by rwa [List.append_assoc]
  have hat : Blocks.total (pre ++ [b]) = Blocks.total pre + b.len := by simp
  have hcNext := h'.next
  have hclen := h'.len_middle
  rw [hat] at hcNext
  let heap' := Function.update (Function.update (Function.update m.heap
    (Blocks.total pre + b.len) 0) (Blocks.total pre + 4) (Blocks.total pre + b.len + c.len))
    (Blocks.total pre + b.len + c.len + 8) (Blocks.total pre)
  have hout : ∀ a, a < Blocks.total pre ∨ Blocks.total pre + Blocks.total [b, c] ≤ a →
      a ≠ Blocks.total pre + Blocks.total [b, c] + 8 → heap' a = m.heap a := by
    intro a ha hne
    simp only [total_cons, total_nil] at ha hne
    simp only [heap', Function.update_apply]
    rw [if_neg (by omega), if_neg (by omega), if_neg (by omega)]
  refine ⟨heap', ?_, ?_, ?_⟩
  · unfold RtSmallMem.takeIn
    rw [if_neg hlfree]
    unfold RtSmallMem.next at hcNext
    simp only [RtSmallMem.setPoolPtr, RtSmallMem.setNext, RtSmallMem.setPrev,
      RtSmallMem.store, RtSmallMem.next, heap']
    rw [Function.update_of_ne (by omega) _ m.heap, hcNext]
    rw [Function.update_of_ne (by omega), Function.update_of_ne (by omega), hcNext]
  · refine Chained.splice [b, c] [⟨b.len + c.len, false⟩] h
      ⟨rfl, rfl, rfl, rfl⟩ hout ⟨⟨?_, ?_, ?_⟩, trivial⟩ (by simp) (fun _ => ?_) ?_
    · have hold := h.headerAt.poolPtr
      rw [hb] at hold
      simp only [heap', Function.update_apply]
      rw [if_neg (by omega), if_neg (by omega), if_neg (by omega), hold]
    · simp only [heap', Function.update_apply]
      rw [if_neg (by omega), if_true]
      omega
    · have hold := h.headerAt.prev
      simp only [heap', Function.update_apply]
      rw [if_neg (by omega), if_neg (by omega), if_neg (by omega), hold]
    · simp only [heap', total_cons, total_nil, Function.update_apply]
      rw [if_pos (by omega)]
      rfl
    · intro d hd
      rw [List.mem_singleton] at hd
      subst hd
      exact ⟨by show 12 ≤ b.len + c.len; omega, by show (b.len + c.len) % 4 = 0; omega⟩
  · have hlive : live 0 (pre ++ b :: c :: post) =
        live 0 pre ++ live (0 + Blocks.total pre + Blocks.total [b, c]) post := by
      rw [live_append, live_free hb, live_free hc]
      simp only [total_cons, total_nil, Nat.add_zero, Nat.add_assoc]
    rw [hlive]
    refine sameData_outside fun a ha hne => hout a ?_ ?_
    · simpa only [Nat.zero_add] using ha
    · simpa only [Nat.zero_add] using hne

/-- **Forward**, a free item takes in the item behind it where that is
free. -/
theorem Chained.plugForward (h : Chained m (pre ++ b :: post)) (hb : b.used = false)
    (hlfree : m.lfree ≤ Blocks.total pre) :
    ∃ heap', m.plugForward (Blocks.total pre) = { m with heap := heap' } ∧
      Chained { m with heap := heap' } (pre ++ push b post) ∧
      SameData (live 0 (pre ++ b :: post)) m.heap heap' := by
  have hlen := h.len_middle
  have htot := h.total_split
  have hnext := h.next
  cases post with
  | nil =>
    refine ⟨m.heap, if_neg fun hc => hc.2.2 ?_, h, SameData.refl⟩
    rw [hnext, ← htot, total_nil, Nat.add_zero]
  | cons c post =>
    have h' : Chained m ((pre ++ [b]) ++ c :: post) := by rwa [List.append_assoc]
    have hat : Blocks.total (pre ++ [b]) = Blocks.total pre + b.len := by simp
    have hclen := h'.len_middle
    have hcUsed := h'.memIsUsed
    rw [hat, ← hnext] at hcUsed
    rw [total_cons] at htot
    cases hc : c.used with
    | true =>
      refine ⟨m.heap, if_neg fun hn => ?_, ?_, SameData.refl⟩
      · rw [hcUsed, hc] at hn
        exact Bool.noConfusion hn.2.1
      · rw [push_used (Or.inr hc)]
        exact h
    | false =>
      obtain ⟨heap', hm, hch, hsame⟩ := h.takeIn hb hc (by omega)
      refine ⟨heap', ?_, ?_, hsame⟩
      · rw [← hm, ← hnext]
        exact if_pos ⟨by omega, hcUsed.trans hc, by omega⟩
      · rw [push_free hb hc]
        exact hch

/-- **Backward**, it is taken into the item before it where that is free. -/
theorem Chained.plugBackward (h : Chained m (pre ++ c :: b :: post)) (hb : b.used = false)
    (hlfree : c.used = false → m.lfree ≤ Blocks.total pre) :
    ∃ heap', m.plugBackward (Blocks.total pre + c.len) = { m with heap := heap' } ∧
      Chained { m with heap := heap' } (pre ++ push c (b :: post)) ∧
      SameData (live 0 (pre ++ c :: b :: post)) m.heap heap' := by
  have h' : Chained m ((pre ++ [c]) ++ b :: post) := by rwa [List.append_assoc]
  have hat : Blocks.total (pre ++ [c]) = Blocks.total pre + c.len := by simp
  have hprev := h'.prev
  have hlen := h.len_middle
  rw [hat, lastAt_append, Nat.zero_add] at hprev
  change m.prev (Blocks.total pre + c.len) = Blocks.total pre at hprev
  have hcUsed := h.memIsUsed
  rw [← hprev] at hcUsed
  cases hc : c.used with
  | true =>
    refine ⟨m.heap, if_neg fun hn => ?_, ?_, SameData.refl⟩
    · rw [hcUsed, hc] at hn
      exact Bool.noConfusion hn.2
    · rw [push_used (Or.inl hc)]
      exact h
  | false =>
    have hlf := hlfree hc
    obtain ⟨heap', hm, hch, hsame⟩ := h.takeIn hc hb (by omega)
    refine ⟨heap', ?_, ?_, hsame⟩
    · have hif : m.plugBackward (Blocks.total pre + c.len) =
          m.takeIn (m.prev (Blocks.total pre + c.len)) (Blocks.total pre + c.len) :=
        if_pos ⟨by omega, hcUsed.trans hc⟩
      rw [hif, hprev, hm]
    · rw [push_free hc hb]
      exact hch

/-- **`plug_holes` joins a block given back to its free neighbours.** -/
theorem Chained.plugHoles (h : Chained m (pre ++ b :: post)) (hb : b.used = false)
    (hpre : Tidy pre) (hpost : Tidy post) (hlfree : m.lfree = lowest 0 (pre ++ b :: post)) :
    ∃ heap', m.plugHoles (Blocks.total pre) = some { m with heap := heap' } ∧
      Chained { m with heap := heap' } (coalesce (pre ++ b :: post)) ∧
      SameData (live 0 (pre ++ b :: post)) m.heap heap' := by
  have hlen := h.len_middle
  have htot := h.total_split
  have hwide : ∀ a ∈ pre, 0 < a.len := fun a ha => by
    have := h.wide a (List.mem_append_left _ ha)
    omega
  have hle : m.lfree ≤ Blocks.total pre := by
    have := lowest_le_of_free (p := 0) pre post hwide hb
    rwa [Nat.zero_add, ← hlfree] at this
  obtain ⟨heap1, hfwd, hch1, hsame1⟩ := h.plugForward hb hle
  have hif : m.plugHoles (Blocks.total pre) =
      some ((m.plugForward (Blocks.total pre)).plugBackward (Blocks.total pre)) :=
    if_pos (by omega)
  rw [hif, hfwd]
  rcases List.eq_nil_or_concat' pre with rfl | ⟨as, c, rfl⟩
  · -- nothing stands before it
    obtain ⟨k, cs, hpush, -⟩ := exists_push b post
    have hprev : ({ m with heap := heap1 } : RtSmallMem).prev 0 = 0 := by
      rw [hpush] at hch1
      exact hch1.prev
    refine ⟨heap1, congrArg some (if_neg fun hc => hc.1 hprev), ?_, hsame1⟩
    rw [List.nil_append, coalesce_cons, coalesce_of_tidy hpost]
    exact hch1
  · -- the item before it is `c`
    rw [List.append_assoc, List.singleton_append] at hlfree hsame1 ⊢
    obtain ⟨k, cs, hpush, -⟩ := exists_push b post
    rw [hpush, List.append_assoc, List.singleton_append] at hch1
    have hlf : c.used = false → m.lfree ≤ Blocks.total as := fun hc => by
      have := lowest_le_of_free (p := 0) as (b :: post)
        (fun a ha => hwide a (List.mem_append_left _ ha)) hc
      rwa [Nat.zero_add, ← hlfree] at this
    have hat : Blocks.total (as ++ [c]) = Blocks.total as + c.len := by simp
    obtain ⟨heap2, hback, hch2, hsame2⟩ := hch1.plugBackward hb hlf
    refine ⟨heap2, by rw [hat, hback], ?_, hsame1.trans ?_⟩
    · rw [coalesce_middle hpre hpost, hpush]
      exact hch2
    · rwa [live_append, live, ← hpush, live_push, ← live, ← live_append] at hsame2

end Chained

end Kernel

end RtSpark
